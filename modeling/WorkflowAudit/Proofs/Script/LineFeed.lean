import WorkflowAudit.Proofs.Script.Rewriting

/-!
# Texts that end with a line feed

No piece of a text reaches over its last line feed, unless that is part of a joined line. So a
reading of a text that ends with one stays as it is when more text follows, and leaves the
lexer where a line is about to start.
-/

namespace WorkflowAudit.Script.Lexer

open Text

/-! ## Pieces of a text that ends with a line feed -/

theorem getLast?_of_append {cs ds : List Char} {x : Char} (h : (cs ++ ds).getLast? = some x)
    (hne : ds ≠ []) : ds.getLast? = some x := by
  rwa [List.getLast?_append_of_ne_nil cs hne] at h

theorem takeWhile_append_of_getLast? {p : Char → Bool} {cs : List Char} (rest : List Char)
    (hend : cs.getLast? = some '\n') (hp : p '\n' = false) :
    (cs ++ rest).takeWhile p = cs.takeWhile p := by
  rw [List.takeWhile_append, if_neg]
  intro hlength
  have hall : cs.takeWhile p = cs := (List.takeWhile_prefix p).eq_of_length hlength
  have := List.mem_takeWhile_imp (hall ▸ List.mem_of_getLast? hend)
  rw [hp] at this
  cases this

theorem literalTail?_append_of_getLast? {quote : Char} {cs : List Char} {n : Nat}
    (rest : List Char) (hquote : isQuote quote = true) (hend : cs.getLast? = some '\n')
    (h : literalTail? quote cs = some n) : literalTail? quote (cs ++ rest) = some n := by
  obtain ⟨w, after, rfl, rfl⟩ : ∃ w after, cs = w ++ after ∧ n = w.length :=
    ⟨cs.take n, cs.drop n, (List.take_append_drop n cs).symm,
      (List.length_take_of_le (literalTail?_length_le h)).symm⟩
  rw [List.append_assoc]
  refine literalTail?_append (fun hw hhead => ?_) h
  cases after with
  | cons d after => exact hhead
  | nil =>
    -- a lone quote is no line feed
    rw [hw] at hend
    cases hend
    cases hquote

theorem numberTail_append_of_getLast? {hasRadix : Bool} {last : Char} {cs : List Char}
    (rest : List Char) (hend : cs.getLast? = some '\n') :
    numberTail hasRadix last (cs ++ rest) = numberTail hasRadix last cs := by
  induction cs generalizing last with
  | nil => cases hend
  | cons c cs ih =>
    rw [List.cons_append, numberTail_cons, numberTail_cons]
    cases cs with
    | nil =>
      obtain rfl : c = '\n' := by simpa using hend
      have hstops : ∀ after, joinsNumber hasRadix last '\n' after = false := fun after => by
        rw [joinsNumber]
        rfl
      rw [hstops, hstops]
      rfl
    | cons d cs =>
      rw [ih (by simpa using hend)]
      rfl

theorem any_isPrefixOf_append_of_getLast? {ops : List (List Char)} {cs : List Char}
    (rest : List Char) (hend : cs.getLast? = some '\n') (hops : ∀ op ∈ ops, '\n' ∉ op) :
    (ops.any fun op => op.isPrefixOf (cs ++ rest)) = ops.any fun op => op.isPrefixOf cs := by
  rw [Bool.eq_iff_iff, List.any_eq_true, List.any_eq_true]
  refine exists_congr fun op => and_congr_right fun hop => ?_
  rw [List.isPrefixOf_iff_prefix, List.isPrefixOf_iff_prefix, prefix_append_iff]
  refine ⟨?_, .inl⟩
  rintro (h | ⟨excess, rfl, -⟩)
  · exact h
  · exact absurd (List.mem_append_left excess (List.mem_of_getLast? hend)) (hops _ hop)

theorem operatorLength?_append_of_getLast? {c : Char} {cs : List Char} (rest : List Char)
    (hend : cs.getLast? = some '\n') :
    operatorLength? c (cs ++ rest) = operatorLength? c cs := by
  have hall : (c :: cs).getLast? = some '\n' := by
    rw [List.getLast?_cons, hend]
    rfl
  unfold operatorLength?
  rw [← List.cons_append, any_isPrefixOf_append_of_getLast? rest hall (by decide),
    any_isPrefixOf_append_of_getLast? rest hall (by decide)]

theorem wordPiece_append_of_getLast? {c q : Char} {tail after : List Char} {r : Piece × Nat}
    (rest : List Char) (hend : (q :: after).getLast? = some '\n')
    (h : wordPiece c tail (q :: after) = .ok r) :
    wordPiece c tail (q :: after ++ rest) = .ok r := by
  rw [List.cons_append]
  unfold wordPiece at h ⊢
  dsimp only at h ⊢
  split at h
  case isFalse hplain => rwa [if_neg hplain]
  case isTrue hprefix =>
    rw [if_pos hprefix]
    have hquote := (Bool.and_eq_true_iff.mp hprefix).2
    split at h
    case h_2 => cases h
    case h_1 n hn =>
      obtain ⟨d, ds, rfl⟩ := List.exists_cons_of_ne_nil (l := after) (by rintro rfl; cases hn)
      rwa [literalTail?_append_of_getLast? rest hquote (by simpa using hend) hn]

/-- What stands at the front of a text that ends with a line feed still stands there when more
text follows. -/
theorem front_append_of_getLast? {c : Char} {cs : List Char} {r : Piece × Nat}
    (rest : List Char) (hend : cs.getLast? = some '\n') (h : front c cs = .ok r) :
    front c (cs ++ rest) = .ok r := by
  by_cases hword : startsName c = true
  · obtain ⟨tail, after, rfl, htail, hafter⟩ : ∃ tail after, cs = tail ++ after ∧
        (∀ d ∈ tail, continuesName d = true) ∧ ∀ d ∈ after.head?, continuesName d = false := by
      refine ⟨_, _, (List.takeWhile_append_dropWhile (p := continuesName)).symm,
        fun d hd => List.mem_takeWhile_imp hd, fun d hd => ?_⟩
      have := List.head?_dropWhile_not continuesName cs
      simpa [Option.mem_def.mp hd] using this
    rw [front_word hword htail hafter] at h
    -- a name cannot reach the line feed, so there is a character after it
    cases after with
    | nil =>
      rw [List.append_nil] at hend
      cases htail _ (List.mem_of_getLast? hend)
    | cons q after =>
      rw [List.append_assoc, List.cons_append, front_word hword htail (by simpa using hafter)]
      exact wordPiece_append_of_getLast? rest (getLast?_of_append hend (by simp)) h
  obtain ⟨d, ds, rfl⟩ := List.exists_cons_of_ne_nil (l := cs) (by rintro rfl; cases hend)
  have hhead : (d :: ds ++ rest).head? = (d :: ds).head? := rfl
  have hradix : startsRadix c (d :: ds ++ rest) = startsRadix c (d :: ds) := rfl
  unfold front at h ⊢
  dsimp only at h ⊢
  rw [if_neg hword] at h ⊢
  rw [takeWhile_append_of_getLast? rest hend rfl, hhead, hradix,
    numberTail_append_of_getLast? rest hend, operatorLength?_append_of_getLast? rest hend,
    isPrefixOf_append_of_length_le rest (show ['\n'].length ≤ (d :: ds).length by simp)]
  split at h
  case isTrue hblank => rwa [if_pos hblank]
  rw [if_neg ‹_›]
  split at h
  case isTrue hfeed => rwa [if_pos hfeed]
  rw [if_neg ‹_›]
  split at h
  case isTrue hcomment => rwa [if_pos hcomment]
  rw [if_neg ‹_›]
  split at h
  case isTrue hjoin =>
    rw [if_pos hjoin]
    split at h
    case isTrue hnext => rwa [if_pos hnext]
    case isFalse hnext =>
      rw [if_neg hnext]
      cases ds with
      | nil =>
        obtain rfl : d = '\n' := by simpa using hend
        cases hnext rfl
      | cons => rwa [isPrefixOf_append_of_length_le rest (by simp)]
  rw [if_neg ‹_›]
  split at h
  case isTrue hquote =>
    rw [if_pos hquote]
    split at h
    case h_1 n hn => rwa [literalTail?_append_of_getLast? rest hquote hend hn]
    case h_2 => cases h
  case isFalse hquote => rwa [if_neg hquote]

/-! ## Readings of a text that ends with a line feed -/

/-- Whether a text is empty or ends with a line feed. -/
def EndsFeed (cs : List Char) : Prop := cs = [] ∨ cs.getLast? = some '\n'

theorem EndsFeed.of_append {cs ds : List Char} (h : EndsFeed (cs ++ ds)) : EndsFeed ds := by
  by_cases hne : ds = []
  · exact .inl hne
  · rcases h with h | h
    · exact .inl (List.append_eq_nil_iff.mp h).2
    · exact .inr (getLast?_of_append h hne)

theorem EndsFeed.append {cs ds : List Char} (h : EndsFeed ds) (hne : ds ≠ []) :
    EndsFeed (cs ++ ds) :=
  .inr (by rw [List.getLast?_append_of_ne_nil cs hne, h.resolve_left hne])

theorem EndsFeed.getLast? {cs : List Char} (h : EndsFeed cs) (hne : cs ≠ []) :
    cs.getLast? = some '\n' :=
  h.resolve_left hne

theorem EndsFeed.eq_lineFeed {c : Char} (h : EndsFeed [c]) : c = '\n' := by
  simpa using h.getLast? (List.cons_ne_nil c [])

/-- Whether a text is empty or ends with a line feed that joins no lines. -/
def EndsLine (cs : List Char) : Prop :=
  cs = [] ∨ cs.getLast? = some '\n' ∧ ¬['\\', '\n'] <:+ cs ∧ ¬['\\', '\r', '\n'] <:+ cs

theorem EndsLine.endsFeed {cs : List Char} (h : EndsLine cs) : EndsFeed cs := h.imp_right And.left

theorem EndsLine.of_append {cs ds : List Char} (h : EndsLine (cs ++ ds)) : EndsLine ds := by
  by_cases hne : ds = []
  · exact .inl hne
  · rcases h with h | ⟨h, hjoin, hreturn⟩
    · exact .inl (List.append_eq_nil_iff.mp h).2
    · exact .inr ⟨getLast?_of_append h hne, fun h => hjoin (h.trans (List.suffix_append cs ds)),
        fun h => hreturn (h.trans (List.suffix_append cs ds))⟩

theorem Move.rest_ne_nil {p q : Place} {ts : List Token} (h : Move p ts q) : p.rest ≠ [] := by
  cases h with
  | skip | feed | lineEnd | token | commentLine => simp
  | emptyLine _ _ ends => rcases ends with rfl | rfl <;> simp
  | trailing _ hne => exact hne
  | enter atStart indented content =>
    intro hnil
    rw [(List.append_eq_nil_iff.mp hnil).2] at content
    cases content

theorem hasContent_append_of_endsFeed {cs : List Char} (rest : List Char) (hend : EndsFeed cs)
    (h : hasContent cs = true) : hasContent (cs ++ rest) = true := by
  cases cs with
  | nil => cases h
  | cons c cs =>
    obtain ⟨hblank, hfeed, hcomment, hreturn⟩ := hasContent_cons.mp h
    refine hasContent_cons.mpr ⟨hblank, hfeed, hcomment, fun after hc hafter => ?_⟩
    cases cs with
    | nil => exact hfeed hend.eq_lineFeed
    | cons d ds =>
      obtain ⟨rfl, -⟩ := List.cons.inj hafter
      exact hreturn ds hc rfl

theorem front_append_of_endsFeed {c : Char} {w after : List Char} {p : Piece}
    (rest : List Char) (hend : EndsFeed (c :: (w ++ after))) (hp : p ≠ .lineFeed)
    (h : front c (w ++ after) = .ok (p, w.length)) :
    front c (w ++ (after ++ rest)) = .ok (p, w.length) := by
  rw [← List.append_assoc]
  have hsplit : EndsFeed ([c] ++ (w ++ after)) := hend
  rcases hsplit.of_append with hnil | hafter
  · obtain rfl := EndsFeed.eq_lineFeed ((show w ++ after = [] from hnil) ▸ hend)
    exact absurd (Prod.mk.inj (Except.ok.inj h)).1.symm hp
  · exact front_append_of_getLast? rest hafter h

/-- A move over a part of a text that ends with a line feed does not look at what comes after
the text. -/
theorem Move.append {p q : Place} {ts : List Token} (h : Move p ts q) (hend : EndsFeed p.rest)
    (rest : List Char) :
    Move ⟨p.state, p.offset, p.rest ++ rest⟩ ts ⟨q.state, q.offset, q.rest ++ rest⟩ := by
  cases h with
  | skip inside reads =>
    simpa using Move.skip inside (front_append_of_endsFeed rest hend nofun reads)
  | feed inBrackets => exact .feed inBrackets
  | lineEnd inside closed => exact .lineEnd inside closed
  | token inside reads balance =>
    simpa using Move.token inside (front_append_of_endsFeed rest hend nofun reads) balance
  | emptyLine atStart indented ends =>
    simpa using Move.emptyLine atStart indented ends
  | @commentLine st offset blanks w after atStart indented ends =>
    have hafter : (w ++ after).getLast? = some '\n' := by
      have hcomment : EndsFeed (['#'] ++ (w ++ after)) := EndsFeed.of_append hend
      refine hcomment.of_append.getLast? fun hnil => ?_
      rw [hnil] at hcomment
      cases hcomment.eq_lineFeed
    have hmore : ((w ++ (after ++ rest)).takeWhile (· ≠ '\n')).length = w.length := by
      rw [← List.append_assoc, takeWhile_append_of_getLast? rest hafter rfl, ends]
    simpa using @Move.commentLine st offset _ _ _ atStart indented hmore
  | trailing atStart hne indented =>
    cases indented _ (List.mem_of_getLast? (hend.getLast? hne))
  | enter atStart indented content enters =>
    rw [List.append_assoc]
    exact .enter atStart indented (hasContent_append_of_endsFeed rest hend.of_append content) enters

theorem Reads.append {p q : Place} {ts : List Token} (h : Reads p ts q) (hend : EndsFeed p.rest)
    (rest : List Char) :
    Reads ⟨p.state, p.offset, p.rest ++ rest⟩ ts ⟨q.state, q.offset, q.rest ++ rest⟩ := by
  induction h with
  | refl => exact .refl _
  | step move _ ih =>
    obtain ⟨w, hw, -⟩ := move.rest_eq
    exact .step (move.append hend rest) (ih (EndsFeed.of_append (hw ▸ hend)))

/-! ## Where such a reading ends -/

theorem shortLiteralTail?_getLast? {quote : Char} {w rest : List Char}
    (h : shortLiteralTail? quote (w ++ rest) = some w.length) : w.getLast? = some quote := by
  induction w using escaped_induction with
  | nil =>
    have := (shortLiteralTail?_bounds h).1
    simp at this
  | lone =>
    cases rest with
    | nil => simp [shortLiteralTail?] at h
    | cons c rest => simp [shortLiteralTail?] at h
  | escape c w ih =>
    obtain ⟨m, hm, hlength⟩ := Option.map_eq_some_iff.mp h
    obtain rfl : m = w.length := by simp only [List.length_cons] at hlength; omega
    rw [List.getLast?_cons, List.getLast?_cons, ih hm]
    rfl
  | plain c w hc ih =>
    rw [List.cons_append, shortLiteralTail?_cons quote _ hc] at h
    split at h
    case isTrue hquote =>
      obtain rfl : w = [] := List.eq_nil_of_length_eq_zero (by simpa using h.symm)
      simp [hquote]
    case isFalse =>
      split at h
      case isTrue => cases h
      case isFalse =>
        obtain ⟨m, hm, hlength⟩ := Option.map_eq_some_iff.mp h
        obtain rfl : m = w.length := by simp only [List.length_cons] at hlength; omega
        rw [List.getLast?_cons, ih hm]
        rfl

/-- A literal between three quotes ends with three of them. -/
theorem exists_of_longLiteralTail? {quote : Char} {w rest : List Char}
    (h : longLiteralTail? quote (w ++ rest) = some w.length) :
    ∃ inner, w = inner ++ [quote, quote, quote] := by
  induction w using escaped_induction with
  | nil =>
    have := (longLiteralTail?_bounds h).1
    simp at this
  | lone =>
    have := (longLiteralTail?_bounds h).1
    simp at this
  | escape c w ih =>
    obtain ⟨m, hm, hlength⟩ := Option.map_eq_some_iff.mp h
    obtain rfl : m = w.length := by simp only [List.length_cons] at hlength; omega
    obtain ⟨inner, rfl⟩ := ih hm
    exact ⟨'\\' :: c :: inner, rfl⟩
  | plain c w hc ih =>
    rw [List.cons_append, longLiteralTail?_cons quote _ hc] at h
    split at h
    case isTrue hclose =>
      have htwo : w.length = 2 := by simpa using h.symm
      rw [Bool.and_eq_true, isPrefixOf_append_of_length_le _ (by simp [htwo]),
        List.isPrefixOf_iff_prefix, decide_eq_true_eq] at hclose
      obtain ⟨rfl, hclose⟩ := hclose
      exact ⟨[], by rw [← hclose.eq_of_length (by simp [htwo])]; rfl⟩
    case isFalse =>
      obtain ⟨m, hm, hlength⟩ := Option.map_eq_some_iff.mp h
      obtain rfl : m = w.length := by simp only [List.length_cons] at hlength; omega
      obtain ⟨inner, rfl⟩ := ih hm
      exact ⟨c :: inner, rfl⟩

/-- A literal ends with the quotes that it begins with. -/
theorem exists_of_literalTail? {quote : Char} {w rest : List Char}
    (h : literalTail? quote (w ++ rest) = some w.length) :
    if [quote, quote].isPrefixOf (w ++ rest) then
      ∃ inner, w = quote :: quote :: (inner ++ [quote, quote, quote])
    else ∃ inner, w = inner ++ [quote] := by
  unfold literalTail? at h
  split
  case isTrue hlong =>
    rw [if_pos hlong] at h
    obtain ⟨m, hm, hlength⟩ := Option.map_eq_some_iff.mp h
    obtain ⟨a, b, w, rfl⟩ : ∃ a b w', w = a :: b :: w' := by
      match w, hlength with
      | a :: b :: w, _ => exact ⟨a, b, w, rfl⟩
    obtain rfl : m = w.length := by simp only [List.length_cons] at hlength; omega
    obtain ⟨inner, rfl⟩ := exists_of_longLiteralTail? hm
    obtain ⟨rfl, hb⟩ : quote = a ∧ quote = b := by simpa [List.isPrefixOf] using hlong
    exact ⟨inner, by rw [← hb]⟩
  case isFalse hshort =>
    rw [if_neg hshort] at h
    exact List.getLast?_eq_some_iff.mp (shortLiteralTail?_getLast? h)

theorem literalTail?_getLast? {quote : Char} {w rest : List Char}
    (h : literalTail? quote (w ++ rest) = some w.length) : w.getLast? = some quote := by
  have hends := exists_of_literalTail? h
  split at hends
  · obtain ⟨inner, rfl⟩ := hends
    simp [List.getLast?_cons]
  · obtain ⟨inner, rfl⟩ := hends
    simp

theorem not_mem_of_numberTail {hasRadix : Bool} {last : Char} {w rest : List Char}
    (h : numberTail hasRadix last (w ++ rest) = w.length) : '\n' ∉ w := by
  induction w generalizing last with
  | nil => simp
  | cons c w ih =>
    rw [List.cons_append, numberTail_cons] at h
    split at h
    case isFalse => simp at h
    case isTrue hjoins =>
      refine List.not_mem_cons_of_ne_of_not_mem ?_ (ih (by simpa using h))
      rintro rfl
      cases hjoins

theorem not_mem_of_operatorLength? {c : Char} {w rest : List Char}
    (h : operatorLength? c (w ++ rest) = some (w.length + 1)) : '\n' ∉ w := by
  have hlong : ∀ op ∈ longOperators, op.length = 3 ∧ '\n' ∉ op := by decide
  have hmedium : ∀ op ∈ mediumOperators, op.length = 2 ∧ '\n' ∉ op := by decide
  have hfound : ∀ {ops : List (List Char)}, (∀ op ∈ ops, op.length = w.length + 1 ∧ '\n' ∉ op) →
      (ops.any fun op => op.isPrefixOf (c :: (w ++ rest))) = true → '\n' ∉ w := by
    intro ops hops hany hmem
    obtain ⟨op, hop, hprefix⟩ := List.any_eq_true.mp hany
    have hsame : op = c :: w := by
      refine (List.prefix_of_prefix_length_le (List.isPrefixOf_iff_prefix.mp hprefix)
        (List.prefix_append (c :: w) rest) ?_).eq_of_length ?_
      · simp [(hops op hop).1]
      · simp [(hops op hop).1]
    exact (hops op hop).2 (hsame ▸ List.mem_cons_of_mem c hmem)
  unfold operatorLength? at h
  split at h
  case isTrue hany =>
    have hlength : 3 = w.length + 1 := Option.some.inj h
    exact hfound (hlength ▸ hlong) hany
  split at h
  case isTrue hany =>
    have hlength : 2 = w.length + 1 := Option.some.inj h
    exact hfound (hlength ▸ hmedium) hany
  split at h
  case isTrue =>
    obtain rfl : w = [] := List.eq_nil_of_length_eq_zero (by simpa using h.symm)
    simp
  case isFalse => cases h

theorem getLast?_ne_of_not_mem {c : Char} {w : List Char} (hc : c ≠ '\n') (hw : '\n' ∉ w) :
    (c :: w).getLast? ≠ some '\n' := fun hlast =>
  (List.mem_cons.mp (List.mem_of_getLast? hlast)).elim (fun h => hc h.symm) hw

/-- A literal with a prefix is the prefix, the quote and what the quote begins. -/
theorem exists_body_of_prefixed {p : Char → Bool} {w rest after : List Char} {q : Char} {n : Nat}
    (hafter : (w ++ rest).drop ((w ++ rest).takeWhile p).length = q :: after)
    (hn : w.length = ((w ++ rest).takeWhile p).length + 1 + n) :
    ∃ body, w = (w ++ rest).takeWhile p ++ q :: body ∧ after = body ++ rest ∧ n = body.length := by
  obtain ⟨more, hmore⟩ := List.takeWhile_prefix (l := w ++ rest) p
  generalize (w ++ rest).takeWhile p = tail at *
  obtain rfl : more = q :: after := by rwa [← hmore, List.drop_left] at hafter
  have htext : tail ++ [q] <+: w ++ rest := ⟨after, by simp [← hmore]⟩
  obtain ⟨body, rfl⟩ := List.prefix_of_prefix_length_le htext (List.prefix_append w _)
    (by simp only [List.length_append, List.length_singleton]; omega)
  refine ⟨body, by simp, by simpa using hmore, ?_⟩
  simp only [List.length_append, List.length_singleton] at hn
  omega

/-- No token ends with a line feed. -/
theorem getLast?_ne_of_front {c : Char} {w rest : List Char} {kind : TokenKind}
    (h : front c (w ++ rest) = .ok (.token kind, w.length)) : (c :: w).getLast? ≠ some '\n' := by
  have hplain : '\n' ∉ w → (c :: w).getLast? ≠ some '\n' :=
    getLast?_ne_of_not_mem (ne_lineFeed_of_front h)
  have hquoted : ∀ {q : Char}, isQuote q = true → w.getLast? = some q →
      (c :: w).getLast? ≠ some '\n' := fun hquote hw hlast => by
    rw [List.getLast?_cons, hw] at hlast
    cases hlast
    cases hquote
  generalize hn : w.length = n at h
  generalize hcs : w ++ rest = cs at h
  generalize hp : Piece.token kind = p at h
  cases front_cases h with
  | blank | lineFeed | comment | join | joinReturn => cases hp
  | literal hquote htail => exact hquoted hquote (literalTail?_getLast? (hcs ▸ hn ▸ htail))
  | number => exact hplain (not_mem_of_numberTail (by rw [hcs, hn]))
  | name =>
    refine hplain fun hmem => ?_
    cases (length_takeWhile_append.mp (by rw [hcs, hn])).1 '\n' hmem
  | prefixed hc hquote hafter htail =>
    obtain ⟨body, hw, rfl, rfl⟩ := exists_body_of_prefixed (hcs ▸ hafter) (hcs ▸ hn)
    have hlast := literalTail?_getLast? htail
    refine hquoted hquote ?_
    rw [hw, List.getLast?_append_of_ne_nil _ (List.cons_ne_nil _ _), List.getLast?_cons, hlast]
    rfl
  | operator hlength => exact hplain (not_mem_of_operatorLength? (by rw [hcs, hn, hlength]))

/-- What holds of the line state of every reading: where a line is about to start no bracket is
open and the line before it has ended, and the width of every block is positive. -/
structure State.Regular (st : State) : Prop where
  brackets : st.atLineStart = true → st.brackets = []
  lineOpen : st.atLineStart = true → st.lineOpen = false
  indents : ∀ w ∈ st.indents, 0 < w

theorem regular_initial : State.initial.Regular := ⟨fun _ => rfl, fun _ => rfl, by simp [State.initial]⟩

theorem Move.regular {p q : Place} {ts : List Token} (h : Move p ts q)
    (hp : p.state.Regular) : q.state.Regular := by
  cases h with
  | skip | feed | emptyLine => exact hp
  | lineEnd inside closed => exact ⟨fun _ => closed, fun _ => rfl, hp.indents⟩
  | token inside =>
    have hbegun := State.Coherent.atLineStart_eq hp.brackets inside
    refine ⟨fun hstart => ?_, fun hstart => ?_, hp.indents⟩ <;>
      cases hbegun.symm.trans hstart
  | commentLine | trailing => exact ⟨nofun, nofun, hp.indents⟩
  | enter atStart indented content enters =>
    cases enterLine_cases enters with
    | deeper hdeeper => 
      exact ⟨nofun, nofun, List.forall_mem_cons.mpr ⟨Nat.lt_of_le_of_lt (Nat.zero_le _) hdeeper, hp.indents⟩⟩
    | back hindents => 
      exact ⟨nofun, nofun, fun w hw => hp.indents w (hindents ▸ List.mem_append_right _ hw)⟩
    | level => exact ⟨nofun, nofun, hp.indents⟩

theorem Reads.regular {p q : Place} {ts : List Token} (h : Reads p ts q)
    (hp : p.state.Regular) : q.state.Regular := by
  induction h with
  | refl => exact hp
  | step move _ ih => exact ih (move.regular hp)

theorem Reads.eq_of_nil {p q : Place} {ts : List Token} (h : Reads p ts q) (hp : p.rest = []) :
    q = p := by
  cases h with
  | refl => rfl
  | step move => exact absurd hp move.rest_ne_nil

theorem not_mem_of_takeWhile {w rest : List Char}
    (h : ((w ++ rest).takeWhile (· ≠ '\n')).length = w.length) : '\n' ∉ w := fun hmem => by
  cases (length_takeWhile_append.mp h).1 '\n' hmem

/-- White space, a comment or a joined line is no end of a line. -/
theorem not_endsLine_of_skipped {c : Char} {w : List Char}
    (h : front c (w ++ []) = .ok (.skipped, w.length)) : ¬EndsLine (c :: (w ++ [])) := by
  intro hend
  have hlast := hend.endsFeed.getLast? (List.cons_ne_nil c _)
  rw [List.append_nil] at h hend hlast
  generalize hn : w.length = n at h
  cases front_cases h with
  | blank hblank =>
    obtain rfl := List.eq_nil_of_length_eq_zero hn
    rw [hend.endsFeed.eq_lineFeed] at hblank
    revert hblank
    decide
  | comment =>
    refine getLast?_ne_of_not_mem (by decide) (@not_mem_of_takeWhile w [] ?_) hlast
    rw [List.append_nil, hn]
  | join =>
    obtain rfl := List.eq_nil_of_length_eq_zero (Nat.succ.inj hn)
    exact (hend.resolve_left (List.cons_ne_nil _ _)).2.1 (List.suffix_refl _)
  | joinReturn =>
    obtain rfl := List.eq_nil_of_length_eq_zero (Nat.succ.inj (Nat.succ.inj hn))
    exact (hend.resolve_left (List.cons_ne_nil _ _)).2.2 (List.suffix_refl _)

/-- The last move over a text that ends with a line feed ends a line. -/
theorem Move.atLineStart {p q : Place} {ts : List Token} (h : Move p ts q)
    (hend : EndsLine p.rest) (hq : q.rest = []) (hclosed : q.state.brackets = []) :
    q.state.atLineStart = true := by
  have hlast := hend.endsFeed.getLast? h.rest_ne_nil
  cases h with
  | @skip st offset c w rest inside reads =>
    subst hq
    exact absurd hend (not_endsLine_of_skipped reads)
  | feed inBrackets => exact absurd hclosed inBrackets
  | lineEnd => rfl
  | token inside reads =>
    subst hq
    exact absurd (by simpa using hlast) (getLast?_ne_of_front reads)
  | emptyLine atStart =>
    simp [State.isInside] at atStart
    exact atStart.1
  | @commentLine st offset blanks w rest atStart indented ends =>
    subst hq
    rw [List.append_nil, List.getLast?_append_of_ne_nil _ (by simp)] at hlast
    exact absurd hlast (getLast?_ne_of_not_mem (by decide) (not_mem_of_takeWhile ends))
  | trailing atStart hne indented => cases indented _ (List.mem_of_getLast? hlast)
  | enter atStart indented content =>
    subst hq
    cases content

/-- A reading of such a text ends where a line is about to start. -/
theorem Reads.atLineStart {p q : Place} {ts : List Token} (h : Reads p ts q)
    (hend : EndsLine p.rest) (hp : p.rest = [] → p.state.atLineStart = true) (hq : q.rest = [])
    (hclosed : q.state.brackets = []) : q.state.atLineStart = true := by
  induction h with
  | refl => exact hp hq
  | step move reads ih =>
    obtain ⟨w, hw, -⟩ := move.rest_eq
    refine ih (EndsLine.of_append (hw ▸ hend)) (fun hnil => ?_) hq hclosed
    exact move.atLineStart hend hnil (reads.eq_of_nil hnil ▸ hclosed)

end WorkflowAudit.Script.Lexer
