import WorkflowAudit.Proofs.Script.Reading

/-!
# Cutting readings and joining them to other texts

A reading is cut before and after any token that stands for text. Up to such a cut it does not
depend on what follows, as long as no name or number ends there: so the text after it may be
replaced, and what is read before it stays the same but for its offsets.
-/

namespace WorkflowAudit.Script.Lexer

open Text

/-! ## Offsets -/

theorem Move.rest_eq {p q : Place} {ts : List Token} (h : Move p ts q) :
    ∃ w, p.rest = w ++ q.rest ∧ q.offset = p.offset + byteLength w := by
  cases h with
  | @skip st offset c w rest => exact ⟨c :: w, rfl, rfl⟩
  | feed => exact ⟨['\n'], rfl, rfl⟩
  | lineEnd => exact ⟨['\n'], rfl, rfl⟩
  | @token st offset c w rest => exact ⟨c :: w, rfl, rfl⟩
  | @emptyLine st offset blanks feed rest => exact ⟨blanks ++ feed, by simp, rfl⟩
  | @commentLine st offset blanks w rest => exact ⟨blanks ++ '#' :: w, by simp, rfl⟩
  | @trailing st offset blanks => exact ⟨blanks, by simp, rfl⟩
  | @enter st st' offset blanks => exact ⟨blanks, rfl, rfl⟩

theorem Reads.rest_eq {p q : Place} {ts : List Token} (h : Reads p ts q) :
    ∃ w, p.rest = w ++ q.rest ∧ q.offset = p.offset + byteLength w := by
  induction h with
  | refl => exact ⟨[], rfl, rfl⟩
  | step move _ ih =>
    obtain ⟨w, hrest, hoffset⟩ := move.rest_eq
    obtain ⟨w', hrest', hoffset'⟩ := ih
    exact ⟨w ++ w', by rw [hrest, hrest', List.append_assoc],
      by rw [hoffset', hoffset, byteLength_append, Nat.add_assoc]⟩

theorem Reads.offset_le {p q : Place} {ts : List Token} (h : Reads p ts q) :
    p.offset ≤ q.offset := by
  obtain ⟨w, -, hoffset⟩ := h.rest_eq
  omega

/-- What entering a line writes stands where its content begins. -/
theorem span_of_enterLine {st st' : State} {column offset : Nat} {written : List Token}
    (h : enterLine st column offset = .ok (st', written)) :
    ∀ t ∈ written, t.span = .point offset ∧ t.kind.isLexical = false := by
  cases enterLine_cases h <;> simp [TokenKind.isLexical]

theorem Move.spans {p q : Place} {ts : List Token} (h : Move p ts q) :
    (∀ t ∈ ts, p.offset ≤ t.span.start ∧ t.span.start ≤ t.span.stop ∧ t.span.stop ≤ q.offset ∧
      (t.kind.isLexical = true → t.span.start < t.span.stop)) ∧
      ts.Pairwise fun t u => t.span.stop ≤ u.span.start := by
  cases h with
  | skip | feed | emptyLine | commentLine | trailing => simp
  | @lineEnd st offset rest =>
    unfold lineEnding
    split <;> simp [TokenKind.isLexical]
  | @token st offset c w rest kind brackets =>
    have hpos := byteLength_pos (List.cons_ne_nil c w)
    simp only [List.mem_singleton, forall_eq, tokenAt, List.pairwise_singleton, and_true]
    omega
  | @enter st st' offset blanks rest written atStart indented content enters =>
    have hspans := span_of_enterLine enters
    refine ⟨fun t ht => ?_, ?_⟩
    · obtain ⟨hspan, hkind⟩ := hspans t ht
      simp only [hspan, hkind, Span.point]
      refine ⟨by omega, by omega, by omega, ?_⟩
      intro h
      cases h
    · refine List.pairwise_of_forall_mem_list fun t ht u hu => ?_
      rw [(hspans t ht).1, (hspans u hu).1]
      exact Nat.le_refl _

/-- A move writes its tokens where it ends. -/
theorem Move.stop_eq {p q : Place} {ts : List Token} (h : Move p ts q) :
    ∀ t ∈ ts, t.span.stop = q.offset := by
  cases h with
  | skip | feed | emptyLine | commentLine | trailing => simp
  | @lineEnd st offset rest =>
    unfold lineEnding
    split <;> simp
  | token => simp [tokenAt]
  | enter atStart indented content enters =>
    intro t ht
    rw [(span_of_enterLine enters t ht).1]
    rfl

/-- The tokens of a reading lie between its places, one after another. -/
theorem Reads.spans {p q : Place} {ts : List Token} (h : Reads p ts q) :
    (∀ t ∈ ts, p.offset ≤ t.span.start ∧ t.span.start ≤ t.span.stop ∧ t.span.stop ≤ q.offset ∧
      (t.kind.isLexical = true → t.span.start < t.span.stop)) ∧
      ts.Pairwise fun t u => t.span.stop ≤ u.span.start := by
  induction h with
  | refl => simp
  | step move reads ih =>
    obtain ⟨hmove, hmovePairs⟩ := move.spans
    obtain ⟨hreads, hreadsPairs⟩ := ih
    have hle := reads.offset_le
    have hle' := move.reads.offset_le
    refine ⟨fun t ht => ?_, List.pairwise_append.mpr ⟨hmovePairs, hreadsPairs, fun t ht u hu => ?_⟩⟩
    · rcases List.mem_append.mp ht with ht | ht
      · obtain ⟨hstart, hspan, hstop, hlexical⟩ := hmove t ht
        exact ⟨hstart, hspan, by omega, hlexical⟩
      · obtain ⟨hstart, hspan, hstop, hlexical⟩ := hreads t ht
        exact ⟨by omega, hspan, hstop, hlexical⟩
    · have := (hmove t ht).2.2.1
      have := (hreads u hu).1
      omega

/-! ## Cuts -/

theorem Move.eq_singleton {p q : Place} {ts : List Token} {t : Token} (h : Move p ts q)
    (ht : t ∈ ts) (hlexical : t.kind.isLexical = true) : ts = [t] := by
  cases h with
  | skip | feed | emptyLine | commentLine | trailing => cases ht
  | lineEnd =>
    unfold lineEnding at ht
    split at ht
    · rw [List.mem_singleton] at ht
      subst ht
      cases hlexical
    · cases ht
  | token =>
    rw [List.mem_singleton] at ht
    rw [ht]
  | enter atStart indented content enters =>
    rw [(span_of_enterLine enters t ht).2] at hlexical
    cases hlexical

/-- The end of a line is the only token that its move writes. -/
theorem Move.eq_singleton_of_newline {p q : Place} {ts : List Token} {t : Token} (h : Move p ts q)
    (ht : t ∈ ts) (hkind : t.kind = .newline) : ts = [t] := by
  cases h with
  | skip | feed | emptyLine | commentLine | trailing => cases ht
  | lineEnd =>
    unfold lineEnding at ht ⊢
    split at ht
    case isTrue hopen => rw [if_pos hopen, List.mem_singleton.mp ht]
    case isFalse => cases ht
  | token => rw [List.mem_singleton.mp ht]
  | enter atStart indented content enters =>
    cases enterLine_cases enters with
    | deeper => cases hkind.symm.trans (congrArg Token.kind (List.mem_singleton.mp ht))
    | back =>
      obtain ⟨_, -, rfl⟩ := List.mem_map.mp ht
      cases hkind
    | level => cases ht

/-- A reading can be cut just before and just after a token that is written alone. -/
theorem Reads.cut_of_alone {p q : Place} {before after : List Token} {t : Token}
    (h : Reads p (before ++ t :: after) q)
    (alone : ∀ {m m' : Place} {ts : List Token}, Move m ts m' → t ∈ ts → ts = [t]) :
    ∃ m m', Reads p before m ∧ Move m [t] m' ∧ Reads m' after q := by
  generalize hall : before ++ t :: after = all at h
  induction h generalizing before with
  | refl => simp at hall
  | @step p m q ts us move reads ih =>
    rcases List.append_eq_append_iff.mp hall with ⟨excess, hts, hrest⟩ | ⟨excess, hbefore, hus⟩
    · cases excess with
      | nil =>
        rw [List.append_nil] at hts
        obtain ⟨m₁, m₂, hread, hmove, hafter⟩ := @ih [] (by simpa using hrest)
        refine ⟨m₁, m₂, ?_, hmove, hafter⟩
        rw [← hts]
        simpa using Reads.step move hread
      | cons u excess =>
        obtain ⟨rfl, hafter⟩ := List.cons.inj hrest
        have hsingle := alone move (by rw [hts]; simp)
        obtain ⟨rfl, rfl⟩ : before = [] ∧ excess = [] := by
          have hlength := congrArg List.length (hts.symm.trans hsingle)
          simp only [List.length_append, List.length_cons, List.length_nil] at hlength
          exact ⟨List.eq_nil_of_length_eq_zero (by omega),
            List.eq_nil_of_length_eq_zero (by omega)⟩
        rw [hts] at move
        exact ⟨p, m, .refl p, move, hafter ▸ reads⟩
    · obtain ⟨m₁, m₂, hread, hmove, hafter⟩ := ih hus.symm
      exact ⟨m₁, m₂, hbefore ▸ .step move hread, hmove, hafter⟩

/-- A reading can be cut just before and just after a token that stands for text. -/
theorem Reads.cut {p q : Place} {before after : List Token} {t : Token}
    (h : Reads p (before ++ t :: after) q) (hlexical : t.kind.isLexical = true) :
    ∃ m m', Reads p before m ∧ Move m [t] m' ∧ Reads m' after q :=
  h.cut_of_alone fun move ht => move.eq_singleton ht hlexical

/-- A reading can be cut at the end of a line. -/
theorem Reads.cut_line {p q : Place} {before after : List Token} {t : Token}
    (h : Reads p (before ++ t :: after) q) (hkind : t.kind = .newline) :
    ∃ m m', Reads p before m ∧ Move m [t] m' ∧ Reads m' after q :=
  h.cut_of_alone fun move ht => move.eq_singleton_of_newline ht hkind

/-! ## Replacing what follows -/

theorem enterLine_offset {st st' : State} {column offset : Nat} {written : List Token}
    (h : enterLine st column offset = .ok (st', written)) (offset' : Nat) :
    ∃ written', enterLine st column offset' = .ok (st', written') ∧
      written'.map Token.lexeme = written.map Token.lexeme := by
  unfold enterLine at h ⊢
  dsimp only at h ⊢
  split at h
  case isTrue hdeeper =>
    cases h
    rw [if_pos hdeeper]
    exact ⟨_, rfl, rfl⟩
  case isFalse hdeeper =>
    rw [if_neg hdeeper]
    split at h
    case isTrue hcloses =>
      rw [if_pos hcloses]
      split at h
      case isTrue houter =>
        cases h
        rw [if_pos houter]
        exact ⟨_, rfl, by simp [Token.lexeme]⟩
      case isFalse => cases h
    case isFalse hcloses =>
      cases h
      rw [if_neg hcloses]
      exact ⟨_, rfl, rfl⟩

theorem hasContent_of_beginsWord {y : Char} (rest : List Char) (hy : beginsWord y = true) :
    hasContent (y :: rest) = true := by
  have hne := ne_of_beginsWord hy
  have hblank : isIndentation y = false := by
    simp [isIndentation, hne ' ' (by decide), hne '\t' (by decide), hne '\x0c' (by decide)]
  exact hasContent_cons.mpr ⟨hblank, hne '\n' (by decide), hne '#' (by decide),
    fun _ hreturn => absurd hreturn (hne '\r' (by decide))⟩

theorem hasContent_append_cons {m : Char} {mid rest rest' : List Char}
    (hfeed : rest'.head? ≠ some '\n') (h : hasContent (m :: mid ++ rest) = true) :
    hasContent (m :: mid ++ rest') = true := by
  obtain ⟨hblank, hline, hcomment, hreturn⟩ := hasContent_cons.mp h
  refine hasContent_cons.mpr ⟨hblank, hline, hcomment, fun after hm hafter => ?_⟩
  cases mid with
  | nil => exact hfeed (congrArg List.head? hafter)
  | cons d mid =>
    obtain ⟨rfl, -⟩ := List.cons.inj hafter
    exact hreturn (mid ++ rest) hm rfl

theorem hasContent_append {x y : Char} {mid rest : List Char} (rest' : List Char)
    (hy : breaks y = true) (hword : mid = [] → beginsWord y = true)
    (h : hasContent (mid ++ x :: rest) = true) : hasContent (mid ++ y :: rest') = true := by
  cases mid with
  | nil => exact hasContent_of_beginsWord rest' (hword rfl)
  | cons m mid =>
    exact hasContent_append_cons (fun hhead => ne_lineFeed_of_breaks hy (Option.some.inj hhead)) h

/-- What a text may be replaced by without a change of a move that ends before it: each piece of
    a class in `pieces` that ended there still ends there, and so does a comment, and a line
    still has content. -/
structure Interchange (pieces : Piece → Prop) (rest rest' : List Char) : Prop where
  front : ∀ {c w p}, pieces p → front c (w ++ rest) = .ok (p, w.length) →
    front c (w ++ rest') = .ok (p, w.length)
  comment : ∀ {w : List Char}, ((w ++ rest).takeWhile (· ≠ '\n')).length = w.length →
    ((w ++ rest').takeWhile (· ≠ '\n')).length = w.length
  content : hasContent rest = true → hasContent rest' = true
  empty : rest = [] → rest' = []

theorem Interchange.refl (pieces : Piece → Prop) (rest : List Char) :
    Interchange pieces rest rest :=
  ⟨fun _ h => h, id, id, id⟩

/-- From some place on a text that begins with a blank may come, or one that begins with a word if
    there was no line feed just there. -/
theorem Interchange.breaks {x y : Char} (mid rest rest' : List Char) (hx : mid = [] → x ≠ '\n')
    (hy : breaks y = true) (hword : mid = [] → beginsWord y = true) :
    Interchange (fun p => mid = [] → p.endsBefore y = true) (mid ++ x :: rest)
      (mid ++ y :: rest') where
  front hp h := front_append rest' hx hy hp h
  comment h := front_comment_append _ (fun hnil => ⟨x, rfl, hx hnil⟩) h
  content h := hasContent_append rest' hy hword h
  empty h := by simp at h

/-- Beyond some place any text may come that goes on no operator and no exponent and ends no line. -/
theorem Interchange.beyond {mid rest' : List Char} (rest : List Char) (hmid : mid ≠ [])
    (hrest' : Detached rest') (hfeed : rest'.head? ≠ some '\n') :
    Interchange (fun _ => True) (mid ++ rest) (mid ++ rest') where
  front _ h := front_replace hrest' (fun hnil => absurd hnil hmid) h
  comment h := front_comment_append rest' (fun hnil => absurd hnil hmid) h
  content h := by
    obtain ⟨m, mid, rfl⟩ := List.exists_cons_of_ne_nil hmid
    exact hasContent_append_cons hfeed h
  empty h := absurd (List.append_eq_nil_iff.mp h).1 hmid

theorem Move.interchange {p q : Place} {ts : List Token} {u rest' : List Char}
    {pieces : Piece → Prop} (h : Move p ts q) (hrest : Interchange pieces q.rest rest')
    (offset : Nat) (hp : p.rest = u ++ q.rest) (hskipped : pieces .skipped)
    (htokens : ∀ t ∈ ts, pieces (.token t.kind)) :
    ∃ ts', Move ⟨p.state, offset, u ++ rest'⟩ ts' ⟨q.state, offset + byteLength u, rest'⟩ ∧
      ts'.map Token.lexeme = ts.map Token.lexeme ∧ (offset = p.offset → ts' = ts) := by
  cases h with
  | @skip st o c w rest inside reads =>
    obtain rfl : u = c :: w := List.append_cancel_right hp.symm
    exact ⟨[], .skip inside (hrest.front hskipped reads), rfl, fun _ => rfl⟩
  | @feed st o rest inBrackets =>
    obtain rfl : u = ['\n'] := List.append_cancel_right hp.symm
    exact ⟨[], .feed inBrackets, rfl, fun _ => rfl⟩
  | @lineEnd st o rest inside closed =>
    obtain rfl : u = ['\n'] := List.append_cancel_right hp.symm
    refine ⟨_, .lineEnd inside closed, ?_, fun h => h ▸ rfl⟩
    unfold lineEnding
    split <;> rfl
  | @token st o c w rest kind brackets inside reads balance =>
    obtain rfl : u = c :: w := List.append_cancel_right hp.symm
    have hfront := hrest.front (htokens _ (List.mem_singleton_self _)) reads
    exact ⟨_, .token inside hfront balance, rfl, fun h => h ▸ rfl⟩
  | @emptyLine st o blanks feed rest atStart indented ends =>
    obtain rfl : u = blanks ++ feed :=
      List.append_cancel_right (hp.symm.trans (List.append_assoc _ _ _).symm)
    refine ⟨[], ?_, rfl, fun _ => rfl⟩
    rw [List.append_assoc]
    exact .emptyLine atStart indented ends
  | @commentLine st o blanks w rest atStart indented ends =>
    obtain rfl : u = blanks ++ '#' :: w := by
      refine List.append_cancel_right (hp.symm.trans ?_)
      simp
    refine ⟨[], ?_, rfl, fun _ => rfl⟩
    have hmove : Move ⟨st, offset, blanks ++ ('#' :: w ++ rest')⟩ _ _ :=
      .commentLine atStart indented (hrest.comment ends)
    simpa using hmove
  | @trailing st o blanks atStart hne indented =>
    obtain rfl : u = blanks := by simpa using hp.symm
    obtain rfl := hrest.empty rfl
    exact ⟨[], by simpa using Move.trailing atStart hne indented, rfl, fun _ => rfl⟩
  | @enter st st' o blanks rest ts atStart indented content enters =>
    obtain rfl : u = blanks := List.append_cancel_right hp.symm
    obtain ⟨ts', henters, hlexemes⟩ := enterLine_offset enters (offset + byteLength u)
    refine ⟨ts', .enter atStart indented (hrest.content content) henters, hlexemes, ?_⟩
    rintro rfl
    exact (Prod.mk.inj (Except.ok.inj (henters.symm.trans enters))).2

/-- A reading does not depend on the offset at which it begins. -/
theorem Reads.shift {p q : Place} {ts : List Token} (h : Reads p ts q) (offset : Nat) :
    ∃ ts' offset', Reads ⟨p.state, offset, p.rest⟩ ts' ⟨q.state, offset', q.rest⟩ ∧
      ts'.map Token.lexeme = ts.map Token.lexeme := by
  induction h generalizing offset with
  | refl p => exact ⟨[], offset, .refl _, rfl⟩
  | @step p m q ts us move reads ih =>
    obtain ⟨w, hw, -⟩ := move.rest_eq
    obtain ⟨ts', hmove, hlexemes, -⟩ := move.interchange (.refl (fun _ => True) m.rest) offset hw
      trivial (fun _ _ => trivial)
    obtain ⟨us', offset', hreads, hlexemes'⟩ := ih (offset + byteLength w)
    rw [← hw] at hmove
    exact ⟨ts' ++ us', offset', .step hmove hreads,
      by rw [List.map_append, List.map_append, hlexemes, hlexemes']⟩

/-- What is read up to a place does not change with the text behind it, as long as no move before it
does. -/
theorem Reads.interchange {p q : Place} {ts : List Token} {u rest' : List Char}
    {pieces : List Char → Piece → Prop} (h : Reads p ts q) (offset : Nat) (hp : p.rest = u ++ q.rest)
    (hrest : ∀ w, Interchange (pieces w) (w ++ q.rest) (w ++ rest'))
    (hskipped : ∀ w, pieces w .skipped)
    (htokens : ∀ t ∈ ts, ∀ w, q.offset = t.span.stop + byteLength w → pieces w (.token t.kind)) :
    ∃ ts', Reads ⟨p.state, offset, u ++ rest'⟩ ts' ⟨q.state, offset + byteLength u, rest'⟩ ∧
      ts'.map Token.lexeme = ts.map Token.lexeme ∧ (offset = p.offset → ts' = ts) := by
  induction h generalizing u offset with
  | refl p =>
    obtain rfl : u = [] := by simpa using hp
    exact ⟨[], .refl _, rfl, fun _ => rfl⟩
  | @step p m q ts us move reads ih =>
    obtain ⟨w, hw, hoffset⟩ := reads.rest_eq
    obtain ⟨w', hw', hoffset'⟩ := move.rest_eq
    obtain rfl : u = w' ++ w := by
      refine List.append_cancel_right (hp.symm.trans ?_)
      rw [hw', hw, List.append_assoc]
    obtain ⟨us', hreads, hlexemes, hsame⟩ := ih (offset + byteLength w') hw hrest
      (fun t ht => htokens t (List.mem_append_right _ ht))
    obtain ⟨ts', hmove, hlexemes', hsame'⟩ := move.interchange (hw ▸ hrest w) offset hw' (hskipped w)
      fun t ht => htokens t (List.mem_append_left _ ht) w (by rw [move.stop_eq t ht, hoffset])
    refine ⟨ts' ++ us', ?_, by rw [List.map_append, List.map_append, hlexemes, hlexemes'],
      fun h => by rw [hsame' h, hsame (by rw [h, hoffset'])]⟩
    rw [List.append_assoc, byteLength_append, ← Nat.add_assoc]
    exact .step hmove hreads

/-- What is read up to a place does not change when the text from some later place on is replaced by
one that begins with a word, unless a name or a number ends there, or by one that begins with a
blank. -/
theorem Reads.transplant {p q : Place} {ts : List Token} {u stay rest : List Char} {x y : Char}
    (h : Reads p ts q) (rest' : List Char) (offset : Nat) (hp : p.rest = u ++ q.rest)
    (hq : q.rest = stay ++ x :: rest) (hx : stay = [] → x ≠ '\n') (hy : breaks y = true)
    (hword : stay = [] → beginsWord y = true)
    (hseam : stay = [] → ∀ t ∈ ts, t.span.stop = q.offset →
      (Piece.token t.kind).endsBefore y = true) :
    ∃ ts', Reads ⟨p.state, offset, u ++ (stay ++ y :: rest')⟩ ts'
        ⟨q.state, offset + byteLength u, stay ++ y :: rest'⟩ ∧
      ts'.map Token.lexeme = ts.map Token.lexeme ∧ (offset = p.offset → ts' = ts) := by
  have hchange : ∀ w, Interchange (fun p => w ++ stay = [] → p.endsBefore y = true) (w ++ q.rest)
      (w ++ (stay ++ y :: rest')) := by
    intro w
    have hstay : w ++ stay = [] → stay = [] := fun hnil => (List.append_eq_nil_iff.mp hnil).2
    rw [hq, ← List.append_assoc, ← List.append_assoc]
    exact .breaks _ rest rest' (fun hnil => hx (hstay hnil)) hy fun hnil => hword (hstay hnil)
  refine h.interchange offset hp hchange (fun _ _ => rfl) fun t ht w hoffset hnil => ?_
  obtain ⟨rfl, rfl⟩ := List.append_eq_nil_iff.mp hnil
  exact hseam rfl t ht hoffset.symm

/-- What is read up to a place does not change when the text from some later place on is replaced by
one that goes on no operator and no exponent and ends no line. -/
theorem Reads.beyond {p q : Place} {ts : List Token} {u mid rest rest' : List Char}
    (h : Reads p ts q) (hp : p.rest = u ++ q.rest) (hq : q.rest = mid ++ rest) (hmid : mid ≠ [])
    (hrest' : Detached rest') (hfeed : rest'.head? ≠ some '\n') :
    Reads ⟨p.state, p.offset, u ++ (mid ++ rest')⟩ ts ⟨q.state, q.offset, mid ++ rest'⟩ := by
  obtain ⟨w, hw, hoffset⟩ := h.rest_eq
  obtain rfl : u = w := List.append_cancel_right (hp.symm.trans hw)
  have hchange : ∀ v, Interchange (fun _ => True) (v ++ q.rest) (v ++ (mid ++ rest')) := by
    intro v
    rw [hq, ← List.append_assoc, ← List.append_assoc]
    exact .beyond rest (by simp [hmid]) hrest' hfeed
  obtain ⟨ts', hreads, -, hsame⟩ :=
    h.interchange p.offset hp hchange (fun _ => trivial) fun _ _ _ _ => trivial
  rwa [hoffset, ← hsame rfl]

end WorkflowAudit.Script.Lexer
