import WorkflowAudit.Proofs.Script.CarriageReturn
import WorkflowAudit.Proofs.Script.Failure

/-!
# Line endings

A text and the same text with a carriage return before every line feed are read side by side.
Every move over the one is a move over the other that writes tokens of the same kinds, as long as
it reads no literal that spans lines; at such a literal the other text fails. Where a text fails,
so does the other. So the two give the same kinds of tokens, unless a token of the text spans lines.
-/

namespace WorkflowAudit.Script

open Text

/-- Whether a token is a literal between single quotes that goes over a line feed. -/
def Token.spansLines (t : Token) : Bool := t.kind = .str && Lexer.spansLines t.text.toList

namespace Lexer

/-- Every run from a place goes on at another one, after tokens of some kinds. -/
def Leads (p : Place) (kinds : List TokenKind) (q : Place) : Prop :=
  ∃ ts : List Token, ts.map Token.kind = kinds ∧
    ∀ written, run p.state p.offset p.rest written =
      run q.state q.offset q.rest (ts.reverse ++ written)

theorem Reads.leads {p q : Place} {ts : List Token} (h : Reads p ts q) :
    Leads p (ts.map Token.kind) q :=
  ⟨ts, rfl, h.run_eq⟩

theorem Leads.refl (p : Place) : Leads p [] p := ⟨[], rfl, fun _ => rfl⟩

theorem Leads.trans {p m q : Place} {ks ls : List TokenKind} (h : Leads p ks m)
    (h' : Leads m ls q) : Leads p (ks ++ ls) q := by
  obtain ⟨ts, rfl, hts⟩ := h
  obtain ⟨us, rfl, hus⟩ := h'
  exact ⟨ts ++ us, List.map_append, fun written => by
    rw [hts, hus, List.reverse_append, List.append_assoc]⟩

/-- A carriage return on a line that has begun is skipped. -/
theorem reads_return {st : State} (inside : st.isInside = true) (offset : Nat) (rest : List Char) :
    Reads ⟨st, offset, '\r' :: rest⟩ [] ⟨st, offset + 1, rest⟩ :=
  (Move.skip (w := []) inside rfl).reads

/-- Behind a comment the text goes on with a line feed or not at all. The comment takes the
carriage return before the line feed with it, which otherwise is skipped. -/
theorem exists_behind_comment {st : State} {rest : List Char} (inside : st.isInside = true)
    (hrest : ∀ c ∈ rest.head?, c = '\n') (offset : Nat) :
    ∃ taken rest', withReturns rest = taken ++ rest' ∧ '\n' ∉ taken ∧
      (∀ c ∈ rest'.head?, c = '\n') ∧
      Leads ⟨st, offset + byteLength taken, rest'⟩ [] ⟨st, offset, withReturns rest⟩ := by
  cases rest with
  | nil => exact ⟨[], [], rfl, by simp, by simp, .refl _⟩
  | cons c rest =>
    obtain rfl : c = '\n' := hrest c rfl
    refine ⟨['\r'], '\n' :: withReturns rest, rfl, by simp, by simp, [], rfl, fun written => ?_⟩
    exact ((reads_return inside offset _).run_eq written).symm

theorem hasContent_withReturns {cs : List Char} (hreturn : '\r' ∉ cs) :
    hasContent (withReturns cs) = hasContent cs := by
  cases cs with
  | nil => rfl
  | cons c cs =>
    by_cases hc : c = '\n'
    · subst hc
      rfl
    · have hc' : c ≠ '\r' := fun h => hreturn (h ▸ List.mem_cons_self)
      rw [withReturns_cons cs hc, Bool.eq_iff_iff, hasContent_cons, hasContent_cons]
      simp [hc']

theorem withReturns_of_indented {blanks : List Char}
    (h : ∀ b ∈ blanks, isIndentation b = true) : withReturns blanks = blanks :=
  withReturns_eq_self fun hmem => by cases h _ hmem

theorem front_withReturns_append {c : Char} {w rest : List Char} {p : Piece}
    (hfeed : c ≠ '\n') (hcomment : c ≠ '#') (hreturn : '\r' ∉ w ++ rest)
    (reads : front c (w ++ rest) = .ok (p, w.length)) :
    front c (withReturns w ++ withReturns rest) =
      if p = .token .str ∧ spansLines (c :: w) = true then .error .unterminatedString
      else .ok (p, (withReturns w).length) := by
  rw [← withReturns_append, front_withReturns hfeed hcomment hreturn, reads]
  simp only [bind, Except.bind, returned, List.take_left]

/-- Tokens that span lines are lost, and all others stay. -/
theorem front_withReturns_token {c : Char} {w rest : List Char} {kind : TokenKind}
    (hreturn : '\r' ∉ w ++ rest) (reads : front c (w ++ rest) = .ok (.token kind, w.length))
    (offset : Nat) :
    front c (withReturns w ++ withReturns rest) =
      if (tokenAt kind offset (c :: w)).spansLines = true then .error .unterminatedString
      else .ok (.token kind, (withReturns w).length) := by
  have hcomment : c ≠ '#' := by
    rintro rfl
    cases reads
  have hspans : (tokenAt kind offset (c :: w)).spansLines = true ↔
      Piece.token kind = .token .str ∧ spansLines (c :: w) = true := by
    rw [Token.spansLines, tokenAt, String.toList_ofList, Bool.and_eq_true, decide_eq_true_eq,
      Piece.token.injEq]
  rw [front_withReturns_append (ne_lineFeed_of_front reads) hcomment hreturn reads]
  simp only [hspans]

theorem takeWhile_of_front_comment {w rest : List Char}
    (reads : front '#' (w ++ rest) = .ok (.skipped, w.length)) :
    ((w ++ rest).takeWhile (· ≠ '\n')).length = w.length :=
  (Prod.mk.inj (Except.ok.inj reads)).2

/-- A comment, and where it leads in the text with carriage returns. -/
theorem comment_withReturns {st : State} {w rest : List Char} (inside : st.isInside = true)
    (ends : ((w ++ rest).takeWhile (· ≠ '\n')).length = w.length) (before : List Char)
    (offset : Nat) :
    ∃ taken rest', withReturns (w ++ rest) = (w ++ taken) ++ rest' ∧
      (((w ++ taken) ++ rest').takeWhile (· ≠ '\n')).length = (w ++ taken).length ∧
      Leads ⟨st, offset + byteLength (before ++ '#' :: (w ++ taken)), rest'⟩ []
        ⟨st, offset + byteLength (before ++ '#' :: w), withReturns rest⟩ := by
  obtain ⟨hw, hrest⟩ := length_takeWhile_append.mp ends
  obtain ⟨taken, rest', hsplit, htaken, hrest', hleads⟩ := exists_behind_comment inside
    (fun c hc => by simpa using hrest c hc) (offset + byteLength (before ++ '#' :: w))
  refine ⟨taken, rest', ?_, length_takeWhile_append.mpr ⟨fun c hc => ?_, fun c hc => ?_⟩, ?_⟩
  · rw [withReturns_append, withReturns_eq_self (not_mem_of_takeWhile ends), hsplit,
      List.append_assoc]
  · rcases List.mem_append.mp hc with hc | hc
    · exact hw c hc
    · exact decide_eq_true fun h => htaken (h ▸ hc)
  · exact decide_eq_false fun h => h (hrest' c hc)
  · rwa [Nat.add_assoc, ← byteLength_append, List.append_assoc, List.cons_append] at hleads

/-- A move over a text leads to the same place in the text with carriage returns. -/
theorem Move.leads_withReturns {p q : Place} {ts : List Token} (h : Move p ts q)
    (hreturn : '\r' ∉ p.rest) (hplain : ∀ t ∈ ts, t.spansLines = false) (offset : Nat) :
    ∃ offset', Leads ⟨p.state, offset, withReturns p.rest⟩ (ts.map Token.kind)
      ⟨q.state, offset', withReturns q.rest⟩ := by
  cases h with
  | @skip st _ c w rest inside reads =>
    have hfeed : c ≠ '\n' := by
      rintro rfl
      cases reads
    dsimp only
    rw [withReturns_cons _ hfeed]
    by_cases hcomment : c = '#'
    · subst hcomment
      obtain ⟨taken, rest', hsplit, ends, hleads⟩ :=
        comment_withReturns inside (takeWhile_of_front_comment reads) [] offset
      have hskip : front '#' ((w ++ taken) ++ rest') = .ok (.skipped, (w ++ taken).length) :=
        congrArg (fun n => Except.ok (Piece.skipped, n)) ends
      rw [hsplit]
      exact ⟨_, (Move.skip inside hskip).reads.leads.trans hleads⟩
    · have hreads := front_withReturns_append hfeed hcomment
        (List.not_mem_of_not_mem_cons hreturn) reads
      rw [withReturns_append]
      exact ⟨_, (Move.skip inside hreads).reads.leads⟩
  | @feed st _ rest inBrackets =>
    have inside : st.isInside = true := by simp [State.isInside, inBrackets]
    exact ⟨_, ((reads_return inside offset _).trans (Move.feed inBrackets).reads).leads⟩
  | @lineEnd st o rest inside closed =>
    have hleads := ((reads_return inside offset ('\n' :: withReturns rest)).trans
      (Move.lineEnd inside closed).reads).leads
    have hkinds : (lineEnding st (offset + 1)).map Token.kind =
        (lineEnding st o).map Token.kind := by
      unfold lineEnding
      split <;> rfl
    rw [List.nil_append, hkinds] at hleads
    exact ⟨_, hleads⟩
  | @token st o c w rest kind brackets inside reads balance =>
    have hreads := front_withReturns_token (List.not_mem_of_not_mem_cons hreturn) reads o
    rw [hplain _ (List.mem_singleton_self _), if_neg Bool.false_ne_true] at hreads
    rw [withReturns_cons _ (ne_lineFeed_of_front reads), withReturns_append]
    exact ⟨_, (Move.token inside hreads balance).reads.leads⟩
  | @emptyLine st _ blanks feed rest atStart indented ends =>
    rw [withReturns_append, withReturns_of_indented indented]
    rcases ends with rfl | rfl
    · exact ⟨_, (Move.emptyLine atStart indented (.inr rfl)).reads.leads⟩
    · exact absurd (by simp) hreturn
  | @commentLine st _ blanks w rest atStart indented ends =>
    have inside : st.begun.isInside = true := rfl
    obtain ⟨taken, rest', hsplit, ends', hleads⟩ := comment_withReturns inside ends blanks offset
    have hsame : withReturns (blanks ++ ('#' :: w ++ rest)) =
        blanks ++ ('#' :: (w ++ taken) ++ rest') := by
      rw [withReturns_append, withReturns_of_indented indented, List.cons_append,
        withReturns_cons _ (by decide), hsplit, List.cons_append]
    rw [hsame]
    exact ⟨_, (Move.commentLine atStart indented ends').reads.leads.trans hleads⟩
  | @trailing st _ blanks atStart hne indented =>
    rw [withReturns_of_indented indented]
    exact ⟨_, (Move.trailing atStart hne indented).reads.leads⟩
  | @enter st st' o blanks rest written atStart indented content enters =>
    obtain ⟨written', henter, hlexemes⟩ := enterLine_offset enters (offset + byteLength blanks)
    have hkinds : written'.map Token.kind = ts.map Token.kind := by
      simpa [Token.lexeme, Function.comp_def] using congrArg (List.map Prod.fst) hlexemes
    have hcontent := hasContent_withReturns fun h => hreturn (List.mem_append_right blanks h)
    rw [withReturns_append, withReturns_of_indented indented, ← hkinds]
    exact ⟨_, (Move.enter atStart indented (hcontent.trans content) henter).reads.leads⟩

theorem Reads.leads_withReturns {p q : Place} {ts : List Token} (h : Reads p ts q)
    (hreturn : '\r' ∉ p.rest) (hplain : ∀ t ∈ ts, t.spansLines = false) (offset : Nat) :
    ∃ offset', Leads ⟨p.state, offset, withReturns p.rest⟩ (ts.map Token.kind)
      ⟨q.state, offset', withReturns q.rest⟩ := by
  induction h generalizing offset with
  | refl => exact ⟨offset, .refl _⟩
  | step move _ ih =>
    obtain ⟨hts, hus⟩ := List.forall_mem_append.mp hplain
    obtain ⟨w, hrest, -⟩ := move.rest_eq
    obtain ⟨o, hmove⟩ := move.leads_withReturns hreturn hts offset
    obtain ⟨o', hreads⟩ := ih (fun h => hreturn (hrest ▸ List.mem_append_right w h)) hus o
    exact ⟨o', by rw [List.map_append]; exact hmove.trans hreads⟩

/-- The text with carriage returns fails where a literal that spans lines begins. -/
theorem Move.stuck_withReturns {p q : Place} {ts : List Token} {t : Token} (h : Move p ts q)
    (ht : t ∈ ts) (hspans : t.spansLines = true) (hreturn : '\r' ∉ p.rest) (offset : Nat) :
    Stuck ⟨p.state, offset, withReturns p.rest⟩ := by
  have hkind : t.kind = .str := of_decide_eq_true (Bool.and_eq_true_iff.mp hspans).1
  cases h with
  | skip | feed | emptyLine | commentLine | trailing => cases ht
  | lineEnd =>
    unfold lineEnding at ht
    split at ht
    · obtain rfl := List.mem_singleton.mp ht
      cases hkind
    · cases ht
  | @token st o c w rest kind brackets inside reads balance =>
    obtain rfl := List.mem_singleton.mp ht
    have hreads := front_withReturns_token (List.not_mem_of_not_mem_cons hreturn) reads o
    rw [if_pos hspans] at hreads
    rw [withReturns_cons _ (ne_lineFeed_of_front reads), withReturns_append]
    exact .piece inside hreads
  | enter atStart indented content enters =>
    have hlexical := (span_of_enterLine enters t ht).2
    rw [hkind] at hlexical
    cases hlexical

theorem Reads.fails_withReturns {p q : Place} {ts : List Token} {t : Token} (h : Reads p ts q)
    (ht : t ∈ ts) (hspans : t.spansLines = true) (hreturn : '\r' ∉ p.rest) (offset : Nat)
    (written : List Token) :
    ∃ e, run p.state offset (withReturns p.rest) written = .error e := by
  induction h generalizing offset written with
  | refl => cases ht
  | @step p m q ts us move _ ih =>
    by_cases hplain : ∀ t ∈ ts, t.spansLines = false
    · obtain ⟨w, hrest, -⟩ := move.rest_eq
      obtain ⟨o, vs, -, hrun⟩ := move.leads_withReturns hreturn hplain offset
      have hus : t ∈ us := (List.mem_append.mp ht).resolve_left fun hmem => by
        cases hspans.symm.trans (hplain t hmem)
      rw [hrun]
      exact ih hus (fun h => hreturn (hrest ▸ List.mem_append_right w h)) o _
    · simp only [not_forall, Bool.not_eq_false] at hplain
      obtain ⟨u, hu, hspans'⟩ := hplain
      obtain ⟨e, he, -⟩ := (move.stuck_withReturns hu hspans' hreturn offset).run_eq written
      exact ⟨e, he⟩

/-- Where a text fails, the text with carriage returns fails. -/
theorem Stuck.withReturns {p : Place} (h : Stuck p) (hreturn : '\r' ∉ p.rest) (offset : Nat) :
    Stuck ⟨p.state, offset, withReturns p.rest⟩ := by
  cases h with
  | @piece st _ c cs fault inside fails =>
    have hne : c ≠ '\n' ∧ c ≠ '#' := by constructor <;> (rintro rfl; cases fails)
    have hfront := front_withReturns hne.1 hne.2 (List.not_mem_of_not_mem_cons hreturn)
    rw [fails] at hfront
    dsimp only
    rw [withReturns_cons _ hne.1]
    exact .piece inside hfront
  | @bracket st _ c cs n fault inside reads unmatched =>
    have hne : c ≠ '\n' ∧ c ≠ '#' := by constructor <;> (rintro rfl; cases reads)
    have hfront := front_withReturns hne.1 hne.2 (List.not_mem_of_not_mem_cons hreturn)
    rw [reads] at hfront
    dsimp only
    rw [withReturns_cons _ hne.1]
    exact .bracket inside hfront unmatched
  | @column st o blanks rest e atStart indented content misses =>
    have hcontent := hasContent_withReturns fun h => hreturn (List.mem_append_right blanks h)
    dsimp only
    rw [withReturns_append, withReturns_of_indented indented]
    cases henter : enterLine st.begun (blanks.foldl advanceColumn 0)
        (offset + byteLength blanks) with
    | error e' => exact .column atStart indented (hcontent.trans content) henter
    | ok entered =>
      obtain ⟨_, hok, -⟩ := enterLine_offset henter (o + byteLength blanks)
      cases hok.symm.trans misses
  | unclosed inBrackets => exact .unclosed inBrackets

/-- What a run writes over a text and over the same text with carriage returns. -/
theorem run_withReturns {cs : List Char} (st : State) (offset : Nat) (hreturn : '\r' ∉ cs) :
    match run st offset cs [] with
    | .error _ => ∃ e, run st offset (withReturns cs) [] = .error e
    | .ok ts =>
      if ts.any Token.spansLines then ∃ e, run st offset (withReturns cs) [] = .error e
      else ∃ us, run st offset (withReturns cs) [] = .ok us ∧
        us.map Token.kind = ts.map Token.kind := by
  split
  case h_1 e hrun =>
    obtain ⟨ts, q, hreads, hstuck⟩ := exists_stuck_of_run hrun
    by_cases hplain : ∀ t ∈ ts, t.spansLines = false
    · obtain ⟨w, hrest, -⟩ : ∃ w, cs = w ++ q.rest ∧ _ := hreads.rest_eq
      obtain ⟨o, us, -, hleads⟩ := hreads.leads_withReturns hreturn hplain offset
      have hstuck' := hstuck.withReturns (fun h => hreturn (hrest ▸ List.mem_append_right w h)) o
      obtain ⟨e', he', -⟩ := hstuck'.run_eq (us.reverse ++ [])
      exact ⟨e', (hleads []).trans he'⟩
    · simp only [not_forall, Bool.not_eq_false] at hplain
      obtain ⟨t, ht, hspans⟩ := hplain
      exact hreads.fails_withReturns ht hspans hreturn offset []
  case h_2 out hrun =>
    obtain ⟨ts, st', o, closing, hreads, hfinish, rfl⟩ := exists_reads_of_run hrun
    rw [List.reverse_nil, List.nil_append]
    -- what closes a text is no literal
    have hclosing : closing.any Token.spansLines = false := by
      refine List.any_eq_false.mpr fun t ht hspans => ?_
      have hkind : t.kind = .str := of_decide_eq_true (Bool.and_eq_true_iff.mp hspans).1
      have := (closing_of_finish hfinish t ht).1
      rw [hkind] at this
      cases this
    rw [List.any_append, hclosing, Bool.or_false]
    split
    case isTrue hspans =>
      obtain ⟨t, ht, hspans⟩ := List.any_eq_true.mp hspans
      exact hreads.fails_withReturns ht hspans hreturn offset []
    case isFalse hplain =>
      rw [Bool.not_eq_true, List.any_eq_false] at hplain
      obtain ⟨o', us, hus, hleads⟩ := hreads.leads_withReturns hreturn
        (fun t ht => Bool.eq_false_iff.mpr (hplain t ht)) offset
      obtain ⟨closing', hfinish', hlexemes⟩ := finish_offset hfinish o'
      have hkinds : closing'.map Token.kind = closing.map Token.kind := by
        simpa [Token.lexeme, Function.comp_def] using congrArg (List.map Prod.fst) hlexemes
      refine ⟨us ++ closing', ?_, by rw [List.map_append, List.map_append, hus, hkinds]⟩
      have hrun' := hleads []
      dsimp only at hrun'
      rw [hrun', withReturns_nil, run.eq_1, hfinish']
      simp [bind, Except.bind]

end Lexer

/-! ## Texts -/

/-- The same text with a carriage return before every line feed. -/
def withReturns (text : String) : String := String.ofList (Lexer.withReturns text.toList)

/-- The kinds of the tokens of a text, if it has tokens. -/
def tokenKinds? (text : String) : Option (List TokenKind) :=
  (tokenize text).toOption.map (·.map Token.kind)

/-- A text without carriage returns has the same kinds of tokens with them, unless a token of it is
a literal between single quotes that goes over a line feed; then it has none with them. -/
theorem tokenKinds?_withReturns {text : String} (hreturn : '\r' ∉ text.toList) :
    tokenKinds? (withReturns text) =
      if (tokenize text).toOption.any (·.any Token.spansLines) then none else tokenKinds? text := by
  obtain ⟨mark, cs, htext, hmark, hhead⟩ := Lexer.exists_mark text
  have hsame : Lexer.withReturns mark = mark := by
    rcases hmark with rfl | rfl <;> rfl
  have htext' : (withReturns text).toList = mark ++ Lexer.withReturns cs := by
    rw [withReturns, String.toList_ofList, htext, Lexer.withReturns_append, hsame]
  have hhead' : mark = [] → (Lexer.withReturns cs).head? ≠ some '\ufeff' := fun hnil h =>
    hhead hnil (Lexer.withReturns_head? h (by decide))
  have hrun := Lexer.run_withReturns .initial (byteLength mark)
    (fun h => hreturn (htext ▸ List.mem_append_right mark h))
  rw [← Lexer.tokenize_eq_run htext hmark hhead,
    ← Lexer.tokenize_eq_run htext' hmark hhead'] at hrun
  unfold tokenKinds?
  cases htokens : tokenize text with
  | error e =>
    rw [htokens] at hrun
    obtain ⟨e', he'⟩ := hrun
    rw [he']
    rfl
  | ok ts =>
    rw [htokens] at hrun
    simp only at hrun
    cases hspans : ts.any Token.spansLines with
    | true =>
      obtain ⟨e', he'⟩ := by simpa only [hspans, if_true] using hrun
      rw [he']
      simp [Except.toOption, hspans]
    | false =>
      obtain ⟨us, hus, hkinds⟩ := by simpa only [hspans, if_false, Bool.false_eq_true] using hrun
      rw [hus]
      simp [Except.toOption, hspans, hkinds]

/-- A text whose lines end in a comment, between brackets, behind a backslash, between three
quotes and after a statement. -/
def wrappedText : String := "if a: # b\n\n  c = [1,\n  \"\"\"d\\\ne\n\"\"\"] \\\n  + 'f'\n"

theorem tokenKinds?_withReturns_wrappedText :
    '\r' ∉ wrappedText.toList ∧ (tokenKinds? wrappedText).isSome = true ∧
      tokenKinds? (withReturns wrappedText) = tokenKinds? wrappedText := by
  have hreturn : '\r' ∉ wrappedText.toList := by decide +kernel
  have hspans : (tokenize wrappedText).toOption.any (·.any Token.spansLines) = false := by
    decide +kernel
  refine ⟨hreturn, by decide +kernel, ?_⟩
  rw [tokenKinds?_withReturns hreturn, hspans, if_neg Bool.false_ne_true]

/-- A line feed behind a backslash in a literal between single quotes. -/
example : tokenKinds? "x = 'a\\\nb'\n" = some [.name, .op, .str, .newline, .endMarker] ∧
    tokenKinds? (withReturns "x = 'a\\\nb'\n") = none := by decide +kernel

end WorkflowAudit.Script
