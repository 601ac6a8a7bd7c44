import WorkflowAudit.Proofs.Script.Nesting

/-!
# What the tokens of a text cover

The tokens of a text stand one after another on slices of it, and what lies between them is
white space, comments, joined lines and line breaks that end no line. `Lexed` puts this together
with the nesting of brackets and blocks; every text either gives such tokens or an error at a
place inside it.
-/

namespace WorkflowAudit.Script

open Text Lexer

/-- Whether a line feed at an offset ends no line: it stands between brackets, or no token
    precedes it on its line. -/
def Dropped (tokens : List Token) (offset : Nat) : Prop :=
  ∃ earlier later, tokens = earlier ++ later ∧ (∀ t ∈ earlier, t.span.stop ≤ offset) ∧
    (∀ t ∈ later, offset < t.span.start) ∧
    (0 < balance earlier ∨ ∀ t ∈ earlier.getLast?, t.kind = .newline)

/-- Characters that leave no token, with those before and after them. -/
inductive Filler (tokens : List Token) : List Char → List Char → List Char → Prop
  | mark {after} : Filler tokens [] ['\ufeff'] after
  | blank {before c after} (h : c ∈ [' ', '\t', '\x0c', '\r']) : Filler tokens before [c] after
  | comment {before w after} (onLine : ∀ c ∈ w, c ≠ '\n') (ends : ∀ c ∈ after.head?, c = '\n') :
      Filler tokens before ('#' :: w) after
  | join {before feed after} (h : feed = ['\n'] ∨ feed = ['\r', '\n']) :
      Filler tokens before ('\\' :: feed) after
  | lineBreak {before after} (h : Dropped tokens (byteLength before)) :
      Filler tokens before ['\n'] after

/-- Whether the byte of a text at an offset belongs to characters that leave no token. -/
def Filled (cs : List Char) (tokens : List Token) (offset : Nat) : Prop :=
  ∃ before piece after, cs = before ++ (piece ++ after) ∧ byteLength before ≤ offset ∧
    offset < byteLength before + byteLength piece ∧ Filler tokens before piece after

/-- What the tokens of a text are. -/
structure Lexed (cs : List Char) (tokens : List Token) : Prop where
  /-- Tokens stand in the order of the text and do not overlap. -/
  ordered : tokens.Pairwise fun t u => t.span.stop ≤ u.span.start
  /-- Every token covers a slice of the text, and that slice is what a name, number, literal or
      operator says. -/
  sliced : ∀ t ∈ tokens, ∃ inside, slice? cs t.span.start t.span.stop = some inside ∧
    (t.kind.isLexical = true → t.span.start < t.span.stop ∧ t.text = String.ofList inside)
  /-- Every byte is covered by a token or leaves none. -/
  covered : ∀ offset < byteLength cs,
    (∃ t ∈ tokens, t.span.start ≤ offset ∧ offset < t.span.stop) ∨ Filled cs tokens offset
  nested : Nested tokens
  /-- No block ends that has not begun. -/
  blocks : ∀ us, us <+: tokens → countKind .dedent us ≤ countKind .indent us
  /-- One end marker stands at the end of the text, with all blocks ended. -/
  ended : ∃ init, tokens = init ++ [⟨.endMarker, .point (byteLength cs), ""⟩] ∧
    (∀ t ∈ init, t.kind ≠ .endMarker) ∧ countKind .dedent tokens = countKind .indent tokens

namespace Lexer

/-! ## Slices -/

theorem Move.span_eq {p q : Place} {ts : List Token} (h : Move p ts q) :
    ∀ t ∈ ts, (t.kind.isLexical = false ∧ t.span = .point q.offset) ∨
      (∃ w, p.rest = w ++ q.rest ∧ t.span = ⟨p.offset, p.offset + byteLength w⟩ ∧
        (t.kind.isLexical = true → t.text = String.ofList w)) := by
  cases h with
  | skip | feed | emptyLine | commentLine | trailing => simp
  | @lineEnd st offset rest =>
    unfold lineEnding
    intro t ht
    split at ht
    · obtain rfl := List.mem_singleton.mp ht
      exact .inr ⟨['\n'], rfl, rfl, nofun⟩
    · cases ht
  | @token st offset c w rest =>
    intro t ht
    obtain rfl := List.mem_singleton.mp ht
    exact .inr ⟨c :: w, rfl, rfl, fun _ => rfl⟩
  | enter atStart indented content enters =>
    intro t ht
    exact .inl (span_of_enterLine enters t ht).symm

/-- The tokens of a reading cover slices of the text. -/
theorem Reads.sliced {p q : Place} {ts : List Token} (h : Reads p ts q) {done cs : List Char}
    (hcs : cs = done ++ p.rest) (hdone : byteLength done = p.offset) :
    ∀ t ∈ ts, ∃ inside, slice? cs t.span.start t.span.stop = some inside ∧
      (t.kind.isLexical = true → t.text = String.ofList inside) := by
  induction h generalizing done with
  | refl => simp
  | @step p m q ts us move reads ih =>
    obtain ⟨w, hw, hoffset⟩ := move.rest_eq
    intro t ht
    rcases List.mem_append.mp ht with ht | ht
    · rcases move.span_eq t ht with ⟨hkind, hspan⟩ | ⟨v, hv, hspan, htext⟩
      · refine ⟨[], ?_, fun hlexical => by rw [hkind] at hlexical; cases hlexical⟩
        rw [hspan, slice?_eq_some_iff]
        exact ⟨done ++ w, m.rest, by rw [hcs, hw]; simp, by simp [hdone, hoffset, Span.point],
          by simp [Span.point]⟩
      · refine ⟨v, ?_, htext⟩
        rw [hspan, slice?_eq_some_iff]
        exact ⟨done, m.rest, by rw [hcs, hv], hdone, rfl⟩
    · have hsplit : cs = done ++ w ++ m.rest := by rw [hcs, hw, List.append_assoc]
      exact ih hsplit (by simp [hdone, hoffset]) t ht

theorem Move.ne_endMarker {p q : Place} {ts : List Token} (h : Move p ts q) :
    ∀ t ∈ ts, t.kind ≠ .endMarker := by
  cases h with
  | skip | feed | emptyLine | commentLine | trailing => simp
  | lineEnd =>
    unfold lineEnding
    split <;> simp
  | @token st offset c w rest kind brackets inside reads =>
    have hlexical := isLexical_of_front reads
    intro t ht
    obtain rfl := List.mem_singleton.mp ht
    rintro (hkind : kind = _)
    rw [hkind] at hlexical
    cases hlexical
  | enter atStart indented content enters => cases enterLine_cases enters <;> simp

theorem Reads.ne_endMarker {p q : Place} {ts : List Token} (h : Reads p ts q) :
    ∀ t ∈ ts, t.kind ≠ .endMarker := by
  induction h with
  | refl => simp
  | step move _ ih =>
    intro t ht
    exact (List.mem_append.mp ht).elim (move.ne_endMarker t) (ih t)

/-! ## What is left out -/

theorem exists_char_of_lt {cs : List Char} {offset : Nat} (h : offset < byteLength cs) :
    ∃ before c after, cs = before ++ c :: after ∧ byteLength before ≤ offset ∧
      offset < byteLength before + c.utf8Size := by
  induction cs generalizing offset with
  | nil => simp at h
  | cons c cs ih =>
    rw [byteLength_cons] at h
    by_cases hfirst : offset < c.utf8Size
    · exact ⟨[], c, cs, rfl, by simp, by simpa using hfirst⟩
    · obtain ⟨before, d, after, rfl, hle, hlt⟩ := ih (show offset - c.utf8Size < byteLength cs by omega)
      exact ⟨c :: before, d, after, rfl, by simp; omega, by simp; omega⟩

/-- What the tokens written so far say about the line state. -/
structure State.After (st : State) (ts : List Token) : Prop where
  coherent : st.Coherent
  brackets : (st.brackets.length : Int) = balance ts
  lineOpen : st.lineOpen = false → ∀ t ∈ ts.getLast?, t.kind = .newline
  lineStart : st.atLineStart = true → st.lineOpen = false

theorem Move.after {p q : Place} {earlier ts : List Token} (h : Move p ts q)
    (hp : p.state.After earlier) : q.state.After (earlier ++ ts) := by
  have hcoherent := h.coherent hp.coherent
  have hbrackets : (q.state.brackets.length : Int) = balance (earlier ++ ts) := by
    rw [balance_append, ← hp.brackets]
    rcases h.brackets with ⟨hts, b, hb⟩ | ⟨hts, b, hb⟩ | ⟨hts, hb⟩ <;>
      simp only [hts, hb, List.length_cons] <;> omega
  cases h with
  | skip | feed | emptyLine =>
    exact ⟨hcoherent, hbrackets, by simpa using hp.lineOpen, hp.lineStart⟩
  | commentLine | trailing =>
    exact ⟨hcoherent, hbrackets, by simpa [State.begun] using hp.lineOpen, by simp [State.begun]⟩
  | @lineEnd st offset rest =>
    refine ⟨hcoherent, hbrackets, fun _ => ?_, fun _ => rfl⟩
    unfold lineEnding
    split
    case isTrue => simp
    case isFalse hclosed => simpa using hp.lineOpen (by simpa using hclosed)
  | token inside =>
    refine ⟨hcoherent, hbrackets, by simp, fun hstart => ?_⟩
    cases (State.Coherent.atLineStart_eq hp.coherent inside).symm.trans hstart
  | enter atStart indented content enters =>
    cases enterLine_cases enters with
    | deeper | back => exact ⟨hcoherent, hbrackets, by simp, by simp [State.begun]⟩
    | level =>
      exact ⟨hcoherent, hbrackets, by simpa [State.begun] using hp.lineOpen, by simp [State.begun]⟩

theorem Reads.after {p q : Place} {earlier ts : List Token} (h : Reads p ts q)
    (hp : p.state.After earlier) : q.state.After (earlier ++ ts) := by
  induction h generalizing earlier with
  | refl => simpa using hp
  | step move _ ih =>
    rw [← List.append_assoc]
    exact ih (move.after hp)

/-- The move over the byte at an offset. -/
theorem Reads.exists_move {p q : Place} {ts : List Token} {offset : Nat} (h : Reads p ts q)
    (hle : p.offset ≤ offset) (hlt : offset < q.offset) :
    ∃ m m' before inside after, Reads p before m ∧ Move m inside m' ∧ Reads m' after q ∧
      ts = before ++ (inside ++ after) ∧ m.offset ≤ offset ∧ offset < m'.offset := by
  induction h with
  | refl => omega
  | @step p m q ts us move reads ih =>
    by_cases hfirst : offset < m.offset
    · exact ⟨p, m, [], ts, us, .refl p, move, reads, rfl, hle, hfirst⟩
    · obtain ⟨n, n', before, inside, after, hbefore, hmove, hafter, rfl, hmle, hmlt⟩ :=
        ih (by omega) hlt
      exact ⟨n, n', ts ++ before, inside, after, .step move hbefore, hmove, hafter, by simp,
        hmle, hmlt⟩

section

variable {cs done : List Char} {tokens : List Token} {offset : Nat}

theorem filled_of_indentation {blanks rest : List Char} (hcs : cs = done ++ (blanks ++ rest))
    (indented : ∀ b ∈ blanks, isIndentation b = true) (hle : byteLength done ≤ offset)
    (hlt : offset < byteLength done + byteLength blanks) : Filled cs tokens offset := by
  obtain ⟨before, c, after, rfl, hcle, hclt⟩ :=
    exists_char_of_lt (show offset - byteLength done < byteLength blanks by omega)
  have hc : isIndentation c = true := indented c (by simp)
  refine ⟨done ++ before, [c], after ++ rest, by simp [hcs], by simp; omega, by simp; omega,
    .blank ?_⟩
  simp only [isIndentation, Bool.or_eq_true, decide_eq_true_eq] at hc
  rcases hc with (rfl | rfl) | rfl <;> simp

/-- A piece that is skipped is white space, a comment or a joined line. -/
theorem filler_of_front {before w rest : List Char} {c : Char}
    (h : front c (w ++ rest) = .ok (.skipped, w.length)) :
    Filler tokens before (c :: w) rest := by
  generalize hcs : w ++ rest = cs, hn : w.length = n at h
  cases front_cases h with
  | blank hc =>
    obtain rfl := List.eq_nil_of_length_eq_zero hn
    exact .blank hc
  | comment =>
    rw [← hcs] at hn
    obtain ⟨honLine, hends⟩ := length_takeWhile_append.mp hn.symm
    exact .comment (by simpa using honLine) (by simpa using hends)
  | join =>
    obtain ⟨d, rfl⟩ := List.length_eq_one_iff.mp hn
    obtain ⟨rfl, -⟩ := List.cons.inj hcs
    exact .join (.inl rfl)
  | joinReturn =>
    obtain ⟨d, e, rfl⟩ := List.length_eq_two.mp hn
    simp only [List.cons_append, List.nil_append, List.cons.injEq] at hcs
    obtain ⟨rfl, rfl, -⟩ := hcs
    exact .join (.inr rfl)

/-- A line feed between brackets, or on a line without tokens, leaves none. -/
theorem State.After.filled {st : State} {earlier later : List Token} {rest : List Char}
    (h : st.After earlier) (hst : st.brackets ≠ [] ∨ st.lineOpen = false)
    (hcs : cs = done ++ '\n' :: rest) (hearlier : ∀ t ∈ earlier, t.span.stop ≤ byteLength done)
    (hlater : ∀ t ∈ later, byteLength done + 1 ≤ t.span.start) :
    Filled cs (earlier ++ later) (byteLength done) := by
  have hfeed : ('\n' : Char).utf8Size = 1 := rfl
  refine ⟨done, ['\n'], rest, hcs, Nat.le_refl _, by simp [hfeed], .lineBreak ?_⟩
  refine ⟨earlier, later, rfl, hearlier, hlater, hst.imp (fun hopen => ?_) h.lineOpen⟩
  rw [← h.brackets]
  exact Int.natCast_pos.mpr (List.length_pos_iff.mpr hopen)

/-- Every byte that a move passes over belongs to a token that it writes, or leaves none. -/
theorem Move.covered {m m' : Place} {earlier inside later : List Token} (h : Move m inside m')
    (hm : m.state.After earlier) (hcs : cs = done ++ m.rest) (hdone : m.offset = byteLength done)
    (hearlier : ∀ t ∈ earlier, t.span.stop ≤ m.offset)
    (hlater : ∀ t ∈ later, m'.offset ≤ t.span.start) (hle : m.offset ≤ offset)
    (hlt : offset < m'.offset) :
    (∃ t ∈ inside, t.span.start ≤ offset ∧ offset < t.span.stop) ∨
      Filled cs (earlier ++ (inside ++ later)) offset := by
  cases h with
  | @skip st o c w rest _ reads =>
    exact .inr ⟨done, c :: w, rest, hcs, hdone ▸ hle, hdone ▸ hlt, filler_of_front reads⟩
  | @feed st o rest inBrackets =>
    simp only at hdone hle hlt hlater hearlier
    subst hdone
    obtain rfl : offset = byteLength done := by omega
    exact .inr (hm.filled (.inl inBrackets) hcs hearlier hlater)
  | @lineEnd st o rest _ closed =>
    simp only at hdone hle hlt hlater hearlier
    subst hdone
    obtain rfl : offset = byteLength done := by omega
    unfold lineEnding
    split
    case isTrue => exact .inl ⟨_, List.mem_singleton_self _, hle, hlt⟩
    case isFalse hclosed =>
      exact .inr (hm.filled (.inr (by simpa using hclosed)) hcs hearlier hlater)
  | token => exact .inl ⟨_, List.mem_singleton_self _, hle, hlt⟩
  | @emptyLine st o blanks feed rest atStart indented ends =>
    simp only at hdone hle hlt hlater hearlier
    subst hdone
    by_cases hblank : offset < byteLength done + byteLength blanks
    · exact .inr (filled_of_indentation hcs indented hle hblank)
    have hsizes : ('\n' : Char).utf8Size = 1 ∧ ('\r' : Char).utf8Size = 1 := ⟨rfl, rfl⟩
    have hclosed : st.lineOpen = false := hm.lineStart (by
      simp only [State.isInside, Bool.not_eq_false', Bool.and_eq_true] at atStart
      exact atStart.1)
    rcases ends with rfl | rfl
    · simp only [byteLength_append, byteLength_cons, byteLength_nil, hsizes] at hlt hlater
      obtain rfl : offset = byteLength (done ++ blanks) := by simp; omega
      have hsplit : cs = done ++ blanks ++ '\n' :: rest := by simp [hcs]
      refine .inr (hm.filled (.inr hclosed) hsplit (fun t ht => ?_) fun t ht => ?_)
      · have := hearlier t ht
        simp only [byteLength_append]
        omega
      · have := hlater t ht
        simp only [byteLength_append]
        omega
    · simp only [byteLength_append, byteLength_cons, byteLength_nil, hsizes] at hlt hlater
      by_cases hreturn : offset = byteLength (done ++ blanks)
      · subst hreturn
        exact .inr ⟨done ++ blanks, ['\r'], '\n' :: rest, by simp [hcs], Nat.le_refl _,
          by simp [hsizes], .blank (by simp)⟩
      rw [byteLength_append] at hreturn
      obtain rfl : offset = byteLength (done ++ blanks ++ ['\r']) := by simp [hsizes]; omega
      have hsplit : cs = done ++ blanks ++ ['\r'] ++ '\n' :: rest := by simp [hcs]
      refine .inr (hm.filled (.inr hclosed) hsplit (fun t ht => ?_) fun t ht => ?_)
      · have := hearlier t ht
        simp only [byteLength_append]
        omega
      · have := hlater t ht
        simp only [byteLength_append, byteLength_cons, byteLength_nil, hsizes]
        omega
  | @commentLine st o blanks w rest atStart indented ends =>
    simp only at hdone hle hlt
    subst hdone
    by_cases hblank : offset < byteLength done + byteLength blanks
    · exact .inr (filled_of_indentation hcs indented hle hblank)
    obtain ⟨honLine, hends⟩ := length_takeWhile_append.mp ends
    refine .inr ⟨done ++ blanks, '#' :: w, rest, by simp [hcs], ?_, ?_,
      .comment (by simpa using honLine) (by simpa using hends)⟩
    · rw [byteLength_append]
      omega
    · simpa [Nat.add_assoc] using hlt
  | @trailing st o blanks _ _ indented =>
    have hsplit : cs = done ++ (blanks ++ []) := by simpa using hcs
    exact .inr (filled_of_indentation hsplit indented (hdone ▸ hle) (hdone ▸ hlt))
  | enter _ indented _ _ =>
    exact .inr (filled_of_indentation hcs indented (hdone ▸ hle) (hdone ▸ hlt))

end

/-! ## Errors -/

theorem pieceStep_error {st : State} {offset : Nat} {c : Char} {cs : List Char} {e : SyntaxError}
    (h : pieceStep st offset c cs = .error e) : e.offset = offset := by
  unfold pieceStep at h
  split at h
  · cases h
    rfl
  · cases h
  · split at h <;> cases h
  · dsimp only at h
    split at h <;> cases h
    rfl

theorem lineStep_error {st : State} {offset : Nat} {cs : List Char} {e : SyntaxError}
    (h : lineStep st offset cs = .error e) : e.offset ≤ offset + byteLength cs := by
  have hsplit := congrArg byteLength
    (List.takeWhile_append_dropWhile (p := isIndentation) (l := cs))
  rw [byteLength_append] at hsplit
  unfold lineStep at h
  dsimp only at h
  split at h
  · cases h
  · cases h
  · cases h
  · cases h
  · simp only [bind, Except.bind] at h
    split at h
    case h_1 e' henter =>
      cases h
      unfold enterLine at henter
      dsimp only at henter
      split at henter
      · cases henter
      split at henter
      · split at henter <;> cases henter
        simp only
        omega
      · cases henter
    case h_2 =>
      split at h
      case h_1 e' hpiece =>
        cases h
        have := pieceStep_error hpiece
        omega
      case h_2 => cases h

theorem run_error {st : State} {offset : Nat} {cs : List Char} {written : List Token}
    {e : SyntaxError} (h : run st offset cs written = .error e) :
    e.offset ≤ offset + byteLength cs := by
  induction st, offset, cs, written using run.induct with
  | case1 st offset written =>
    rw [run.eq_1] at h
    cases hfinish : finish st offset with
    | ok closing =>
      rw [hfinish] at h
      cases h
    | error e' =>
      rw [hfinish] at h
      cases h
      unfold finish at hfinish
      split at hfinish <;> cases hfinish
      exact Nat.le_add_right _ _
  | case2 st offset written c cs e' hstep =>
    rw [run.eq_2, hstep] at h
    cases h
    unfold step at hstep
    split at hstep
    · exact lineStep_error hstep
    · rw [pieceStep_error hstep]
      exact Nat.le_add_right _ _
  | case3 st offset written c cs s hstep ih =>
    rw [run.eq_2, hstep] at h
    have hsplit := congrArg byteLength (List.take_append_drop s.taken (c :: cs))
    rw [byteLength_append] at hsplit
    have := ih h
    omega

/-! ## Whole texts -/

theorem tokenize_error {text : String} {e : SyntaxError} (h : tokenize text = .error e) :
    e.offset ≤ byteLength text.toList := by
  unfold tokenize at h
  split at h
  case h_1 cs htext =>
    have hmark : ('\ufeff' : Char).utf8Size = 3 := by decide
    rw [htext, byteLength_cons, hmark]
    exact run_error h
  case h_2 => simpa using run_error h

theorem after_initial : State.initial.After [] :=
  ⟨fun _ => rfl, rfl, fun _ => by simp, fun _ => rfl⟩

/-- What is written at the end of a text ends its last line and its blocks. -/
theorem exists_of_finish {st : State} {offset : Nat} {closing : List Token}
    (h : finish st offset = .ok closing) :
    st.brackets = [] ∧ ∃ init, closing = init ++ [⟨.endMarker, .point offset, ""⟩] ∧
      (∀ t ∈ init, t.kind ≠ .endMarker) ∧ Blocks st.indents.length closing 0 := by
  unfold finish at h
  split at h
  case h_1 => cases h
  case h_2 hclosed =>
    cases h
    refine ⟨hclosed, _, rfl, ?_, ?_⟩
    · intro t ht
      simp only [List.mem_append, List.mem_map] at ht
      rcases ht with ht | ⟨_, _, rfl⟩
      · split at ht <;> simp_all
      · nofun
    · have hline : ∀ t ∈ (if st.lineOpen then
          [(⟨.newline, .point offset, ""⟩ : Token)] else []), t.kind = .newline := by
        split <;> simp
      have hdedents : Blocks (st.indents.map fun _ => (⟨.dedent, .point offset, ""⟩ : Token)).length
          (st.indents.map fun _ => ⟨.dedent, .point offset, ""⟩) 0 := .dedents 0 (by simp)
      rw [List.length_map] at hdedents
      exact ((Blocks.of_others _ fun t ht => by simp [hline t ht]).append hdedents).append
        (.of_others 0 (by simp))

end Lexer

theorem lexed_of_tokenize {text : String} {tokens : List Token} (h : tokenize text = .ok tokens) :
    Lexed text.toList tokens := by
  obtain ⟨mark, cs, ts, st, offset, closing, htext, hmark, -, hreads, hfinish, rfl⟩ :=
    exists_reads_of_tokenize h
  obtain ⟨w, hw, hoffset⟩ := hreads.rest_eq
  obtain rfl : w = cs := by simpa using hw.symm
  have hend : byteLength text.toList = offset := by
    rw [htext, byteLength_append]
    exact hoffset.symm
  obtain ⟨hclosed, init, hinit, hothers, hblocks⟩ := exists_of_finish hfinish
  have hclosing := closing_of_finish hfinish
  have hall := hreads.blocks.append hblocks
  constructor
  case ordered => exact (ordered_of_reads hreads hfinish).pairs
  case sliced =>
    intro t ht
    rcases List.mem_append.mp ht with ht | ht
    · obtain ⟨inside, hslice, hinside⟩ := hreads.sliced htext rfl t ht
      exact ⟨inside, hslice, fun hlexical => ⟨(hreads.spans.1 t ht).2.2.2 hlexical, hinside hlexical⟩⟩
    · obtain ⟨hkind, hspan⟩ := hclosing t ht
      refine ⟨[], ?_, fun hlexical => by rw [hkind] at hlexical; cases hlexical⟩
      rw [hspan, slice?_eq_some_iff]
      exact ⟨text.toList, [], by simp, hend, rfl⟩
  case covered =>
    intro o ho
    by_cases hbefore : o < byteLength mark
    · rcases hmark with rfl | rfl
      · simp at hbefore
      · exact .inr ⟨[], ['\ufeff'], w, htext, Nat.zero_le _, by simpa using hbefore, .mark⟩
    obtain ⟨m, m', before, inside, after, hm, hmove, hafter, rfl, hle, hlt⟩ :=
      hreads.exists_move (Nat.le_of_not_lt hbefore) (hend ▸ ho)
    obtain ⟨v, hv, hmoffset⟩ := hm.rest_eq
    have hlater : ∀ t ∈ after ++ closing, m'.offset ≤ t.span.start := by
      intro t ht
      rcases List.mem_append.mp ht with ht | ht
      · exact (hafter.spans.1 t ht).1
      · rw [(hclosing t ht).2]
        exact hafter.offset_le
    have hsplit : text.toList = mark ++ v ++ m.rest := by rw [htext, List.append_assoc, ← hv]
    have hcovered := hmove.covered (hm.after after_initial) hsplit
      (by rw [hmoffset, byteLength_append]) (fun t ht => (hm.spans.1 t ht).2.2.1) hlater hle hlt
    simp only [List.nil_append, List.append_assoc] at hcovered ⊢
    refine hcovered.imp_left fun ⟨t, ht, hspan⟩ => ⟨t, ?_, hspan⟩
    simp [ht]
  case nested =>
    have hweights : ∀ t ∈ closing, t.weight = 0 := fun t ht => Token.weight_of_ne_op fun hop => by
      have := (hclosing t ht).1
      rw [hop] at this
      cases this
    refine hreads.closing ?_
    rw [hclosed]
    exact .of_weights hweights
  case blocks => simpa [State.initial] using hall.dips
  case ended =>
    refine ⟨ts ++ init, by rw [hinit, hend, List.append_assoc], ?_, by simpa [State.initial] using hall.total⟩
    intro t ht
    rcases List.mem_append.mp ht with ht | ht
    · exact hreads.ne_endMarker t ht
    · exact hothers t ht

end WorkflowAudit.Script
