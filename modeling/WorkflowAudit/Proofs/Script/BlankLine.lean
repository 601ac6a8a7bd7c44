import WorkflowAudit.Proofs.Script.Joining

/-!
# Lines without content

A line of white space, possibly with a comment, leaves no token and no trace in the line state. So
such a line may stand before any other one: the text behind it is read as it would be without the
line, as many bytes further on as the line has, and fails where it would fail.
-/

namespace WorkflowAudit.Script

namespace Lexer

open Text

/-! ## Runs further on in a text -/

def Step.shift (n : Nat) (s : Step) : Step := { s with tokens := s.tokens.map (Token.shift n) }

theorem pieceStep_shift (st : State) (offset n : Nat) (c : Char) (cs : List Char) :
    pieceStep st (offset + n) c cs = shifted n (Step.shift n) (pieceStep st offset c cs) := by
  have hoffset : ∀ k, offset + n + k = offset + k + n := fun k => by omega
  unfold pieceStep
  rcases front c cs with fault | ⟨_ | _ | kind, k⟩
  · rfl
  · rfl
  · dsimp only
    split
    · split <;> simp [Step.shift, Token.shift, Span.shift, hoffset]
    · rfl
  · have hplain : ∀ t : Token, t = ⟨kind, ⟨offset, offset + byteLength (c :: cs.take k)⟩,
        String.ofList (c :: cs.take k)⟩ → t.shift n = ⟨kind, ⟨offset + n,
          offset + n + byteLength (c :: cs.take k)⟩, String.ofList (c :: cs.take k)⟩ := by
      rintro t rfl
      simp [Token.shift, Span.shift, hoffset]
    dsimp only
    cases kind with
    | op => cases brackets? st.brackets c <;> simp [Step.shift, hplain]; rfl
    | _ => simp [Step.shift, hplain]

theorem lineStep_shift (st : State) (offset n : Nat) (cs : List Char) :
    lineStep st (offset + n) cs = shifted n (Step.shift n) (lineStep st offset cs) := by
  unfold lineStep
  dsimp only
  split
  case h_1 | h_2 | h_3 | h_4 => rfl
  case h_5 c after _ _ _ _ =>
    rw [show offset + n + byteLength (cs.takeWhile isIndentation) =
      offset + byteLength (cs.takeWhile isIndentation) + n by omega, enterLine_shift]
    generalize offset + byteLength (cs.takeWhile isIndentation) = here
    rcases enterLine _ _ here with e | ⟨entered, written⟩
    · rfl
    · simp only [shifted_ok, bind, Except.bind, Prod.map, id]
      rw [pieceStep_shift]
      rcases pieceStep entered here c after with e | s
      · rfl
      · simp [Step.shift]

theorem step_shift (st : State) (offset n : Nat) (c : Char) (cs : List Char) :
    step st (offset + n) c cs = shifted n (Step.shift n) (step st offset c cs) := by
  unfold step
  split
  · exact lineStep_shift st offset n (c :: cs)
  · exact pieceStep_shift st offset n c cs

theorem run_shift (st : State) (offset n : Nat) (cs : List Char) (written : List Token) :
    run st (offset + n) cs (written.map (Token.shift n)) =
      shifted n (List.map (Token.shift n)) (run st offset cs written) := by
  induction st, offset, cs, written using run.induct with
  | case1 st offset written =>
    rw [run.eq_1, run.eq_1, finish_shift]
    cases finish st offset <;> simp [bind, Except.bind]
  | case2 st offset written c cs e herror =>
    rw [run.eq_2, run.eq_2, step_shift, herror]
    rfl
  | case3 st offset written c cs s hstep ih =>
    rw [run.eq_2, run.eq_2, step_shift, hstep]
    simp only [shifted_ok, Step.shift]
    rw [← ih]
    simp [Nat.add_right_comm]

/-- What is written before a run comes before what the run writes. -/
theorem run_append (st : State) (offset : Nat) (cs : List Char) (written before : List Token) :
    run st offset cs (written ++ before) = (run st offset cs written).map (before.reverse ++ ·) := by
  induction st, offset, cs, written using run.induct with
  | case1 st offset written =>
    rw [run.eq_1, run.eq_1]
    cases finish st offset <;> simp [bind, Except.bind, Except.map]
  | case2 st offset written c cs e herror =>
    rw [run.eq_2, run.eq_2, herror]
    rfl
  | case3 st offset written c cs s hstep ih =>
    rw [run.eq_2, run.eq_2, hstep]
    simpa only [List.append_assoc] using ih

/-! ## Places where a line is about to start -/

/-- A move to the end of a text, where a line is about to start, reads a line feed. -/
theorem Move.endsFeed {p q : Place} {ts : List Token} (h : Move p ts q) (hp : p.state.Regular)
    (hq : q.rest = []) (atStart : q.state.isInside = false) : EndsFeed p.rest := by
  cases h with
  | skip inside => cases inside.symm.trans atStart
  | feed | lineEnd => exact .inr (congrArg (fun rest => ('\n' :: rest).getLast?) hq)
  | token inside =>
    have begun := State.Coherent.atLineStart_eq hp.brackets inside
    simp only [State.isInside, Bool.not_eq_false', Bool.and_eq_true] at atStart
    cases begun.symm.trans atStart.1
  | emptyLine _ _ ends =>
    subst hq
    rw [List.append_nil]
    rcases ends with rfl | rfl
    · exact EndsFeed.append (.inr rfl) (by simp)
    · exact EndsFeed.append (.inr rfl) (by simp)
  | commentLine | trailing => cases atStart
  | enter _ _ _ enters => cases (isInside_of_enterLine enters).symm.trans atStart

theorem Reads.endsFeed {p q : Place} {ts : List Token} (h : Reads p ts q) (hp : p.state.Regular)
    (hq : q.rest = []) (atStart : q.state.isInside = false) : EndsFeed p.rest := by
  induction h with
  | refl => exact .inl hq
  | @step p m q ts us move reads ih =>
    obtain ⟨w, hw, -⟩ := move.rest_eq
    by_cases hm : m.rest = []
    · exact move.endsFeed hp hm (reads.eq_of_nil hm ▸ atStart)
    · exact hw ▸ (ih (move.regular hp) hq atStart).append hm

/-- Where a text begins, and where the lexer has read it and is about to start a line with no
bracket open, with the tokens that it has written by then. -/
structure AtLine (cs : List Char) (written : List Token) (st : State) : Prop where
  reads : ∃ mark rest, cs = mark ++ rest ∧ isMark mark ∧
    (mark = [] → rest.head? ≠ some '\ufeff') ∧
    Reads ⟨.initial, byteLength mark, rest⟩ written ⟨st, byteLength cs, []⟩
  starts : st.atLineStart = true
  closed : st.brackets = []

theorem AtLine.isInside {cs : List Char} {written : List Token} {st : State}
    (h : AtLine cs written st) : st.isInside = false := by
  simp [State.isInside, h.starts, h.closed]

theorem AtLine.lineOpen {cs : List Char} {written : List Token} {st : State}
    (h : AtLine cs written st) : st.lineOpen = false := by
  obtain ⟨mark, rest, -, -, -, reads⟩ := h.reads
  exact (reads.regular regular_initial).lineOpen h.starts

/-- A text that goes on behind such a place is read to there, and then on. -/
theorem AtLine.tokenize_append {a b : String} {written : List Token} {st : State}
    (h : AtLine a.toList written st) (hmark : a = "" → b.toList.head? ≠ some '\ufeff') :
    tokenize (a ++ b) = (run st (byteLength a.toList) b.toList []).map (written ++ ·) := by
  obtain ⟨mark, rest, htext, hbom, hhead, reads⟩ := h.reads
  have hends : EndsFeed rest := reads.endsFeed regular_initial rfl h.isInside
  have htext' : (a ++ b).toList = mark ++ (rest ++ b.toList) := by
    rw [String.toList_append, htext, List.append_assoc]
  have hhead' : mark = [] → (rest ++ b.toList).head? ≠ some '\ufeff' := by
    rintro rfl
    cases rest with
    | nil => exact hmark (String.toList_inj.mp htext)
    | cons => exact hhead rfl
  have hrun := (reads.append hends b.toList).run_eq []
  have hwritten := run_append st (byteLength a.toList) b.toList [] written.reverse
  rw [List.nil_append, List.reverse_reverse] at hwritten
  rw [tokenize_eq_run htext' hbom hhead', ← hwritten]
  simpa using hrun

/-- The lexer is at such a place at the end of every text that it reads and whose last line has
ended. -/
theorem exists_atLine {text : String} {out : List Token} (h : tokenize text = .ok out)
    (hend : EndsLine text.toList) : ∃ written st, AtLine text.toList written st := by
  obtain ⟨mark, cs, written, indents, htext, hbom, hhead, -, -, reads, -⟩ :=
    exists_reads_of_endsLine h hend
  exact ⟨written, _, ⟨mark, cs, htext, hbom, hhead, reads⟩, rfl, rfl⟩

/-! ## Lines without content -/

/-- How a line ends: with a line feed, or with the text if nothing stands behind it. -/
def IsLineEnd (feed behind : List Char) : Prop :=
  feed = ['\n'] ∨ feed = ['\r', '\n'] ∨ feed = [] ∧ behind = []

/-- Whether a line has no content before what stands behind it. -/
inductive IsBlankLine : List Char → List Char → Prop
  /-- White space alone. -/
  | blank {blanks feed behind} (indented : ∀ b ∈ blanks, isIndentation b = true)
      (ends : IsLineEnd feed behind) : IsBlankLine (blanks ++ feed) behind
  /-- White space and a comment. -/
  | comment {blanks words feed behind} (indented : ∀ b ∈ blanks, isIndentation b = true)
      (within : '\n' ∉ words) (ends : IsLineEnd feed behind) :
      IsBlankLine (blanks ++ ('#' :: (words ++ feed))) behind

/-- At the end of a text it does not matter whether its last line has begun. -/
theorem run_begun_nil (st : State) (offset : Nat) (written : List Token) :
    run st.begun offset [] written = run st offset [] written := by
  rw [run.eq_1, run.eq_1]
  rfl

/-- A line without content does not begin with a mark. -/
theorem IsBlankLine.head?_ne {line behind : List Char} (h : IsBlankLine line behind)
    (hmark : behind.head? ≠ some '\ufeff') : (line ++ behind).head? ≠ some '\ufeff' := by
  have hhead : ∀ {blanks rest : List Char}, (∀ b ∈ blanks, isIndentation b = true) →
      rest.head? ≠ some '\ufeff' → (blanks ++ rest).head? ≠ some '\ufeff' := by
    intro blanks rest indented hrest
    cases blanks with
    | nil => exact hrest
    | cons b blanks =>
      rintro hb
      cases (Option.some.inj hb) ▸ indented b List.mem_cons_self
  cases h with
  | blank indented ends =>
    rw [List.append_assoc]
    refine hhead indented ?_
    rcases ends with rfl | rfl | ⟨rfl, -⟩
    · nofun
    · nofun
    · exact hmark
  | comment indented =>
    rw [List.append_assoc]
    exact hhead indented nofun

section

variable {st : State} {blanks words : List Char}
  (atStart : st.isInside = false) (indented : ∀ b ∈ blanks, isIndentation b = true)

include atStart indented

theorem run_trailing (offset : Nat) :
    run st offset blanks [] = run st (offset + byteLength blanks) [] [] := by
  by_cases hne : blanks = []
  · subst hne
    rfl
  · rw [← run_begun_nil]
    exact (Move.trailing atStart hne indented).run_eq []

theorem Move.comment (offset : Nat) (behind : List Char) (within : '\n' ∉ words)
    (ends : ∀ c ∈ behind.head?, c = '\n') :
    Move ⟨st, offset, blanks ++ ('#' :: (words ++ behind))⟩ []
      ⟨st.begun, offset + byteLength (blanks ++ '#' :: words), behind⟩ := by
  refine .commentLine atStart indented (length_takeWhile_append.mpr ⟨fun c hc => ?_, fun c hc => ?_⟩)
  · exact decide_eq_true fun feed => within (feed ▸ hc)
  · exact decide_eq_false (not_not_intro (ends c hc))

/-- A comment and the line feed after it leave the line state as it was. -/
theorem run_comment (offset : Nat) (behind : List Char) (within : '\n' ∉ words)
    (lineOpen : st.lineOpen = false) :
    run st offset (blanks ++ ('#' :: (words ++ '\n' :: behind))) [] =
      run st (offset + byteLength (blanks ++ ('#' :: (words ++ ['\n'])))) behind [] := by
  obtain ⟨indents, brackets, atLineStart, isOpen⟩ := st
  obtain rfl : isOpen = false := lineOpen
  obtain ⟨rfl, rfl⟩ : atLineStart = true ∧ brackets = [] := by simpa [State.isInside] using atStart
  have hcomment := Move.comment atStart indented offset ('\n' :: behind) within (by simp)
  have hfeed := @Move.lineEnd ⟨indents, [], false, false⟩
    (offset + byteLength (blanks ++ '#' :: words)) behind rfl rfl
  rw [hcomment.run_eq [], List.reverse_nil, List.nil_append]
  refine (hfeed.run_eq []).trans ?_
  simp [lineEnding, Nat.add_assoc]
  rfl

end

/-- A line without content leaves no trace in a run. -/
theorem run_blank_line {st : State} {line behind : List Char} (offset : Nat)
    (hline : IsBlankLine line behind) (atStart : st.isInside = false)
    (lineOpen : st.lineOpen = false) :
    run st offset (line ++ behind) [] = run st (offset + byteLength line) behind [] := by
  cases hline with
  | @blank blanks feed _ indented ends =>
    rw [List.append_assoc]
    rcases ends with rfl | rfl | ⟨rfl, rfl⟩
    · exact (Move.emptyLine atStart indented (.inl rfl)).run_eq []
    · exact (Move.emptyLine atStart indented (.inr rfl)).run_eq []
    · simpa using run_trailing atStart indented offset
  | @comment blanks words feed _ indented within ends =>
    rcases ends with rfl | rfl | ⟨rfl, rfl⟩
    · simpa using run_comment atStart indented offset behind within lineOpen
    · -- the carriage return is the last character of the comment
      have within' : '\n' ∉ words ++ ['\r'] := by simpa using within
      simpa using run_comment atStart indented offset behind within' lineOpen
    · rw [← run_begun_nil]
      simpa using (Move.comment atStart indented offset [] within (by simp)).run_eq []

end Lexer

/-- A line without content between two lines shifts the tokens behind it, or the error there, and
changes nothing else. -/
theorem tokenize_blank_line {a line b : String} {written : List Token} {st : Lexer.State}
    (hstart : Lexer.AtLine a.toList written st) (hline : Lexer.IsBlankLine line.toList b.toList)
    (hmark : a = "" → b.toList.head? ≠ some '\ufeff') :
    let n := Text.byteLength line.toList
    (∃ e, tokenize (a ++ b) = .error e ∧ tokenize (a ++ line ++ b) = .error (e.shift n)) ∨
      ∃ after, tokenize (a ++ b) = .ok (written ++ after) ∧
        tokenize (a ++ line ++ b) = .ok (written ++ after.map (Token.shift n)) := by
  intro n
  have hmark' : a = "" → (line ++ b).toList.head? ≠ some '\ufeff' := by
    intro hempty
    rw [String.toList_append]
    exact hline.head?_ne (hmark hempty)
  rw [String.append_assoc, hstart.tokenize_append hmark, hstart.tokenize_append hmark',
    String.toList_append, Lexer.run_blank_line _ hline hstart.isInside hstart.lineOpen]
  have hshift := Lexer.run_shift st (Text.byteLength a.toList) n b.toList []
  rw [List.map_nil] at hshift
  rw [hshift]
  rcases Lexer.run st (Text.byteLength a.toList) b.toList [] with e | after
  · exact .inl ⟨e, rfl, rfl⟩
  · exact .inr ⟨after, rfl, rfl⟩

theorem tokenize_blank_line_in_block : ∃ written st,
    Lexer.AtLine "if a:\n    b = 1\n".toList written st ∧
    Lexer.IsBlankLine "\t# note\n".toList "    c = 2\nd = 3\n".toList ∧
    ∃ after, tokenize ("if a:\n    b = 1\n" ++ "    c = 2\nd = 3\n") = .ok (written ++ after) ∧
      tokenize ("if a:\n    b = 1\n" ++ "\t# note\n" ++ "    c = 2\nd = 3\n") =
        .ok (written ++ after.map (Token.shift 8)) := by
  have hfront : (tokenize "if a:\n    b = 1\n").isOk = true := by decide +kernel
  have hwhole : (tokenize ("if a:\n    b = 1\n" ++ "    c = 2\nd = 3\n")).isOk = true := by
    decide +kernel
  obtain ⟨out, hout⟩ : ∃ out, tokenize "if a:\n    b = 1\n" = .ok out := by
    cases h : tokenize "if a:\n    b = 1\n" with
    | error e =>
      rw [h] at hfront
      cases hfront
    | ok out => exact ⟨out, rfl⟩
  obtain ⟨written, st, hstart⟩ := Lexer.exists_atLine hout
    (.inr ⟨by decide +kernel, by decide +kernel, by decide +kernel⟩)
  have hline : Lexer.IsBlankLine "\t# note\n".toList "    c = 2\nd = 3\n".toList :=
    @Lexer.IsBlankLine.comment ['\t'] " note".toList ['\n'] _ (List.forall_mem_singleton.mpr rfl)
      (by decide +kernel) (.inl rfl)
  refine ⟨written, st, hstart, hline, ?_⟩
  rcases tokenize_blank_line hstart hline (by decide) with ⟨e, he, -⟩ | found
  · rw [he] at hwhole
    cases hwhole
  · exact found

end WorkflowAudit.Script
