import WorkflowAudit.Proofs.Script.Reading

/-!
# Where the lexer fails

A run fails at a place from which no move leads on: no piece begins there, a bracket is closed that
was not opened, a line returns to the column of no block, or a bracket is open where the text
ends. A text fails exactly when some reading of it leads to such a place.
-/

namespace WorkflowAudit.Script

namespace SyntaxFault

open Lexer

/-- Whether a fault is one that the lexer finds. -/
def isLexical : SyntaxFault → Bool
  | .unterminatedString | .strayBackslash | .invalidCharacter _ | .unmatchedBracket _
  | .unclosedBracket _ | .inconsistentDedent => true
  | _ => false

theorem isLexical_of_front {c : Char} {cs : List Char} {fault : SyntaxFault}
    (h : front c cs = .error fault) : fault.isLexical = true := by
  unfold front at h
  dsimp only at h
  repeat' split at h
  all_goals cases h
  all_goals rfl

theorem isLexical_of_brackets? {brackets : List Char} {c : Char} {fault : SyntaxFault}
    (h : brackets? brackets c = .error fault) : fault.isLexical = true := by
  unfold brackets? at h
  repeat' split at h
  all_goals cases h
  all_goals rfl

theorem isLexical_of_enterLine {st : State} {column offset : Nat} {e : SyntaxError}
    (h : enterLine st column offset = .error e) : e.fault.isLexical = true := by
  unfold enterLine at h
  dsimp only at h
  repeat' split at h
  all_goals cases h
  rfl

end SyntaxFault

namespace Lexer

open Text

/-- Places at which every run fails. -/
inductive Stuck : Place → Prop
  /-- No piece begins here. -/
  | piece {st offset c cs fault} (inside : st.isInside = true) (fails : front c cs = .error fault) :
      Stuck ⟨st, offset, c :: cs⟩
  /-- A bracket is closed that was not opened. -/
  | bracket {st offset c cs n fault} (inside : st.isInside = true)
      (reads : front c cs = .ok (.token .op, n))
      (unmatched : brackets? st.brackets c = .error fault) : Stuck ⟨st, offset, c :: cs⟩
  /-- A line returns to no enclosing block. -/
  | column {st offset blanks rest e} (atStart : st.isInside = false)
      (indented : ∀ b ∈ blanks, isIndentation b = true) (content : hasContent rest = true)
      (misses : enterLine st.begun (blanks.foldl advanceColumn 0) (offset + byteLength blanks) =
        .error e) :
      Stuck ⟨st, offset, blanks ++ rest⟩
  /-- The text ends between brackets. -/
  | unclosed {st offset} (inBrackets : st.brackets ≠ []) : Stuck ⟨st, offset, []⟩

theorem run_of_failing_step {st : State} {offset : Nat} {c : Char} {cs : List Char}
    {e : SyntaxError} (written : List Token) (h : step st offset c cs = .error e) :
    run st offset (c :: cs) written = .error e := by
  rw [run.eq_2, h]

theorem Stuck.run_eq {p : Place} (h : Stuck p) (written : List Token) :
    ∃ e, run p.state p.offset p.rest written = .error e ∧ e.fault.isLexical = true := by
  cases h with
  | @piece st offset c cs fault inside fails =>
    refine ⟨⟨fault, offset⟩, run_of_failing_step written ?_, SyntaxFault.isLexical_of_front fails⟩
    rw [step_of_isInside offset c cs inside, pieceStep, fails]
  | @bracket st offset c cs n fault inside reads unmatched =>
    refine ⟨⟨fault, offset⟩, run_of_failing_step written ?_,
      SyntaxFault.isLexical_of_brackets? unmatched⟩
    rw [step_of_isInside offset c cs inside, pieceStep, reads]
    simp only [unmatched]
  | @column st offset blanks rest e atStart indented content misses =>
    obtain ⟨c, cs, rfl⟩ := List.exists_cons_of_ne_nil (l := rest) (by rintro rfl; cases content)
    obtain ⟨hblank, hfeed, hcomment, hreturn⟩ := hasContent_cons.mp content
    obtain ⟨htake, hdrop⟩ := takeWhile_dropWhile_append indented
      (show ∀ d ∈ (c :: cs).head?, isIndentation d = false by simpa using hblank)
    have hline : lineStep st offset (blanks ++ c :: cs) = .error e := by
      unfold lineStep
      unfold State.begun at misses
      simp only [htake, hdrop, misses]
      rfl
    obtain ⟨d, ds, hcons⟩ := List.exists_cons_of_ne_nil (l := blanks ++ c :: cs) (by simp)
    rw [State.isInside, Bool.not_eq_false'] at atStart
    simp only [hcons] at hline ⊢
    exact ⟨e, run_of_failing_step written (by rw [step, if_pos atStart, hline]),
      SyntaxFault.isLexical_of_enterLine misses⟩
  | @unclosed st offset inBrackets =>
    obtain ⟨b, outer, hbrackets⟩ := List.exists_cons_of_ne_nil inBrackets
    refine ⟨⟨.unclosedBracket b, offset⟩, ?_, rfl⟩
    simp only [run.eq_1, finish, hbrackets]
    rfl

theorem stuck_of_pieceStep {st : State} {offset : Nat} {c : Char} {cs : List Char}
    {e : SyntaxError} (inside : st.isInside = true) (h : pieceStep st offset c cs = .error e) :
    Stuck ⟨st, offset, c :: cs⟩ := by
  unfold pieceStep at h
  split at h
  case h_1 fault fails => exact .piece inside fails
  case h_2 => cases h
  case h_3 =>
    dsimp only at h
    split at h <;> cases h
  case h_4 kind n reads =>
    dsimp only at h
    split at h
    case h_1 fault unmatched => exact .bracket inside reads unmatched
    all_goals cases h

/-- A step at the start of a line fails where the line begins, or at its first piece. -/
theorem exists_stuck_of_lineStep {st : State} {offset : Nat} {text : List Char} {e : SyntaxError}
    (atStart : st.isInside = false) (h : lineStep st offset text = .error e) :
    ∃ ts q, Reads ⟨st, offset, text⟩ ts q ∧ Stuck q := by
  have indented : ∀ b ∈ text.takeWhile isIndentation, isIndentation b = true :=
    fun b hb => List.mem_takeWhile_imp hb
  have hsplit := List.takeWhile_append_dropWhile (p := isIndentation) (l := text)
  have hhead := List.head?_dropWhile_not isIndentation text
  unfold lineStep at h
  dsimp only at h
  split at h
  case h_5 c after hfeed hreturn hcomment hcontent =>
    rw [hcontent] at hsplit hhead
    have content : hasContent (c :: after) = true := by
      unfold hasContent
      split <;> simp_all
    simp only [bind, Except.bind] at h
    split at h
    case h_1 misses =>
      rw [← hsplit]
      exact ⟨[], _, .refl _, .column atStart indented content misses⟩
    case h_2 entered henter =>
      obtain ⟨st', written⟩ := entered
      split at h
      case h_1 hpiece =>
        have henters := Move.enter atStart indented content henter
        rw [hsplit] at henters
        exact ⟨_, _, henters.reads, stuck_of_pieceStep (isInside_of_enterLine henter) hpiece⟩
      case h_2 => cases h
  all_goals cases h

/-- A run that fails reads a part of the text, up to where it fails. -/
theorem exists_stuck_of_run {st : State} {offset : Nat} {cs : List Char} {written : List Token}
    {e : SyntaxError} (h : run st offset cs written = .error e) :
    ∃ ts q, Reads ⟨st, offset, cs⟩ ts q ∧ Stuck q := by
  induction st, offset, cs, written using run.induct with
  | case1 st offset written =>
    refine ⟨[], _, .refl _, .unclosed fun hnil => ?_⟩
    simp only [run.eq_1, finish, hnil] at h
    cases h
  | case2 st offset written c cs e' herror =>
    unfold step at herror
    split at herror
    case isTrue hstart =>
      exact exists_stuck_of_lineStep (by rw [State.isInside, hstart]; rfl) herror
    case isFalse hinside =>
      exact ⟨[], _, .refl _, stuck_of_pieceStep
        (by rw [State.isInside, (Bool.not_eq_true _).mp hinside]; rfl) herror⟩
  | case3 st offset written c cs s hstep ih =>
    rw [run.eq_2, hstep] at h
    obtain ⟨ts, q, hreads, hstuck⟩ := ih h
    exact ⟨s.tokens ++ ts, q, (reads_of_step hstep).trans hreads, hstuck⟩

/-- A run that fails reports a fault of the lexer. -/
theorem isLexical_of_run {st : State} {offset : Nat} {cs : List Char} {written : List Token}
    {e : SyntaxError} (h : run st offset cs written = .error e) : e.fault.isLexical = true := by
  obtain ⟨ts, q, hreads, hstuck⟩ := exists_stuck_of_run h
  obtain ⟨e', he', hlexical⟩ := hstuck.run_eq (ts.reverse ++ written)
  rw [← hreads.run_eq written] at he'
  obtain rfl : e = e' := Except.error.inj (h.symm.trans he')
  exact hlexical

end Lexer

end WorkflowAudit.Script
