import Mathlib.Logic.Function.Iterate
import Mathlib.Tactic.Push
import WorkflowAudit.Lint.Linter

/-! # When fixing comes to rest

A file is settled when no enabled rule applies anything to it. A pass over the rules leaves
settled files alone and counts at least one change on all others, so the limited number of passes
ends where the unlimited sequence of passes stands at that number. The result is a fixpoint exactly
when that sequence has come to rest by then; the limit itself does not make it rest.
-/

namespace WorkflowAudit.Lint

/-- A rule applies nothing to a file. -/
def Idle (r : Rule SourceUnit) (u : SourceUnit) : Prop :=
  ∀ mend, r.fix? = some mend → (mend u).applied = 0

/-- No enabled rule applies anything to a file. -/
def Settled (rules : RuleSet SourceUnit) (u : SourceUnit) : Prop :=
  ∀ r ∈ rules.enabled, Idle r u

/-- The file that a number of passes leaves, one after another and without regard to what they
apply. -/
def afterPasses (rules : RuleSet SourceUnit) (passes : Nat) (u : SourceUnit) : SourceUnit :=
  (fun v => (fixPass rules v).1)^[passes] u

/-! ## One pass -/

section Pass

variable {r : Rule SourceUnit} {rs : List (Rule SourceUnit)} {state : SourceUnit × Nat}

theorem fixStep_of_idle (idle : Idle r state.1) : fixStep state r = state := by
  simp only [fixStep]
  cases found : r.fix? with
  | none => rfl
  | some mend => simp only [idle mend found, if_true]

theorem lt_fixStep (busy : ¬ Idle r state.1) : state.2 < (fixStep state r).2 := by
  simp only [Idle] at busy
  push Not at busy
  obtain ⟨mend, found, applies⟩ := busy
  simp only [fixStep, found, applies, if_false]
  exact Nat.lt_add_of_pos_right (Nat.pos_of_ne_zero applies)

theorem le_fixStep : state.2 ≤ (fixStep state r).2 := by
  by_cases idle : Idle r state.1
  · exact Nat.le_of_eq (congrArg Prod.snd (fixStep_of_idle idle)).symm
  · exact Nat.le_of_lt (lt_fixStep idle)

theorem le_foldl_fixStep : state.2 ≤ (rs.foldl fixStep state).2 := by
  induction rs generalizing state with
  | nil => exact Nat.le_refl _
  | cons r rs ih => exact Nat.le_trans le_fixStep ih

theorem foldl_fixStep_of_idle (idle : ∀ r ∈ rs, Idle r state.1) :
    rs.foldl fixStep state = state := by
  induction rs with
  | nil => rfl
  | cons r rs ih =>
      rw [List.foldl_cons, fixStep_of_idle (idle r List.mem_cons_self)]
      exact ih fun other member => idle other (List.mem_cons_of_mem r member)

/-- Where rules count nothing, none of them had anything to apply: the count never falls, and
until it rises the file is the same. -/
theorem idle_of_foldl_fixStep (still : (rs.foldl fixStep state).2 = state.2) :
    ∀ r ∈ rs, Idle r state.1 := by
  induction rs with
  | nil => simp
  | cons r rs ih =>
      rw [List.foldl_cons] at still
      have idle : Idle r state.1 := by
        by_contra busy
        have rises := lt_fixStep busy
        have grows : (fixStep state r).2 ≤ (rs.foldl fixStep (fixStep state r)).2 :=
          le_foldl_fixStep
        omega
      rw [fixStep_of_idle idle] at still
      intro other member
      rcases List.mem_cons.mp member with rfl | later
      · exact idle
      · exact ih still other later

variable {rules : RuleSet SourceUnit} {u : SourceUnit}

theorem fixPass_of_settled (settled : Settled rules u) : fixPass rules u = (u, 0) :=
  foldl_fixStep_of_idle settled

theorem fixPass_count_eq_zero_iff : (fixPass rules u).2 = 0 ↔ Settled rules u :=
  ⟨idle_of_foldl_fixStep, fun settled => congrArg Prod.snd (fixPass_of_settled settled)⟩

end Pass

/-! ## Texts and files -/

/-- A file with the tree of its own text. -/
def IsRead (u : SourceUnit) : Prop := u = .ofText u.path u.text

theorem isRead_ofText (path text : String) : IsRead (.ofText path text) := rfl

theorem fixStep_read {state : SourceUnit × Nat} (read : IsRead state.1) (r : Rule SourceUnit) :
    IsRead (fixStep state r).1 ∧ (fixStep state r).1.path = state.1.path := by
  simp only [fixStep]
  cases r.fix? with
  | none => exact ⟨read, rfl⟩
  | some mend =>
      simp only
      split
      · exact ⟨read, rfl⟩
      · exact ⟨isRead_ofText _ _, rfl⟩

theorem foldl_fixStep_read (rs : List (Rule SourceUnit)) {state : SourceUnit × Nat}
    (read : IsRead state.1) :
    IsRead (rs.foldl fixStep state).1 ∧ (rs.foldl fixStep state).1.path = state.1.path := by
  induction rs generalizing state with
  | nil => exact ⟨read, rfl⟩
  | cons r rs ih =>
      obtain ⟨next, path⟩ := fixStep_read read r
      obtain ⟨last, samePath⟩ := ih next
      exact ⟨last, samePath.trans path⟩

theorem afterPasses_read (rules : RuleSet SourceUnit) (passes : Nat) {u : SourceUnit}
    (read : IsRead u) :
    IsRead (afterPasses rules passes u) ∧ (afterPasses rules passes u).path = u.path := by
  induction passes generalizing u with
  | zero => exact ⟨read, rfl⟩
  | succ passes ih =>
      have start : IsRead (u, 0).1 := read
      obtain ⟨next, path⟩ := foldl_fixStep_read rules.enabled start
      obtain ⟨last, samePath⟩ := ih next
      exact ⟨last, samePath.trans path⟩

/-! ## Files that do not parse -/

/-- A rule finds nothing to apply in a file that does not parse. -/
def NeedsTree (r : Rule SourceUnit) : Prop := ∀ u : SourceUnit, u.tree = none → Idle r u

theorem needsTree_check {id description : String} {category : Category} {severity : Severity}
    {findings : SourceUnit → List (String × Location × Option String)} :
    NeedsTree (check id description category severity findings) := by
  intro u _ mend found
  simp [check] at found

theorem needsTree_checkWithEdits {id description : String} {category : Category}
    {severity : Severity} {findings : SourceUnit → List (String × Location × Option String)}
    {edits : SourceUnit → EditBuffer} (none : ∀ u, u.tree = none → edits u = .empty) :
    NeedsTree (checkWithEdits id description category severity findings edits) := by
  intro u missing mend found
  simp only [checkWithEdits, Option.some.injEq] at found
  subst found
  simp only [none u missing]
  rfl

section NoTree

variable {u : SourceUnit} (missing : u.tree = none)

include missing

theorem callsTo_of_no_tree (constructor : String) : u.callsTo constructor = [] := by
  simp [SourceUnit.callsTo, missing]

theorem stepActions_of_no_tree : stepActions u = [] := by
  simp [stepActions, callsTo_of_no_tree missing]

theorem wrapperEdits_of_no_tree : wrapperEdits u = .empty := by
  simp [wrapperEdits, stepActions_of_no_tree missing]

theorem pinEdits_of_no_tree : pinEdits u = .empty := by
  simp [pinEdits, stepActions_of_no_tree missing]

theorem statusEdits_of_no_tree : statusEdits u = .empty := by
  simp [statusEdits, statusConditions, conditions, callsTo_of_no_tree missing, sortOn, sortBy]

theorem secretEdits_of_no_tree : secretEdits u = .empty := by
  simp [secretEdits, secretLiterals, SourceUnit.stringLiterals, missing]

theorem extractionEdits_of_no_tree (x : Extraction) : x.edits u = .empty := by
  simp [Extraction.edits, missing]

end NoTree

theorem needsTree_of_mem_rules (s : LintSettings) : ∀ r ∈ (rules s).rules, NeedsTree r := by
  simp only [rules, List.forall_mem_cons, List.not_mem_nil, false_implies, implies_true, and_true]
  refine ⟨?_, ?_, ?_, ?_, ?_, ?_, ?_, ?_, ?_, ?_, ?_, ?_, ?_, ?_, ?_, ?_⟩
  all_goals first
    | exact needsTree_check
    | exact needsTree_checkWithEdits fun _ => wrapperEdits_of_no_tree
    | exact needsTree_checkWithEdits fun _ => statusEdits_of_no_tree
    | exact needsTree_checkWithEdits fun _ => secretEdits_of_no_tree
    | exact needsTree_checkWithEdits fun _ => pinEdits_of_no_tree
    | exact needsTree_checkWithEdits fun _ missing => extractionEdits_of_no_tree missing _

theorem settled_of_not_parses (s : LintSettings) {u : SourceUnit} (bad : u.parses = false) :
    Settled (rules s) u := by
  intro r enabled
  have missing : u.tree = none := by simpa [SourceUnit.parses] using bad
  exact needsTree_of_mem_rules s r (List.mem_filter.mp enabled).1 u missing

/-! ## Many passes -/

section Passes

variable {rules : RuleSet SourceUnit} {u : SourceUnit}

theorem afterPasses_succ (passes : Nat) :
    afterPasses rules (passes + 1) u = afterPasses rules passes (fixPass rules u).1 :=
  rfl

/-- A settled file stays as it is in all later passes. -/
theorem afterPasses_of_settled (settled : Settled rules u) (passes : Nat) :
    afterPasses rules passes u = u := by
  induction passes with
  | zero => rfl
  | succ passes ih => rw [afterPasses_succ, fixPass_of_settled settled, ih]

theorem settled_afterPasses_of_le {some all : Nat} (le : some ≤ all)
    (settled : Settled rules (afterPasses rules some u)) :
    Settled rules (afterPasses rules all u) := by
  obtain ⟨more, rfl⟩ := Nat.exists_eq_add_of_le' le
  have rest : afterPasses rules (more + some) u = afterPasses rules some u :=
    (Function.iterate_add_apply _ more some u).trans (afterPasses_of_settled settled more)
  rwa [rest]

theorem fixPasses_of_settled (settled : Settled rules u) (passes : Nat) :
    fixPasses rules passes u = (u, 0) := by
  cases passes with
  | zero => rfl
  | succ passes => simp [fixPasses, fixPass_of_settled settled]

variable (quiet : ∀ v : SourceUnit, v.parses = false → Settled rules v)

include quiet

theorem fixPasses_succ_of_busy (busy : ¬ Settled rules u) (passes : Nat) :
    fixPasses rules (passes + 1) u =
      ((fixPasses rules passes (fixPass rules u).1).1,
        (fixPass rules u).2 + (fixPasses rules passes (fixPass rules u).1).2) := by
  have parses : u.parses = true := by
    by_contra bad
    exact busy (quiet u (by simpa using bad))
  have counts := mt fixPass_count_eq_zero_iff.mp busy
  simp only [fixPasses, parses, counts, Bool.not_true, Bool.false_eq_true, if_false]

/-- Stopping at the first pass that applies nothing leaves what all the passes would. -/
theorem fixPasses_fst (passes : Nat) :
    (fixPasses rules passes u).1 = afterPasses rules passes u := by
  induction passes generalizing u with
  | zero => rfl
  | succ passes ih =>
      by_cases settled : Settled rules u
      · rw [fixPasses_of_settled settled, afterPasses_of_settled settled]
      · rw [fixPasses_succ_of_busy quiet settled, ih, afterPasses_succ]

/-- Each pass over a file that is not settled counts. -/
theorem settled_or_le_fixPasses (passes : Nat) :
    Settled rules (afterPasses rules passes u) ∨ passes ≤ (fixPasses rules passes u).2 := by
  induction passes generalizing u with
  | zero => exact .inr (Nat.zero_le _)
  | succ passes ih =>
      by_cases settled : Settled rules u
      · exact .inl (settled_afterPasses_of_le (Nat.zero_le _) settled)
      · rw [afterPasses_succ]
        refine ih.imp_right fun le => ?_
        have counts := mt fixPass_count_eq_zero_iff.mp settled
        rw [fixPasses_succ_of_busy quiet settled]
        omega

theorem fixPasses_count_eq_zero_iff {passes : Nat} (positive : 0 < passes) :
    (fixPasses rules passes u).2 = 0 ↔ Settled rules u := by
  obtain ⟨fewer, rfl⟩ := Nat.exists_eq_add_of_lt positive
  rw [Nat.zero_add]
  constructor
  · intro zero
    by_contra busy
    have counts := mt fixPass_count_eq_zero_iff.mp busy
    rw [fixPasses_succ_of_busy quiet busy] at zero
    omega
  · intro settled
    rw [fixPasses_of_settled settled]

/-! ## Fixing -/

theorem fix_source : (fix rules u).source = (afterPasses rules maxFixPasses u).text := by
  rw [← fixPasses_fst quiet maxFixPasses]
  rfl

theorem fix_applied_eq_zero_iff : (fix rules u).applied = 0 ↔ Settled rules u := by
  have positive : 0 < maxFixPasses := by decide
  exact fixPasses_count_eq_zero_iff quiet positive

/-- The fixed text, read again, is the file that the passes left. -/
theorem ofText_fix_source (read : IsRead u) :
    .ofText u.path (fix rules u).source = afterPasses rules maxFixPasses u := by
  obtain ⟨reread, path⟩ := afterPasses_read rules maxFixPasses read
  rw [fix_source quiet, ← path]
  exact reread.symm

end Passes

/-- A fixed text, fixed again, stays the same with nothing applied exactly when no enabled rule
applies anything to it. This holds exactly when some number of passes within the limit settles
the text. Otherwise every pass applied something. -/
theorem fix_fixed_iff_settles (s : LintSettings) (path text : String) :
    let first := fix (rules s) (.ofText path text)
    let again := fix (rules s) (.ofText path first.source)
    (again.source = first.source ∧ again.applied = 0 ↔
      Settled (rules s) (.ofText path first.source)) ∧
    (Settled (rules s) (.ofText path first.source) ↔
      ∃ passes ≤ maxFixPasses,
        Settled (rules s) (afterPasses (rules s) passes (.ofText path text))) ∧
    (Settled (rules s) (.ofText path first.source) ∨ maxFixPasses ≤ first.applied) := by
  intro first again
  have quiet : ∀ v : SourceUnit, v.parses = false → Settled (rules s) v :=
    fun _ => settled_of_not_parses s
  have last : SourceUnit.ofText path first.source =
      afterPasses (rules s) maxFixPasses (.ofText path text) :=
    ofText_fix_source quiet (isRead_ofText path text)
  have rests : again.applied = 0 ↔ Settled (rules s) (.ofText path first.source) :=
    fix_applied_eq_zero_iff quiet
  refine ⟨⟨fun stays => rests.mp stays.2, fun settled => ⟨?_, rests.mpr settled⟩⟩, ?_, ?_⟩
  · have source := fix_source quiet (u := .ofText path first.source)
    rw [afterPasses_of_settled settled] at source
    exact source
  · rw [last]
    refine ⟨fun settled => ⟨maxFixPasses, Nat.le_refl _, settled⟩, ?_⟩
    rintro ⟨passes, within, settled⟩
    exact settled_afterPasses_of_le within settled
  · rw [last]
    exact settled_or_le_fixPasses quiet maxFixPasses

end WorkflowAudit.Lint
