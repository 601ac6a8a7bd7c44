import Mathlib.Data.List.Basic
import WorkflowAudit.Policy.Report
import WorkflowAudit.Proofs.Data.Lookup

/-! # What a report counts

A report counts the violations of each severity that occurs. The severities that occur stand in
increasing order, so the last of them is the highest, and a report passes below a floor exactly when
all of its violations are below it.
-/

namespace WorkflowAudit

namespace Severity

theorem mem_all (s : Severity) : s ∈ all := by cases s <;> decide

theorem pairwise_rank_all : all.Pairwise fun a b => a.rank < b.rank := by decide

end Severity

namespace PolicyReport

variable {violations : List Violation} {s floor : Severity} {n : Nat}

/-- How many violations have a severity. -/
def occurrences (violations : List Violation) (s : Severity) : Nat :=
  violations.countP fun v => v.severity = s

theorem occurrences_pos_iff : 0 < occurrences violations s ↔ ∃ v ∈ violations, v.severity = s := by
  simp [occurrences, List.countP_pos_iff]

theorem tally_eq (violations : List Violation) :
    tally violations =
      (Severity.all.filter fun s => 0 < occurrences violations s).map
        fun s => (s, occurrences violations s) := by
  have counted : ∀ s, (violations.filter fun v => v.severity = s).length = occurrences violations s :=
    fun s => List.countP_eq_length_filter.symm
  simp only [tally, counted]
  induction Severity.all with
  | nil => rfl
  | cons s others ih =>
      rw [List.filterMap_cons, List.filter_cons, ih]
      by_cases none : occurrences violations s = 0
      · simp [none]
      · simp [none, Nat.pos_of_ne_zero none]

theorem mem_tally_iff :
    (s, n) ∈ tally violations ↔ n = occurrences violations s ∧ 0 < n := by
  simp only [tally_eq, List.mem_map, List.mem_filter, Severity.mem_all, true_and,
    decide_eq_true_eq, Prod.mk.injEq]
  constructor
  · rintro ⟨_, some, rfl, rfl⟩
    exact ⟨rfl, some⟩
  · rintro ⟨rfl, some⟩
    exact ⟨s, some, rfl, rfl⟩

/-- The severities that occur, in increasing order. -/
theorem pairwise_tally (violations : List Violation) :
    (tally violations).Pairwise fun a b => a.1.rank < b.1.rank := by
  rw [tally_eq, List.pairwise_map]
  exact Severity.pairwise_rank_all.filter _

theorem passed_ofViolations_iff {workflow : String} :
    (ofViolations workflow violations).passed floor = true ↔
      ∀ v ∈ violations, v.severity.rank < floor.rank := by
  have occurs : ∀ v ∈ violations, (v.severity, occurrences violations v.severity) ∈ tally violations :=
    fun v member => mem_tally_iff.mpr ⟨rfl, occurrences_pos_iff.mpr ⟨v, member, rfl⟩⟩
  simp only [passed, maxSeverity, ofViolations]
  rcases List.eq_nil_or_concat (tally violations) with none | ⟨lower, highest, counted⟩
  · have clean : violations = [] := by
      by_contra some
      obtain ⟨v, member⟩ := List.exists_mem_of_ne_nil _ some
      have counted := occurs v member
      rw [none] at counted
      cases counted
    rw [none, clean]
    simp
  · obtain ⟨worst, times⟩ := highest
    have top : ∀ v ∈ violations, v.severity.rank ≤ worst.rank := by
      intro v member
      have ordered := pairwise_tally violations
      have among := occurs v member
      rw [counted, List.concat_eq_append] at ordered among
      rcases List.mem_append.mp among with before | here
      · exact Nat.le_of_lt
          ((List.pairwise_append.mp ordered).2.2 _ before _ (List.mem_singleton_self _))
      · obtain ⟨same, -⟩ := Prod.mk.inj (List.mem_singleton.mp here)
        exact Nat.le_of_eq (congrArg Severity.rank same)
    have attained : ∃ v ∈ violations, v.severity = worst := by
      have here : (worst, times) ∈ tally violations := by simp [counted]
      obtain ⟨rfl, some⟩ := mem_tally_iff.mp here
      exact occurrences_pos_iff.mp some
    simp only [counted, List.concat_eq_append, List.getLast?_concat, Option.map_some,
      Option.all_some, Severity.atLeast, Bool.not_eq_true', decide_eq_false_iff_not, Nat.not_le]
    constructor
    · exact fun below v member => Nat.lt_of_le_of_lt (top v member) below
    · intro below
      obtain ⟨v, member, same⟩ := attained
      exact same ▸ below v member

theorem count_ofViolations (workflow : String) (violations : List Violation) (s : Severity) :
    (ofViolations workflow violations).count s = occurrences violations s := by
  simp only [count, ofViolations]
  cases found : (tally violations).lookup s with
  | none =>
      have absent := List.lookup_eq_none_iff.mp found
      by_contra some
      have positive : 0 < occurrences violations s := Nat.pos_of_ne_zero (Ne.symm some)
      have counted := absent _ (mem_tally_iff.mpr ⟨rfl, positive⟩)
      simp at counted
  | some n =>
      exact (mem_tally_iff.mp (mem_of_lookup found)).1

end PolicyReport

end WorkflowAudit
