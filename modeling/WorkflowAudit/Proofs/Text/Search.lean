import Mathlib.Data.List.TakeWhile
import WorkflowAudit.Text.Search

/-!
# What a search finds

A text is cut at the first separator or behind the last one. The two meet where it has only one.
-/

namespace WorkflowAudit.Text

theorem occursIn_iff {needle cs : List Char} : occursIn needle cs = true ↔ needle <:+: cs := by
  induction cs with
  | nil => simp [occursIn]
  | cons c cs ih =>
      rw [occursIn, Bool.or_eq_true, List.isPrefixOf_iff_prefix, ih, List.infix_cons_iff]

/-! ## First and last occurrence of a separator -/

section Separator

variable {separator : Char} {text : String} {before after : List Char}

theorem passes_of_not_mem (first : separator ∉ before) :
    ∀ c ∈ before, decide (c ≠ separator) = true := by
  intro c inside
  simpa using fun same : c = separator => first (same ▸ inside)

/-- A text is cut at a place that has no separator before it. -/
theorem cutAt?_eq_some (cut : text.toList = before ++ separator :: after)
    (first : separator ∉ before) :
    cutAt? separator text = some (String.ofList before, String.ofList after) := by
  have taken : text.toList.takeWhile (· ≠ separator) = before := by
    rw [cut, List.takeWhile_append_of_pos (passes_of_not_mem first)]
    simp
  have dropped : text.toList.dropWhile (· ≠ separator) = separator :: after := by
    rw [cut, List.dropWhile_append_of_pos (passes_of_not_mem first)]
    simp
  simp only [cutAt?, taken, dropped]

/-- What follows the last separator has none. -/
theorem afterLast_eq (cut : text.toList = before ++ separator :: after)
    (last : separator ∉ after) : afterLast separator text = String.ofList after := by
  have none : separator ∉ after.reverse := mt List.mem_reverse.mp last
  have taken : text.toList.reverse.takeWhile (· ≠ separator) = after.reverse := by
    rw [cut, List.reverse_append, List.reverse_cons, List.append_assoc,
      List.takeWhile_append_of_pos (passes_of_not_mem none)]
    simp
  simp only [afterLast, taken, List.reverse_reverse]

/-- Two texts that are the same are cut alike at their last separator. -/
theorem append_inj_of_last {before' after' : List Char}
    (same : before ++ separator :: after = before' ++ separator :: after')
    (last : separator ∉ after) (last' : separator ∉ after') : before = before' ∧ after = after' := by
  have first : afterLast separator (.ofList (before ++ separator :: after)) = _ :=
    afterLast_eq String.toList_ofList last
  rw [same, afterLast_eq String.toList_ofList last', String.ofList_inj] at first
  rw [← first, List.append_cancel_right_eq] at same
  exact ⟨same, first.symm⟩

end Separator

end WorkflowAudit.Text
