import Mathlib.Data.List.Nodup

/-! # Look-up in lists of pairs

What is looked up stands in the list. The converse holds where no key stands twice.
-/

namespace WorkflowAudit

variable {κ α : Type} [DecidableEq κ] {pairs : List (κ × α)} {key : κ} {value : α}

theorem mem_of_lookup (known : pairs.lookup key = some value) : (key, value) ∈ pairs := by
  obtain ⟨before, after, rfl, -⟩ := List.lookup_eq_some_iff.mp known
  simp

theorem lookup_eq_some_iff_mem (distinct : (pairs.map Prod.fst).Nodup) :
    pairs.lookup key = some value ↔ (key, value) ∈ pairs := by
  refine ⟨mem_of_lookup, fun member => ?_⟩
  obtain ⟨before, after, rfl⟩ := List.mem_iff_append.mp member
  rw [List.map_append, List.map_cons, List.nodup_middle, List.nodup_cons] at distinct
  refine List.lookup_eq_some_iff.mpr ⟨before, after, rfl, fun other inside => ?_⟩
  have apart : key ≠ other.1 := fun same =>
    distinct.1 (List.mem_append_left _ (List.mem_map.mpr ⟨other, inside, same.symm⟩))
  simpa using apart

end WorkflowAudit
