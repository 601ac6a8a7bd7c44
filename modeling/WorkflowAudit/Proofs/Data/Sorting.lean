import Mathlib.Data.List.Sort
import WorkflowAudit.Data.Sorting

/-! # Sorted lists

Sorting only moves elements. The result is in order if the order is total and transitive, and elements
that were in order before keep their places.
-/

namespace WorkflowAudit

variable {α : Type} (le : α → α → Bool)

theorem insertSorted_eq_orderedInsert (x : α) (xs : List α) :
    insertSorted le x xs = xs.orderedInsert (fun a b => le a b) x := by
  induction xs with
  | nil => rfl
  | cons y ys ih => simp [insertSorted, List.orderedInsert, ih]

theorem sortBy_eq_insertionSort (xs : List α) :
    sortBy le xs = xs.insertionSort (fun a b => le a b) := by
  induction xs with
  | nil => rfl
  | cons x xs ih =>
    have hstep : sortBy le (x :: xs) = insertSorted le x (sortBy le xs) := rfl
    rw [hstep, ih, insertSorted_eq_orderedInsert, List.insertionSort_cons]

theorem perm_sortBy (xs : List α) : (sortBy le xs).Perm xs := by
  rw [sortBy_eq_insertionSort]
  exact List.perm_insertionSort _ xs

/-- Sorting is stable: elements that are in order already stay as they are. -/
theorem filter_sortBy {p : α → Bool} {xs : List α}
    (ordered : (xs.filter p).Pairwise fun a b => le a b = true) :
    (sortBy le xs).filter p = xs.filter p := by
  have kept : (xs.filter p).Sublist (sortBy le xs) := by
    rw [sortBy_eq_insertionSort]
    exact List.sublist_insertionSort ordered List.filter_sublist
  have inside : (xs.filter p).Sublist ((sortBy le xs).filter p) := by
    simpa using kept.filter p
  exact (inside.eq_of_length ((perm_sortBy le xs).filter p).length_eq.symm).symm

theorem pairwise_sortBy (total : ∀ a b, le a b = true ∨ le b a = true)
    (trans : ∀ a b c, le a b = true → le b c = true → le a c = true) (xs : List α) :
    (sortBy le xs).Pairwise fun a b => le a b = true := by
  have : Std.Total fun a b => le a b = true := ⟨total⟩
  have : IsTrans α fun a b => le a b = true := ⟨trans⟩
  rw [sortBy_eq_insertionSort]
  exact List.pairwise_insertionSort _ xs

theorem map_sortBy {β : Type} (f : β → α) (xs : List β) :
    (sortBy (fun a b => le (f a) (f b)) xs).map f = sortBy le (xs.map f) := by
  rw [sortBy_eq_insertionSort, sortBy_eq_insertionSort]
  exact List.map_insertionSort _ _ f xs fun _ _ _ _ => Iff.rfl

end WorkflowAudit
