/-!
# Sorting

Insertion into sorted lists. Elements that are equal in the order keep their places, so a list
can be sorted by one key after another.
-/

namespace WorkflowAudit

/-- An element put before the first one that it does not exceed. -/
def insertSorted (le : α → α → Bool) (x : α) : List α → List α
  | [] => [x]
  | y :: ys => if le x y then x :: y :: ys else y :: insertSorted le x ys

/-- The elements in increasing order, equal ones in the order of the list. -/
def sortBy (le : α → α → Bool) (xs : List α) : List α := xs.foldr (insertSorted le) []

/-- The elements in increasing order of a number. -/
def sortOn (key : α → Nat) (xs : List α) : List α := sortBy (fun a b => key a ≤ key b) xs

theorem length_insertSorted (le : α → α → Bool) (x : α) (xs : List α) :
    (insertSorted le x xs).length = xs.length + 1 := by
  induction xs with
  | nil => rfl
  | cons y ys ih =>
    unfold insertSorted
    split
    · simp
    · simp [ih]

theorem length_sortBy (le : α → α → Bool) (xs : List α) : (sortBy le xs).length = xs.length := by
  induction xs with
  | nil => rfl
  | cons x xs ih =>
    have : sortBy le (x :: xs) = insertSorted le x (sortBy le xs) := rfl
    rw [this, length_insertSorted, ih, List.length_cons]

end WorkflowAudit
