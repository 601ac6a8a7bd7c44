import Mathlib.Data.List.Forall2

/-! # Results that are no errors

A computation that can fail succeeded when each of its steps did.
-/

namespace WorkflowAudit

variable {ε α β : Type}

theorem ok_of_bind {x : Except ε α} {f : α → Except ε β} {b : β} (success : x >>= f = .ok b) :
    ∃ a, x = .ok a ∧ f a = .ok b := by
  cases x with
  | error e => cases success
  | ok a => exact ⟨a, rfl, success⟩

/-- Whether a computation succeeds can be seen by running it. -/
instance decidableSuccess (x : Except ε α) : Decidable (∃ a, x = .ok a) :=
  match x with
  | .ok a => .isTrue ⟨a, rfl⟩
  | .error _ => .isFalse fun ⟨_, same⟩ => nomatch same

theorem ok_of_map {x : Except ε α} {f : α → β} {b : β} (success : f <$> x = .ok b) :
    ∃ a, x = .ok a ∧ f a = b := by
  cases x with
  | error e => cases success
  | ok a => exact ⟨a, rfl, Except.ok.inj success⟩

theorem mapM_eq_ok_iff {f : α → Except ε β} {xs : List α} {ys : List β} :
    xs.mapM f = .ok ys ↔ List.Forall₂ (fun x y => f x = .ok y) xs ys := by
  induction xs generalizing ys with
  | nil => cases ys <;> simp [pure, Except.pure]
  | cons x xs ih =>
      rw [List.mapM_cons, List.forall₂_cons_left_iff]
      constructor
      · intro success
        obtain ⟨y, first, success⟩ := ok_of_bind success
        obtain ⟨ys', rest, success⟩ := ok_of_bind success
        exact ⟨y, ys', first, ih.mp rest, (Except.ok.inj success).symm⟩
      · rintro ⟨y, ys', first, rest, rfl⟩
        rw [first, ih.mpr rest]
        rfl

/-- When all that fails fails alike, the whole fails like that. -/
theorem mapM_eq_error {f : α → Except ε β} {xs : List α} {e : ε}
    (fails : ∃ x ∈ xs, f x = .error e) (alike : ∀ x ∈ xs, ∀ e', f x = .error e' → e' = e) :
    xs.mapM f = .error e := by
  induction xs with
  | nil => simp at fails
  | cons x xs ih =>
      obtain ⟨here, later⟩ := List.forall_mem_cons.mp alike
      rw [List.mapM_cons]
      cases first : f x with
      | error e' => rw [here e' first]; rfl
      | ok y =>
          obtain ⟨z, member, failed⟩ := fails
          have among : z ∈ xs := by
            rcases List.mem_cons.mp member with rfl | among
            · cases first.symm.trans failed
            · exact among
          rw [ih ⟨z, among, failed⟩ later]
          rfl

/-- The last of several steps comes after the others. -/
theorem foldlM_concat_ok {f : β → α → Except ε β} {xs : List α} {x : α} {b c : β}
    (success : (xs ++ [x]).foldlM f b = .ok c) :
    ∃ a, xs.foldlM f b = .ok a ∧ f a x = .ok c := by
  rw [List.foldlM_append] at success
  obtain ⟨a, before, last⟩ := ok_of_bind success
  obtain ⟨c', last, same⟩ := ok_of_bind last
  exact ⟨a, before, last.trans same⟩

end WorkflowAudit
