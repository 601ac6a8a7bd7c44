import WorkflowAudit.Proofs.Text.Pattern
import WorkflowAudit.Proofs.Text.Span

/-! # What a search finds

The ways to match a pattern in a text are its ways in every longer text, in the same order and without
those that reach beyond the text. The preferred way therefore stays the preferred one when everything
around the match is taken away, and the search of a match alone finds all of it.
-/

namespace WorkflowAudit.Text.Pattern

variable {p : Pattern} {cs inside rest after : List Char} {offset : Nat} {span : Span}

/-! ## Shorter texts -/

private theorem flatMap_filter_of_nil {α β : Type} {f : α → List β} {keeps : α → Bool} {xs : List α}
    (nothing : ∀ x ∈ xs, keeps x = false → f x = []) :
    (xs.filter keeps).flatMap f = xs.flatMap f := by
  induction xs with
  | nil => rfl
  | cons x xs ih =>
      obtain ⟨here, later⟩ := List.forall_mem_cons.mp nothing
      cases kept : keeps x <;> simp [kept, here, ih later]

/-- A match in a longer text stays within the shorter one when enough is left behind it. -/
theorem mem_rests_append_iff :
    (rest ∈ p.rests (cs ++ after) ∧ after.length ≤ rest.length) ↔
      ∃ left ∈ p.rests cs, left ++ after = rest := by
  simp only [mem_rests_iff]
  constructor
  · rintro ⟨⟨found, spelled, accepted⟩, enough⟩
    have short : found.length ≤ cs.length := by
      have lengths := congrArg List.length spelled
      rw [List.length_append, List.length_append] at lengths
      omega
    obtain ⟨left, rfl⟩ : found <+: cs :=
      List.prefix_of_prefix_length_le (spelled ▸ List.prefix_append found rest)
        (List.prefix_append cs after) short
    rw [List.append_assoc, List.append_cancel_left_eq] at spelled
    exact ⟨left, ⟨found, rfl, accepted⟩, spelled⟩
  · rintro ⟨left, ⟨found, rfl, accepted⟩, rfl⟩
    exact ⟨⟨found, List.append_assoc _ _ _, accepted⟩, by simp⟩

private theorem filter_runRests_append {accepts : Char → Bool} {least : Nat} {most : Option Nat} :
    (runRests accepts least most (cs ++ after)).filter (after.length ≤ ·.length) =
      (runRests accepts least most cs).map (· ++ after) := by
  -- Both lists are in the order of the lengths, so their members decide them.
  have longer : ∀ a b : List Char, a.length < b.length → a ≠ b := by
    rintro a b less rfl
    exact Nat.lt_irrefl _ less
  have first : ((runRests accepts least most (cs ++ after)).filter (after.length ≤ ·.length)).Pairwise
      fun a b => a.length < b.length := pairwise_runRests.filter _
  have second : ((runRests accepts least most cs).map (· ++ after)).Pairwise
      fun a b => a.length < b.length := by
    rw [List.pairwise_map]
    refine pairwise_runRests.imp fun less => ?_
    rw [List.length_append, List.length_append]
    omega
  have same : ∀ rest, rest ∈ (runRests accepts least most (cs ++ after)).filter
      (after.length ≤ ·.length) ↔ rest ∈ (runRests accepts least most cs).map (· ++ after) := by
    intro rest
    rw [List.mem_filter, decide_eq_true_eq, List.mem_map]
    exact mem_rests_append_iff (p := .run accepts least most)
  refine List.Perm.eq_of_pairwise (fun a b _ _ less more => ?_) first second
    ((List.perm_ext_iff_of_nodup (first.imp (longer _ _)) (second.imp (longer _ _))).mpr same)
  exact absurd more (Nat.lt_asymm less)

/-- The ways in a text are those in a longer one that leave what stands behind the text. -/
theorem filter_rests_append (p : Pattern) (cs after : List Char) :
    (p.rests (cs ++ after)).filter (after.length ≤ ·.length) = (p.rests cs).map (· ++ after) := by
  induction p generalizing cs with
  | empty => simp [rests]
  | char accepts =>
      cases cs with
      | nil =>
          cases after with
          | nil => rfl
          | cons c after => cases holds : accepts c <;> simp [rests, holds]
      | cons c cs => cases holds : accepts c <;> simp [rests, holds]
  | run accepts least most => exact filter_runRests_append
  | optional p ih => simp [rests, ih]
  | either p q ihp ihq => simp [rests, ihp, ihq]
  | seq p q ihp ihq =>
      -- Once a part of the match has left the text, the rest of it cannot return.
      have gone : ∀ left ∈ p.rests (cs ++ after), ¬ after.length ≤ left.length →
          (q.rests left).filter (after.length ≤ ·.length) = [] := by
        intro left _ beyond
        rw [List.filter_eq_nil_iff]
        intro rest member enough
        obtain ⟨found, rfl, -⟩ := mem_rests_iff.mp member
        simp only [decide_eq_true_eq, List.length_append] at enough beyond
        omega
      calc ((p.rests (cs ++ after)).flatMap q.rests).filter (after.length ≤ ·.length)
          = (p.rests (cs ++ after)).flatMap
              fun left => (q.rests left).filter (after.length ≤ ·.length) := List.filter_flatMap
        _ = ((p.rests (cs ++ after)).filter (after.length ≤ ·.length)).flatMap
              fun left => (q.rests left).filter (after.length ≤ ·.length) := by
            refine (flatMap_filter_of_nil fun left member beyond => ?_).symm
            exact gone left member (of_decide_eq_false beyond)
        _ = (p.rests cs).flatMap fun left => (q.rests left).map (· ++ after) := by
            rw [ihp, List.flatMap_map]
            exact List.flatMap_congr fun left _ => ihq left
        _ = ((p.rests cs).flatMap q.rests).map (· ++ after) := List.map_flatMap.symm

/-- The preferred match stays preferred where the text ends behind it. -/
theorem head?_rests_of_append (preferred : (p.rests (inside ++ rest)).head? = some rest) :
    (p.rests inside).head? = some [] := by
  obtain ⟨others, ways⟩ := List.head?_eq_some_iff.mp preferred
  have kept := filter_rests_append p inside rest
  rw [ways, List.filter_cons_of_pos (by simp)] at kept
  obtain ⟨left, lefts, alone, same, -⟩ := List.map_eq_cons_iff.mp kept.symm
  rw [alone, List.head?_cons, List.append_left_eq_self.mp same]

/-! ## Searches -/

theorem findFrom_of_head?_rests (preferred : (p.rests (inside ++ rest)).head? = some rest) :
    p.findFrom offset (inside ++ rest) = some ⟨offset, offset + byteLength inside⟩ := by
  obtain ⟨others, ways⟩ := List.head?_eq_some_iff.mp preferred
  rw [findFrom.eq_def, ways]
  simp

/-- A search finds the preferred match of the place where it stops. -/
theorem exists_of_findFrom (found : p.findFrom offset cs = some span) :
    ∃ before inside rest, cs = before ++ (inside ++ rest) ∧
      span = ⟨offset + byteLength before, offset + byteLength before + byteLength inside⟩ ∧
      (p.rests (inside ++ rest)).head? = some rest := by
  induction cs generalizing offset with
  | nil =>
      rw [findFrom] at found
      split at found
      · rename_i rest others ways
        obtain ⟨inside, spelled, -⟩ := mem_rests_iff.mp (ways ▸ List.mem_cons_self)
        obtain ⟨rfl, rfl⟩ := List.append_eq_nil_iff.mp spelled.symm
        exact ⟨[], [], [], rfl, (Option.some.inj found).symm, by rw [List.append_nil, ways]; rfl⟩
      · cases found
  | cons c cs ih =>
      rw [findFrom] at found
      split at found
      · rename_i rest others ways
        obtain ⟨inside, spelled, -⟩ := mem_rests_iff.mp (ways ▸ List.mem_cons_self)
        rw [spelled] at found ways
        refine ⟨[], inside, rest, spelled, ?_, by rw [ways]; rfl⟩
        rw [← Option.some.inj found]
        simp
      · obtain ⟨before, inside, rest, rfl, rfl, preferred⟩ := ih found
        refine ⟨c :: before, inside, rest, rfl, ?_, preferred⟩
        simp only [byteLength_cons, Nat.add_assoc]

/-- What is found in a text is found as a whole when it stands alone. -/
theorem exists_of_find? {text : String} (found : p.find? text = some span) :
    ∃ before inside after : String, text = before ++ inside ++ after ∧
      span = ⟨before.utf8ByteSize, (before ++ inside).utf8ByteSize⟩ ∧
      p.find? inside = some ⟨0, inside.utf8ByteSize⟩ := by
  obtain ⟨before, inside, rest, spelled, rfl, preferred⟩ := exists_of_findFrom found
  refine ⟨.ofList before, .ofList inside, .ofList rest, ?_, ?_, ?_⟩
  · apply String.toList_inj.mp
    simp [spelled]
  · simp [utf8ByteSize_ofList]
  · have alone : (p.rests (inside ++ [])).head? = some [] := by
      rw [List.append_nil]
      exact head?_rests_of_append preferred
    have whole : p.findFrom 0 (inside ++ []) = _ := findFrom_of_head?_rests alone
    rw [find?, String.toList_ofList, utf8ByteSize_ofList]
    rwa [List.append_nil, Nat.zero_add] at whole

end WorkflowAudit.Text.Pattern
