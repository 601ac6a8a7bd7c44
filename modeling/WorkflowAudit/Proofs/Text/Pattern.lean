import Mathlib.Data.List.Basic
import WorkflowAudit.Text.Pattern

/-! # What patterns accept

A pattern accepts the parts of a text that it can match. Whether it accepts a part does not depend on
what stands around the part, so a pattern that is found in a text is found wherever that text stands.
-/

namespace WorkflowAudit.Text.Pattern

/-- The characters form a match of the pattern. -/
def Accepts : Pattern → List Char → Prop
  | .empty, cs => cs = []
  | .char accepts, cs => ∃ c, cs = [c] ∧ accepts c = true
  | .run accepts least most, cs =>
    (∀ c ∈ cs, accepts c = true) ∧ least ≤ cs.length ∧ ∀ limit, most = some limit → cs.length ≤ limit
  | .optional p, cs => p.Accepts cs ∨ cs = []
  | .seq p q, cs => ∃ front back, cs = front ++ back ∧ p.Accepts front ∧ q.Accepts back
  | .either p q, cs => p.Accepts cs ∨ q.Accepts cs

section Run

variable {accepts : Char → Bool} {least : Nat} {most : Option Nat} {cs rest : List Char}

/-- The length of the longest run. -/
private def longest (accepts : Char → Bool) (most : Option Nat) (cs : List Char) : Nat :=
  match most with
  | some limit => min limit (cs.takeWhile accepts).length
  | none => (cs.takeWhile accepts).length

private theorem runRests_eq : runRests accepts least most cs =
    (List.range (longest accepts most cs + 1 - least)).map
      fun shorter => cs.drop (longest accepts most cs - shorter) := by
  cases most <;> rfl

private theorem mem_runRests :
    rest ∈ runRests accepts least most cs ↔
      ∃ n, least ≤ n ∧ n ≤ longest accepts most cs ∧ rest = cs.drop n := by
  rw [runRests_eq]
  simp only [List.mem_map, List.mem_range]
  constructor
  · rintro ⟨shorter, within, rfl⟩
    exact ⟨longest accepts most cs - shorter, by omega, by omega, rfl⟩
  · rintro ⟨n, enough, fits, rfl⟩
    exact ⟨longest accepts most cs - n, by omega, by congr 1; omega⟩

private theorem le_longest_iff {n : Nat} :
    n ≤ longest accepts most cs ↔
      n ≤ (cs.takeWhile accepts).length ∧ ∀ limit, most = some limit → n ≤ limit := by
  cases most with
  | none => simp [longest]
  | some limit => simp [longest, Nat.le_min, and_comm]

private theorem longest_le_length : longest accepts most cs ≤ cs.length :=
  Nat.le_trans (le_longest_iff.mp (Nat.le_refl _)).1 (List.takeWhile_sublist _).length_le

/-- Longer runs stand before shorter ones. -/
theorem pairwise_runRests :
    (runRests accepts least most cs).Pairwise fun a b => a.length < b.length := by
  rw [runRests_eq, List.pairwise_map]
  refine List.pairwise_lt_range.imp_of_mem fun {a b} _ member less => ?_
  have within := List.mem_range.mp member
  have fits : longest accepts most cs ≤ cs.length := longest_le_length
  rw [List.length_drop, List.length_drop]
  omega

theorem mem_runRests_iff :
    rest ∈ runRests accepts least most cs ↔
      ∃ run, cs = run ++ rest ∧ (Pattern.run accepts least most).Accepts run := by
  simp only [mem_runRests, le_longest_iff, Accepts]
  constructor
  · rintro ⟨n, enough, ⟨present, bounded⟩, rfl⟩
    have short : n ≤ cs.length := Nat.le_trans present (List.takeWhile_sublist _).length_le
    have length : (cs.take n).length = n := by simp [short]
    have taken : cs.take n <+: cs.takeWhile accepts :=
      List.prefix_of_prefix_length_le (List.take_prefix _ _) (List.takeWhile_prefix _)
        (by rwa [length])
    refine ⟨cs.take n, (List.take_append_drop n cs).symm, fun c inside => ?_, ?_, ?_⟩
    · exact List.all_eq_true.mp List.all_takeWhile c (taken.subset inside)
    · rwa [length]
    · rwa [length]
  · rintro ⟨run, rfl, all, enough, bounded⟩
    refine ⟨run.length, enough, ⟨?_, bounded⟩, by simp⟩
    rw [List.takeWhile_append_of_pos all]
    simp

end Run

/-- A pattern leaves what stands after a match. -/
theorem mem_rests_iff {p : Pattern} {cs rest : List Char} :
    rest ∈ p.rests cs ↔ ∃ found, cs = found ++ rest ∧ p.Accepts found := by
  induction p generalizing cs rest with
  | empty => simp [rests, Accepts, eq_comm]
  | char accepts =>
      cases cs with
      | nil => simp [rests, Accepts]
      | cons c cs =>
          simp only [rests, Accepts]
          constructor
          · intro left
            split at left
            · rename_i holds
              obtain rfl := List.mem_singleton.mp left
              exact ⟨[c], rfl, c, rfl, holds⟩
            · cases left
          · rintro ⟨_, spelled, d, rfl, holds⟩
            obtain ⟨rfl, rfl⟩ := List.cons.inj spelled
            simp [holds]
  | run accepts least most => exact mem_runRests_iff
  | optional p ih =>
      simp only [rests, Accepts, List.mem_append, List.mem_singleton, ih]
      constructor
      · rintro (⟨found, rfl, accepted⟩ | rfl)
        · exact ⟨found, rfl, .inl accepted⟩
        · exact ⟨[], rfl, .inr rfl⟩
      · rintro ⟨found, rfl, accepted | rfl⟩
        · exact .inl ⟨found, rfl, accepted⟩
        · exact .inr rfl
  | seq p q ihp ihq =>
      simp only [rests, Accepts, List.mem_flatMap, ihp, ihq]
      constructor
      · rintro ⟨_, ⟨front, rfl, first⟩, back, rfl, second⟩
        exact ⟨front ++ back, (List.append_assoc _ _ _).symm, front, back, rfl, first, second⟩
      · rintro ⟨_, rfl, front, back, rfl, first, second⟩
        exact ⟨back ++ rest, ⟨front, List.append_assoc _ _ _, first⟩, back, rfl, second⟩
  | either p q ihp ihq =>
      simp only [rests, Accepts, List.mem_append, ihp, ihq]
      constructor
      · rintro (⟨found, rfl, accepted⟩ | ⟨found, rfl, accepted⟩)
        · exact ⟨found, rfl, .inl accepted⟩
        · exact ⟨found, rfl, .inr accepted⟩
      · rintro ⟨found, rfl, accepted | accepted⟩
        · exact .inl ⟨found, rfl, accepted⟩
        · exact .inr ⟨found, rfl, accepted⟩

/-! ## Search -/

theorem rests_ne_nil_iff {p : Pattern} {cs : List Char} :
    p.rests cs ≠ [] ↔ ∃ found, p.Accepts found ∧ found <+: cs := by
  constructor
  · intro left
    obtain ⟨rest, member⟩ := List.exists_mem_of_ne_nil _ left
    obtain ⟨found, rfl, accepted⟩ := mem_rests_iff.mp member
    exact ⟨found, accepted, List.prefix_append _ _⟩
  · rintro ⟨found, accepted, rest, rfl⟩
    exact List.ne_nil_of_mem (mem_rests_iff.mpr ⟨found, rfl, accepted⟩)

theorem isSome_findFrom_iff {p : Pattern} {offset : Nat} {cs : List Char} :
    (p.findFrom offset cs).isSome = true ↔ ∃ found, p.Accepts found ∧ found <:+: cs := by
  induction cs generalizing offset with
  | nil =>
      have atEnd : p.rests [] ≠ [] ↔ ∃ found, p.Accepts found ∧ found <:+: [] := by
        simp [rests_ne_nil_iff]
      rw [← atEnd, findFrom]
      cases p.rests [] <;> simp
  | cons c cs ih =>
      have here : (∃ found, p.Accepts found ∧ found <:+: c :: cs) ↔
          p.rests (c :: cs) ≠ [] ∨ ∃ found, p.Accepts found ∧ found <:+: cs := by
        simp only [List.infix_cons_iff, and_or_left, exists_or, rests_ne_nil_iff]
      rw [here, findFrom]
      cases p.rests (c :: cs) with
      | nil => simp [ih]
      | cons rest others => simp

/-- A pattern is found in a text exactly when some part of the text is a match. -/
theorem isSome_find?_iff {p : Pattern} {text : String} :
    (p.find? text).isSome = true ↔ ∃ found, p.Accepts found ∧ found <:+: text.toList :=
  isSome_findFrom_iff

/-- What is found in a text is found in every text around it. -/
theorem isSome_find?_of_infix {p : Pattern} {text whole : String}
    (found : (p.find? text).isSome = true) (inside : text.toList <:+: whole.toList) :
    (p.find? whole).isSome = true := by
  obtain ⟨part, accepted, within⟩ := isSome_find?_iff.mp found
  exact isSome_find?_iff.mpr ⟨part, accepted, within.trans inside⟩

/-! ## Where a character can stand

Read off a pattern, without a text: a character that is not allowed for here stands in no match, at
the start of none or at the end of none.
-/

/-- Whether a match can be empty. -/
def isNullable : Pattern → Bool
  | .empty => true
  | .char _ => false
  | .run _ least _ => least = 0
  | .optional _ => true
  | .seq p q => p.isNullable && q.isNullable
  | .either p q => p.isNullable || q.isNullable

/-- Whether a character can stand in a match. -/
def mayHold (c : Char) : Pattern → Bool
  | .empty => false
  | .char accepts => accepts c
  | .run accepts _ _ => accepts c
  | .optional p => p.mayHold c
  | .seq p q => p.mayHold c || q.mayHold c
  | .either p q => p.mayHold c || q.mayHold c

/-- Whether a match can begin with a character. -/
def mayBegin (c : Char) : Pattern → Bool
  | .empty => false
  | .char accepts => accepts c
  | .run accepts _ _ => accepts c
  | .optional p => p.mayBegin c
  | .seq p q => p.mayBegin c || p.isNullable && q.mayBegin c
  | .either p q => p.mayBegin c || q.mayBegin c

/-- Whether a match can end with a character. -/
def mayEnd (c : Char) : Pattern → Bool
  | .empty => false
  | .char accepts => accepts c
  | .run accepts _ _ => accepts c
  | .optional p => p.mayEnd c
  | .seq p q => q.mayEnd c || q.isNullable && p.mayEnd c
  | .either p q => p.mayEnd c || q.mayEnd c

section Character

variable {p : Pattern} {c : Char} {cs : List Char}

theorem isNullable_of_accepts (accepted : p.Accepts []) : p.isNullable = true := by
  induction p with
  | empty | optional => rfl
  | char accepts =>
      obtain ⟨c, spelled, -⟩ := accepted
      cases spelled
  | run accepts least most => exact decide_eq_true (Nat.le_zero.mp accepted.2.1)
  | seq p q ihp ihq =>
      obtain ⟨front, back, spelled, first, second⟩ := accepted
      obtain ⟨rfl, rfl⟩ := List.append_eq_nil_iff.mp spelled.symm
      rw [isNullable, ihp first, ihq second]
      rfl
  | either p q ihp ihq =>
      rw [isNullable, Bool.or_eq_true]
      exact accepted.imp ihp ihq

theorem mayHold_of_mem (accepted : p.Accepts cs) (inside : c ∈ cs) : p.mayHold c = true := by
  induction p generalizing cs with
  | empty =>
      rw [accepted] at inside
      cases inside
  | char accepts =>
      obtain ⟨d, rfl, holds⟩ := accepted
      obtain rfl := List.mem_singleton.mp inside
      exact holds
  | run accepts least most => exact accepted.1 c inside
  | optional p ih =>
      rcases accepted with accepted | rfl
      · exact ih accepted inside
      · cases inside
  | seq p q ihp ihq =>
      obtain ⟨front, back, rfl, first, second⟩ := accepted
      rw [mayHold, Bool.or_eq_true]
      exact (List.mem_append.mp inside).imp (ihp first) (ihq second)
  | either p q ihp ihq =>
      rw [mayHold, Bool.or_eq_true]
      exact accepted.imp (ihp · inside) (ihq · inside)

theorem mayBegin_of_accepts (accepted : p.Accepts (c :: cs)) : p.mayBegin c = true := by
  induction p generalizing cs with
  | empty => cases accepted
  | char accepts =>
      obtain ⟨d, spelled, holds⟩ := accepted
      obtain ⟨rfl, -⟩ := List.cons.inj spelled
      exact holds
  | run accepts least most => exact accepted.1 c List.mem_cons_self
  | optional p ih =>
      rcases accepted with accepted | none
      · exact ih accepted
      · cases none
  | seq p q ihp ihq =>
      obtain ⟨front, back, spelled, first, second⟩ := accepted
      rw [mayBegin, Bool.or_eq_true, Bool.and_eq_true]
      rcases List.cons_eq_append_iff.mp spelled with ⟨rfl, rfl⟩ | ⟨rest, rfl, -⟩
      · exact .inr ⟨isNullable_of_accepts first, ihq second⟩
      · exact .inl (ihp first)
  | either p q ihp ihq =>
      rw [mayBegin, Bool.or_eq_true]
      exact accepted.imp ihp ihq

theorem mayEnd_of_accepts (accepted : p.Accepts (cs ++ [c])) : p.mayEnd c = true := by
  induction p generalizing cs with
  | empty => cases (List.append_eq_nil_iff.mp accepted).2
  | char accepts =>
      obtain ⟨d, spelled, holds⟩ := accepted
      have inside : c ∈ [d] := spelled ▸ List.mem_concat_self
      exact List.mem_singleton.mp inside ▸ holds
  | run accepts least most => exact accepted.1 c List.mem_concat_self
  | optional p ih =>
      rcases accepted with accepted | none
      · exact ih accepted
      · cases (List.append_eq_nil_iff.mp none).2
  | seq p q ihp ihq =>
      obtain ⟨front, back, spelled, first, second⟩ := accepted
      rw [mayEnd, Bool.or_eq_true, Bool.and_eq_true]
      rcases List.eq_nil_or_concat' back with rfl | ⟨rest, d, rfl⟩
      · rw [List.append_nil] at spelled
        exact .inr ⟨isNullable_of_accepts second, ihp (spelled ▸ first)⟩
      · rw [← List.append_assoc] at spelled
        obtain ⟨-, same⟩ := List.append_inj' spelled rfl
        obtain ⟨rfl, -⟩ := List.cons.inj same
        exact .inl (ihq second)
  | either p q ihp ihq =>
      rw [mayEnd, Bool.or_eq_true]
      exact accepted.imp ihp ihq

end Character

end WorkflowAudit.Text.Pattern
