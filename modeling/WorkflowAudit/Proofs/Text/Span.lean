import Mathlib.Data.List.Induction
import Mathlib.Tactic.Common
import WorkflowAudit.Text.Span

/-!
# Cutting texts at byte offsets

A text cut at an offset is the text written as two parts, the first of which has that many
bytes. What is proved about edits and tokens speaks of such parts and leaves the search for
them to these lemmas.
-/

namespace WorkflowAudit

namespace Text

@[simp] theorem byteLength_nil : byteLength [] = 0 := rfl

@[simp] theorem byteLength_cons (c : Char) (cs : List Char) :
    byteLength (c :: cs) = c.utf8Size + byteLength cs := rfl

@[simp] theorem byteLength_append (before after : List Char) :
    byteLength (before ++ after) = byteLength before + byteLength after := by
  induction before with
  | nil => simp
  | cons c before ih => simp [ih, Nat.add_assoc]

theorem byteLength_pos {cs : List Char} (h : cs ≠ []) : 0 < byteLength cs := by
  cases cs with
  | nil => exact absurd rfl h
  | cons c cs =>
    have := c.utf8Size_pos
    simp only [byteLength_cons]
    omega

/-- The bytes of the characters are those of the text. -/
theorem length_le_byteLength (cs : List Char) : cs.length ≤ byteLength cs := by
  induction cs with
  | nil => exact Nat.le_refl 0
  | cons c cs ih =>
    have := c.utf8Size_pos
    simp only [List.length_cons, byteLength_cons]
    omega

theorem utf8ByteSize_ofList (cs : List Char) : (String.ofList cs).utf8ByteSize = byteLength cs := by
  induction cs with
  | nil => rfl
  | cons c cs ih =>
    rw [String.ofList_cons, String.utf8ByteSize_append, String.utf8ByteSize_singleton, ih,
      byteLength_cons]

/-- One of two ways to cut a text cuts the other one's first part or second part. -/
theorem exists_append_of_byteLength_le {before after before' after' : List Char}
    (htext : before ++ after = before' ++ after')
    (hle : byteLength before ≤ byteLength before') :
    ∃ between, before' = before ++ between ∧ after = between ++ after' := by
  rcases List.append_eq_append_iff.mp htext with ⟨between, hbefore, hafter⟩ | ⟨excess, hbefore, hafter⟩
  · exact ⟨between, hbefore, hafter⟩
  · have hempty : excess = [] := by
      by_contra hne
      have := byteLength_pos hne
      rw [hbefore, byteLength_append] at hle
      omega
    subst hempty
    exact ⟨[], by simpa using hbefore.symm, by simpa using hafter.symm⟩

/-- A text is cut at an offset in one way. -/
theorem append_inj_of_byteLength_eq {before after before' after' : List Char}
    (htext : before ++ after = before' ++ after')
    (heq : byteLength before = byteLength before') : before = before' ∧ after = after' := by
  obtain ⟨between, hbefore, hafter⟩ := exists_append_of_byteLength_le htext (Nat.le_of_eq heq)
  have hempty : between = [] := by
    by_contra hne
    have := byteLength_pos hne
    rw [hbefore, byteLength_append] at heq
    omega
  subst hempty
  exact ⟨by simpa using hbefore.symm, by simpa using hafter⟩

theorem splitAt?_append (before after : List Char) :
    splitAt? (before ++ after) (byteLength before) = some (before, after) := by
  induction before with
  | nil => cases after <;> rfl
  | cons c before ih =>
    have hpos := c.utf8Size_pos
    obtain ⟨n, hn⟩ : ∃ n, c.utf8Size + byteLength before = n + 1 :=
      ⟨c.utf8Size + byteLength before - 1, by omega⟩
    have hrest : n + 1 - c.utf8Size = byteLength before := by omega
    simp only [List.cons_append, byteLength_cons, hn, splitAt?, hrest, ih, Option.map_some]
    rw [if_pos (by omega)]

theorem splitAt?_eq_some_iff {cs before after : List Char} {offset : Nat} :
    splitAt? cs offset = some (before, after) ↔
      cs = before ++ after ∧ byteLength before = offset := by
  constructor
  · intro h
    induction cs generalizing offset before with
    | nil =>
      cases offset with
      | zero =>
        simp only [splitAt?, Option.some.injEq, Prod.mk.injEq] at h
        obtain ⟨rfl, rfl⟩ := h
        simp
      | succ n => simp [splitAt?] at h
    | cons c cs ih =>
      cases offset with
      | zero =>
        simp only [splitAt?, Option.some.injEq, Prod.mk.injEq] at h
        obtain ⟨rfl, rfl⟩ := h
        simp
      | succ n =>
        simp only [splitAt?] at h
        split at h
        case isTrue hfits =>
          simp only [Option.map_eq_some_iff, Prod.exists, Prod.mk.injEq] at h
          obtain ⟨before', after', hcut, rfl, rfl⟩ := h
          obtain ⟨rfl, hlength⟩ := ih hcut
          simp only [List.cons_append, byteLength_cons, true_and]
          omega
        case isFalse => cases h
  · rintro ⟨rfl, rfl⟩
    exact splitAt?_append before after

theorem slice?_eq_some_iff {cs inside : List Char} {start stop : Nat} :
    slice? cs start stop = some inside ↔
      ∃ before after, cs = before ++ (inside ++ after) ∧ byteLength before = start ∧
        stop = start + byteLength inside := by
  constructor
  · intro h
    simp only [slice?, Option.bind_eq_bind, Option.bind_eq_some_iff, Prod.exists] at h
    obtain ⟨before, rest, hstart, h⟩ := h
    split at h
    case isTrue hle =>
      simp only [Option.bind_eq_some_iff, Prod.exists, Option.some.injEq] at h
      obtain ⟨inside', after, hstop, rfl⟩ := h
      obtain ⟨rfl, rfl⟩ := splitAt?_eq_some_iff.mp hstart
      obtain ⟨rfl, hlength⟩ := splitAt?_eq_some_iff.mp hstop
      exact ⟨before, after, rfl, rfl, by omega⟩
    case isFalse => cases h
  · rintro ⟨before, after, rfl, rfl, rfl⟩
    have hinside : byteLength before + byteLength inside - byteLength before =
        byteLength inside := by omega
    simp [slice?, splitAt?_append, hinside]

end Text

end WorkflowAudit
