import WorkflowAudit.Fingerprint.Basic
import WorkflowAudit.Proofs.Text.Digits
import WorkflowAudit.Proofs.Text.Search

/-! # What is hashed for a file

Path, time and size are joined by colons. The path may hold colons and digits, but the other two have
digits only, so the last two colons are known and all three parts can be read off. A time before 1970 is
not written, so such times cannot be told apart.
-/

namespace WorkflowAudit.Fingerprint

variable {path path' : String} {modified modified' : Int} {size size' : Nat}

theorem toList_fileKey (path : String) (modified : Int) (size : Nat) :
    (fileKey path modified size).toList = path.toList ++
      ':' :: (Nat.toDigits 10 modified.toNat ++ ':' :: Nat.toDigits 10 size) := by
  have key : fileKey path modified size =
      path ++ ":" ++ modified.toNat.repr ++ ":" ++ size.repr := rfl
  rw [key]
  simp

theorem colon_notMem_toDigits (n : Nat) : ':' ∉ Nat.toDigits 10 n := by
  intro member
  have digit := Nat.isDigit_of_mem_toDigits (by decide) (by decide) member
  cases digit

/-- All that is kept of a file can be read off what is hashed for it. -/
theorem fileKey_eq_iff : fileKey path modified size = fileKey path' modified' size' ↔
    path = path' ∧ modified.toNat = modified'.toNat ∧ size = size' := by
  constructor
  · intro same
    have spelled := congrArg String.toList same
    rw [toList_fileKey, toList_fileKey, ← List.cons_append, ← List.append_assoc, ← List.cons_append,
      ← List.append_assoc] at spelled
    obtain ⟨front, sizes⟩ := Text.append_inj_of_last spelled (colon_notMem_toDigits _)
      (colon_notMem_toDigits _)
    obtain ⟨paths, times⟩ := Text.append_inj_of_last front (colon_notMem_toDigits _)
      (colon_notMem_toDigits _)
    exact ⟨String.toList_inj.mp paths, Text.toDigits_injective times, Text.toDigits_injective sizes⟩
  · rintro ⟨rfl, times, rfl⟩
    rw [fileKey, times, fileKey]

/-- What is hashed for a file is longer than its path. -/
theorem fileKey_ne (path : String) (modified : Int) (size : Nat) :
    fileKey path modified size ≠ path := by
  intro equal
  have lengths := congrArg (List.length ∘ String.toList) equal
  simp only [Function.comp_apply, toList_fileKey, List.length_append, List.length_cons] at lengths
  omega

private theorem byteList_from (bytes : ByteArray) (i : Nat) (before : List UInt8) :
    ByteArray.toList.loop bytes i before = before.reverse ++ bytes.data.toList.drop i := by
  induction i, before using ByteArray.toList.loop.induct bytes with
  | case1 i before within ih =>
      have inside : i < bytes.data.toList.length := within
      have here : bytes.get! i = bytes.data.toList[i] := by
        rw [Array.getElem_toList]
        exact getElem!_pos bytes.data i within
      rw [ByteArray.toList.loop, if_pos within, ih, here, List.reverse_cons, List.append_assoc,
        List.singleton_append, List.getElem_cons_drop]
  | case2 i before beyond =>
      have short : bytes.data.toList.length ≤ i := Nat.le_of_not_lt beyond
      rw [ByteArray.toList.loop, if_neg beyond, List.drop_of_length_le short, List.append_nil]

theorem byteList_injective : Function.Injective ByteArray.toList := by
  intro bytes bytes' same
  rw [ByteArray.toList, ByteArray.toList, byteList_from, byteList_from] at same
  exact ByteArray.ext (Array.toList_inj.mp (by simpa using same))

/-- The bytes that are hashed for a file. -/
def hashedBytes (path : String) (modified : Int) (size : Nat) : List UInt8 :=
  (fileKey path modified size).toUTF8.toList

theorem hashedBytes_eq_iff :
    hashedBytes path modified size = hashedBytes path' modified' size' ↔
      path = path' ∧ (modified = modified' ∨ modified ≤ 0 ∧ modified' ≤ 0) ∧ size = size' := by
  have times : modified.toNat = modified'.toNat ↔
      modified = modified' ∨ modified ≤ 0 ∧ modified' ≤ 0 := by omega
  rw [← times, ← fileKey_eq_iff, hashedBytes, hashedBytes]
  refine ⟨fun same => ?_, fun same => by rw [same]⟩
  exact String.toByteArray_inj.mp (byteList_injective same)

/-- Two inputs with one hash. -/
def Collide (a b : List UInt8) : Prop := a ≠ b ∧ Blake3.hash a = Blake3.hash b

theorem ofBytes_eq_iff {a b : List UInt8} : ofBytes a = ofBytes b ↔ a = b ∨ Collide a b := by
  have hashes : ofBytes a = ofBytes b ↔ Blake3.hash a = Blake3.hash b := by
    rw [ofBytes, ofBytes, mk.injEq]
  rw [hashes, Collide]
  by_cases same : a = b <;> simp [same]

end WorkflowAudit.Fingerprint
