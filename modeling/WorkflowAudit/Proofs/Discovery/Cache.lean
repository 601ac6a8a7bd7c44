import WorkflowAudit.Discovery.Cache
import WorkflowAudit.Proofs.Discovery.Record
import WorkflowAudit.Proofs.Files.Tree
import WorkflowAudit.Proofs.Fingerprint

/-! # Records in a file tree

A record stands under the fingerprint of what it is about: the path, and the time and size of the file
that the path leads to. These can be told from what is hashed, though not from the hash. A record that
is looked up is a file of that name, wherever the directory of the cache leads, and putting one changes
no other file.
-/

namespace WorkflowAudit

/-! ## Stamps -/

namespace FileTree

/-- Time and size of what a path leads to, as far as they are hashed. -/
def stamp? (t : FileTree) (path : String) : Option (Nat × Nat) :=
  match t.find path with
  | .ok (.file f) => some (f.modified.toNat, f.size)
  | .ok (.directory _) => some (0, 0)
  | .error _ => none

/-- What is hashed for a path. -/
def hashedText (t : FileTree) (path : String) : String :=
  match t.stamp? path with
  | some (time, size) => Fingerprint.fileKey path time size
  | none => path

theorem fingerprint_eq (t : FileTree) (path : String) :
    t.fingerprint path = .ofText (t.hashedText path) := by
  simp only [fingerprint, hashedText, stamp?]
  cases t.find path with
  | error e => rfl
  | ok n =>
      cases n with
      | file f =>
          have time : (f.modified.toNat : Int).toNat = f.modified.toNat := Int.toNat_natCast _
          simp only [Fingerprint.ofFile, Fingerprint.fileKey, time]
      | directory entries => rfl

/-- Time and size, and nothing else, can be told from what is hashed for a path. -/
theorem hashedText_eq_iff {t u : FileTree} {path : String} :
    t.hashedText path = u.hashedText path ↔ t.stamp? path = u.stamp? path := by
  rw [hashedText, hashedText]
  refine ⟨fun same => ?_, fun same => by rw [same]⟩
  cases here : t.stamp? path with
  | none =>
      cases there : u.stamp? path with
      | none => rfl
      | some stamp =>
          rw [here, there] at same
          exact absurd same.symm (Fingerprint.fileKey_ne path stamp.1 stamp.2)
  | some stamp =>
      cases there : u.stamp? path with
      | none =>
          rw [here, there] at same
          exact absurd same (Fingerprint.fileKey_ne path stamp.1 stamp.2)
      | some stamp' =>
          rw [here, there] at same
          obtain ⟨-, time, size⟩ := Fingerprint.fileKey_eq_iff.mp same
          rw [Int.toNat_natCast, Int.toNat_natCast] at time
          rw [Prod.ext time size]

/-- The path itself is hashed if it leads nowhere, and only then. -/
theorem hashedText_eq_self_iff {t : FileTree} {path : String} :
    t.hashedText path = path ↔ ∃ e, t.find path = .error e := by
  simp only [hashedText, stamp?]
  cases t.find path with
  | error e => exact ⟨fun _ => ⟨e, rfl⟩, fun _ => rfl⟩
  | ok n =>
      cases n <;> exact ⟨fun same => absurd same (Fingerprint.fileKey_ne _ _ _),
        fun ⟨e, failed⟩ => nomatch failed⟩

end FileTree

/-! ## Names of records -/

namespace DiscoveryCache

/-- The name of the record for a fingerprint. -/
def recordName (f : Fingerprint) : String := s!"{f.toHex}.{extension}"

theorem toList_recordName (f : Fingerprint) :
    (recordName f).toList = f.bytes.flatMap Fingerprint.hexByte ++ ".json".toList := by
  have name : recordName f = f.toHex ++ "." ++ "json" := rfl
  rw [name, Fingerprint.toHex]
  simp

theorem slash_notMem_recordName (f : Fingerprint) : '/' ∉ (recordName f).toList := by
  rw [toList_recordName, List.mem_append, not_or]
  refine ⟨fun inside => ?_, by decide⟩
  obtain ⟨b, -, digit⟩ := List.mem_flatMap.mp inside
  have small := b.toNat_lt
  have hex : Text.isHexDigit '/' = true := by
    simp only [Fingerprint.hexByte, List.mem_cons, List.not_mem_nil, or_false] at digit
    rcases digit with same | same <;> rw [same]
    · exact (Fingerprint.hexDigit_digits _ (by omega)).1
    · exact (Fingerprint.hexDigit_digits _ (by omega)).1
  cases hex

theorem recordName_proper (f : Fingerprint) : recordName f ∉ ["", ".", ".."] := by
  have long : 5 ≤ (recordName f).toList.length := by
    rw [toList_recordName, List.length_append]
    exact Nat.le_add_left _ _
  intro inside
  simp only [List.mem_cons, List.not_mem_nil, or_false] at inside
  rcases inside with same | same | same <;> rw [same] at long <;> simp at long

theorem getLast?_parts_recordPath (c : DiscoveryCache) (f : Fingerprint) :
    (FileTree.parts (c.recordPath f)).getLast? = some (recordName f) :=
  Path.getLast?_parts_join c.dir (slash_notMem_recordName f)

/-- What is looked up is the text of a file with the name of the record. -/
theorem exists_record_of_lookup {c : DiscoveryCache} {t : FileTree} {path : String}
    {f : Fingerprint} {resources : List Resource} (found : c.lookup t path f = some resources) :
    ∃ place file text, t.get? place = some (.file file) ∧ place.getLast? = some (recordName f) ∧
      file.text? = some text ∧ ScanRecord.ofDocument? text = some ⟨path, f, resources⟩ := by
  unfold lookup at found
  split at found
  · cases found
  · rename_i text read
    split at found
    · rename_i r decoded
      split at found
      · rename_i mine
        obtain ⟨rfl, rfl⟩ := mine
        obtain rfl := Option.some.inj found
        obtain ⟨place, file, resolved, here, content⟩ := FileTree.exists_file_of_readText read
        have name := FileTree.getLast?_of_resolve resolved (getLast?_parts_recordPath c _)
          (recordName_proper _)
        exact ⟨place, file, text, here, name, content, decoded⟩
      · cases found
    · cases found

/-- A file that is found after a record was put is the record, or was there before. -/
theorem file_of_put {c : DiscoveryCache} {t : FileTree} {path : String} {f : Fingerprint}
    {resources : List Resource} {other : List String} {g : File}
    (found : (c.put t path f resources).1.get? other = some (.file g)) :
    (other.getLast? = some (recordName f) ∧
      g.text? = some (ScanRecord.toDocument ⟨path, f, resources⟩)) ∨
    t.get? other = some (.file g) := by
  unfold put at found
  split at found
  · rename_i made
    exact .inr (FileTree.file_of_makeDirectory made found)
  · rename_i t' made
    split at found
    · rename_i saved
      rcases FileTree.file_of_write saved found with ⟨name, rfl⟩ | before
      · rw [getLast?_parts_recordPath] at name
        exact .inl ⟨name, File.text?_ofText _ _⟩
      · exact .inr (FileTree.file_of_makeDirectory made before)
    · exact .inr (FileTree.file_of_makeDirectory made found)

end DiscoveryCache

end WorkflowAudit
