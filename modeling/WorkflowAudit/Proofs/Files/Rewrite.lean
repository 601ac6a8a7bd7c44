import WorkflowAudit.Proofs.Files.Change

/-! # Rewriting a file

A file that is there can be written anew unless its name is too long. The tree with the new text has
the same directories and, at every other place, the same files, so each path leads to a file in one
tree if it does in the other.
-/

namespace WorkflowAudit.FileTree

variable {t t' made : FileTree} {path text : String} {place : List String} {f g : File}

theorem read_eq_ok_iff : t.read path = .ok f ↔ t.find path = .ok (.file f) := by
  constructor
  · intro read
    obtain ⟨n, found, read⟩ := ok_of_bind read
    cases n with
    | file g => rw [found, Except.ok.inj read]
    | directory entries => cases read
  · intro found
    simp only [read, found, bind, Except.bind]

/-! ## Writing over a file -/

/-- The last name of a place is not too long for a file that is written there. -/
def NameFits (place : List String) : Prop :=
  ∀ name ∈ place.getLast?, name.utf8ByteSize ≤ maxNameLength

instance : Decidable (NameFits place) := inferInstanceAs (Decidable (∀ name ∈ place.getLast?, _))

theorem get?_above_ne_file (here : t.DirectoryAt place) : t.get? (above place) ≠ some (.file f) := by
  intro found
  have inside := inside_of_file found
  rw [above] at found inside
  split at found
  · rename_i outside
    rw [if_pos outside] at inside
    cases place with
    | nil => exact inside rfl
    | cons first rest =>
        rw [List.all_cons, Bool.and_eq_true, decide_eq_true_eq] at outside
        exact inside (congrArg some outside.1)
  · rename_i below
    have some : place ≠ [] := fun top => below (top ▸ rfl)
    have shorter : place ≠ place.dropLast := by
      intro same
      have length := congrArg List.length same
      have long := List.length_pos_of_ne_nil some
      rw [List.length_dropLast] at length
      omega
    obtain ⟨entries, there⟩ := here
    obtain ⟨others, directory⟩ := directoryAt_of_below (List.dropLast_prefix place) shorter there
    cases found.symm.trans directory

/-- A path that leads to a file names its directory and, in the end, the file. -/
theorem placeOf_of_find (found : t.find path = .ok (.file f)) :
    t.placeOf path =
      if NameFits (destination path) then .ok (destination path) else .error .nameTooLong := by
  obtain ⟨resolved, here⟩ := find_eq_ok_iff.mp found
  obtain ⟨first, started, followed⟩ := ok_of_bind resolved
  have spelled := (List.dropLast_append_getLast (parts_ne_nil path)).symm
  generalize (parts path).getLast (parts_ne_nil path) = name at spelled
  rw [spelled] at followed
  obtain ⟨directory, entered, last⟩ := foldlM_concat_ok followed
  obtain ⟨entries, inDirectory⟩ := directoryAt_of_follow last
  have leads := eq_toward_of_follow last
  -- A last part that stays or goes up would lead to a directory.
  have proper : name ∉ ["", ".", ".."] := by
    intro special
    rw [leads, toward] at here
    split at here
    · cases inDirectory.symm.trans here
    · rename_i moves
      rw [Bool.or_eq_true, decide_eq_true_eq, decide_eq_true_eq, not_or] at moves
      have up : name = ".." := by simpa [moves] using special
      rw [if_pos up] at here
      exact get?_above_ne_file ⟨entries, inDirectory⟩ here
  rw [toward_proper proper] at leads
  have named : (parts path).getLast?.getD "" = name := by rw [spelled]; simp
  simp only [List.mem_cons, List.not_mem_nil, or_false, not_or] at proper
  simp only [placeOf, named, started, entered, inDirectory, bind, Except.bind, proper.1, proper.2.1,
    proper.2.2, decide_false, Bool.or_self, Bool.false_eq_true, if_false, leads, NameFits,
    List.getLast?_concat, Option.mem_some_iff, forall_eq']
  split <;> split <;> first | rfl | omega

theorem write_of_find (found : t.find path = .ok (.file f)) (g : File) :
    t.write path g = if NameFits (destination path) then .ok (t.put (destination path) (.file g))
      else .error .nameTooLong := by
  obtain ⟨-, here⟩ := find_eq_ok_iff.mp found
  rw [write, placeOf_of_find found]
  split
  · simp only [bind, Except.bind, here]
  · rfl

/-- A file is saved again exactly when its name fits. -/
theorem exists_save_iff (found : t.find path = .ok (.file f)) :
    (∃ made, t.save path text = .ok made) ↔ NameFits (destination path) := by
  rw [save, write_of_find (t := { t with clock := t.clock + 1 }) found]
  split <;> simp [*]

/-! ## Trees that differ in one text -/

/-- A file with a text stands at a place. -/
def TextAt (t : FileTree) (place : List String) : Prop :=
  ∃ f text, t.get? place = some (.file f) ∧ f.text? = some text

/-- Two trees that differ at most in the text of one file. -/
structure Rewritten (place : List String) (t t' : FileTree) : Prop where
  forth : Spares (· = place) t t'
  back : Spares (· = place) t' t
  old : t.TextAt place
  new : t'.TextAt place

theorem Rewritten.symm (rewritten : Rewritten place t t') : Rewritten place t' t :=
  ⟨rewritten.back, rewritten.forth, rewritten.new, rewritten.old⟩

/-- A path that leads to the rewritten file still does. -/
theorem Rewritten.find (rewritten : Rewritten (destination path) t t')
    (found : t.find path = .ok (.file f)) :
    ∃ g text, t'.find path = .ok (.file g) ∧ g.text? = some text := by
  obtain ⟨g, text, there, content⟩ := rewritten.new
  obtain ⟨resolved, -⟩ := find_eq_ok_iff.mp found
  refine ⟨g, text, find_eq_ok_iff.mpr ⟨?_, there⟩, content⟩
  exact resolve_of_directories rewritten.forth.directories resolved (by rw [there]; rfl)

/-- A file makes no directory of anything, so none is new after a file was written. -/
theorem spares_back_of_write (written : t.write path f = .ok made)
    (inside : Inside (destination path)) : Spares (· = destination path) made t := by
  obtain ⟨forth, -⟩ := spares_write written
  obtain ⟨-, there⟩ := find_eq_ok_iff.mp (find_of_write written inside)
  obtain ⟨put, some, -⟩ := put_of_write written
  have free : ¬ made.DirectoryAt (destination path) := by
    rintro ⟨entries, directory⟩
    cases there.symm.trans directory
  refine spares_of_top (fun q apart => ?_) free fun q f differs => (forth.files q f differs).mpr
  rw [put, top_put some]
  exact (Node.spares_put _ _ _ q apart).imp Eq.symm And.symm

theorem rewritten_of_save (found : t.find path = .ok (.file f)) {old : String}
    (content : f.text? = some old) (saved : t.save path text = .ok made) :
    Rewritten (destination path) t made := by
  obtain ⟨-, here⟩ := find_eq_ok_iff.mp found
  have inside := inside_of_file here
  obtain ⟨-, there⟩ := find_eq_ok_iff.mp (find_of_save saved inside)
  obtain ⟨directories, files⟩ :=
    spares_back_of_write (t := { t with clock := t.clock + 1 }) saved inside
  exact ⟨(spares_save saved).1, ⟨directories, files⟩, ⟨f, old, here, content⟩,
    ⟨_, text, there, File.text?_ofText text t.clock⟩⟩

end WorkflowAudit.FileTree
