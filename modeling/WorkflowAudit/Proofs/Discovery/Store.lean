import WorkflowAudit.Proofs.Discovery.Cache
import WorkflowAudit.Proofs.Files.Extend

/-! # The cache as a store

The directory of a cache holds at most one record for a fingerprint, at a place that the fingerprint
alone decides. A record that is put is found by every cache of that directory until another one is put
under its fingerprint or the directory is cleared. Nothing else in the tree matters, as long as the
program is the only one to write records.
-/

namespace WorkflowAudit

namespace DiscoveryCache

open FileTree

variable {c : DiscoveryCache} {t t' : FileTree} {dir path : String} {f g : Fingerprint}
  {resources : List Resource} {r : ScanRecord}

/-! ## Places of records -/

theorem recordName_injective : Function.Injective recordName := by
  intro f g same
  have spelled := congrArg String.toList same
  rw [toList_recordName, toList_recordName, List.append_cancel_right_eq] at spelled
  have hex : f.toHex = g.toHex := by rw [Fingerprint.toHex, spelled, Fingerprint.toHex]
  have read := Fingerprint.ofHex_toHex f
  rw [hex, Fingerprint.ofHex_toHex] at read
  exact (Except.ok.inj read).symm

theorem isRecord_recordName (f : Fingerprint) (file : File) :
    isRecord (recordName f) (.file file) = true := by
  have digits : f.bytes.flatMap Fingerprint.hexByte ≠ [] := by
    intro none
    have size := f.length_eq
    cases bytes : f.bytes with
    | nil => simp [bytes] at size
    | cons b rest => simp [bytes, Fingerprint.hexByte] at none
  have name : Path.IsName (recordName f) := ⟨slash_notMem_recordName f, recordName_proper f⟩
  have known : (Path.splitExtension (recordName f)).2 = some extension := by
    rw [Path.splitExtension_of_spelled (toList_recordName f) (by decide), if_neg digits]
    rfl
  rw [isRecord, name.extension?_eq, known]
  rfl

/-- Where the record for a fingerprint stands. -/
def recordPlace (dir : String) (f : Fingerprint) : List String := destination dir ++ [recordName f]

theorem destination_record (dir : String) (f : Fingerprint) :
    destination (Path.join dir (recordName f)) = recordPlace dir f :=
  destination_join (slash_notMem_recordName f) (recordName_proper f)

theorem destination_recordPath (c : DiscoveryCache) (f : Fingerprint) :
    destination (c.recordPath f) = recordPlace c.dir f := destination_record c.dir f

theorem recordPlace_injective : Function.Injective (recordPlace dir) := by
  intro f g same
  exact recordName_injective (List.singleton_inj.mp (List.append_cancel_left same))

theorem recordPath_inj (c : DiscoveryCache) : c.recordPath f = c.recordPath g ↔ f = g := by
  refine ⟨fun same => ?_, congrArg c.recordPath⟩
  have places : recordPlace c.dir f = recordPlace c.dir g := by
    rw [← destination_recordPath, ← destination_recordPath, same]
  exact recordPlace_injective places

/-- The address of a record tells the path of a file, its size and its time from that of every other file,
if the hashes are told apart. Times before 1970 all count as its beginning. -/
theorem recordPath_ofFile_identifies (path path' : String) (modified modified' : Int)
    (size size' : Nat) :
    (Fingerprint.hashedBytes path modified size = Fingerprint.hashedBytes path' modified' size' ↔
      path = path' ∧ (modified = modified' ∨ modified ≤ 0 ∧ modified' ≤ 0) ∧ size = size') ∧
    ∀ c : DiscoveryCache,
      c.recordPath (.ofFile path modified size) = c.recordPath (.ofFile path' modified' size') ↔
        (path = path' ∧ (modified = modified' ∨ modified ≤ 0 ∧ modified' ≤ 0) ∧ size = size') ∨
        Fingerprint.Collide (Fingerprint.hashedBytes path modified size)
          (Fingerprint.hashedBytes path' modified' size') := by
  refine ⟨Fingerprint.hashedBytes_eq_iff, fun c => ?_⟩
  rw [c.recordPath_inj, ← Fingerprint.hashedBytes_eq_iff]
  exact Fingerprint.ofBytes_eq_iff

theorem inside_recordPlace (inside : Inside (destination dir)) (f : Fingerprint) :
    Inside (recordPlace dir f) := by
  rw [recordPlace]
  cases place : destination dir with
  | nil =>
      intro above
      have name : recordName f = ".." := Option.some.inj above
      exact recordName_proper f (by simp [name])
  | cons first rest =>
      rw [place] at inside
      exact inside

/-! ## What a directory keeps -/

/-- A directory keeps a record for a fingerprint, or it keeps none. -/
def Keeps (dir : String) (t : FileTree) (f : Fingerprint) : Option ScanRecord → Prop
  | some r => ∃ file, t.find (Path.join dir (recordName f)) = .ok (.file file) ∧
      file.text? = some r.toDocument
  | none => ∀ file, t.get? (recordPlace dir f) ≠ some (.file file)

/-- A record is kept when its place is spared. -/
theorem Keeps.of_spares {changed : List String → Prop} {kept : Option ScanRecord}
    (keeps : Keeps dir t f kept) (spares : Spares changed t t') (apart : ¬ changed (recordPlace dir f)) :
    Keeps dir t' f kept := by
  cases kept with
  | some r =>
      obtain ⟨file, found, content⟩ := keeps
      exact ⟨file, spares.find found (by rwa [destination_record]), content⟩
  | none => exact fun file found => keeps file ((spares.files _ file apart).mp found)

/-- What a lookup finds is read from a file at the place of the record. -/
theorem file_of_lookup (found : c.lookup t path f = some resources) :
    ∃ file text, t.get? (recordPlace c.dir f) = some (.file file) ∧ file.text? = some text ∧
      ScanRecord.ofDocument? text = some ⟨path, f, resources⟩ := by
  unfold lookup at found
  split at found
  · cases found
  · rename_i text read
    obtain ⟨place, file, resolved, here, content⟩ := exists_file_of_readText read
    rw [eq_destination_of_resolve resolved, destination_recordPath] at here
    split at found
    · rename_i r decoded
      obtain ⟨⟨rfl, rfl⟩, same⟩ := Option.ite_none_right_eq_some.mp found
      obtain rfl := Option.some.inj same
      exact ⟨file, text, here, content, decoded⟩
    · cases found

/-- A lookup finds what is kept, if it is about the path. -/
theorem lookup_eq_some_iff {kept : Option ScanRecord} (keeps : Keeps c.dir t f kept)
    (storable : ∀ r, kept = some r → ∀ resource ∈ r.resources, resource.Storable) :
    c.lookup t path f = some resources ↔ kept = some ⟨path, f, resources⟩ := by
  cases kept with
  | none =>
      refine ⟨fun found => ?_, fun none => nomatch none⟩
      obtain ⟨file, text, here, -⟩ := file_of_lookup found
      exact absurd here (keeps file)
  | some r =>
      obtain ⟨file, found, content⟩ := keeps
      have read : t.readText (c.recordPath f) = .ok r.toDocument := readText_of_find found content
      have decoded := ScanRecord.ofDocument?_toDocument (storable r rfl)
      unfold lookup
      split
      · rename_i failed
        rw [read] at failed
        cases failed
      · rename_i text same
        rw [read] at same
        obtain rfl := Except.ok.inj same
        split
        · rename_i s again
          rw [decoded] at again
          obtain rfl := Option.some.inj again
          obtain ⟨filePath, fingerprint, listed⟩ := r
          simp only [Option.ite_none_right_eq_some, Option.some.injEq, ScanRecord.mk.injEq,
            and_assoc]
        · rename_i none
          rw [decoded] at none
          cases none

theorem get_fst (c : DiscoveryCache) (t : FileTree) (path : String) (f : Fingerprint) :
    (c.get t path f).1 = c.lookup t path f := by
  unfold get
  split
  · rename_i looked
    rw [looked]
  · rename_i looked
    rw [looked]

theorem get_of_lookup (missing : c.lookup t path f = none) :
    c.get t path f = (none, { c with misses := c.misses + 1 }) := by
  unfold get
  rw [missing]

/-! ## Putting -/

/-- A put that is counted changes the place of its record, another one changes no file. -/
theorem spares_put (c : DiscoveryCache) (t : FileTree) (path : String) (f : Fingerprint)
    (resources : List Resource) :
    Spares (fun place => c.writes < (c.put t path f resources).2.writes ∧ place = recordPlace c.dir f)
        t (c.put t path f resources).1 ∧
      (t.top.Distinct → (c.put t path f resources).1.top.Distinct) := by
  unfold put
  split
  · rename_i made
    obtain ⟨spares, distinct⟩ := spares_makeDirectory made
    exact ⟨spares.mono fun place none => none.elim, distinct⟩
  · rename_i made
    obtain ⟨spares, distinct⟩ := spares_makeDirectory made
    split
    · rename_i saved
      obtain ⟨after, distinctAfter⟩ := spares_save saved
      refine ⟨(spares.mono fun place none => none.elim).trans (after.mono fun place here => ?_),
        fun proper => distinctAfter (distinct proper)⟩
      exact ⟨Nat.lt_succ_self _, here.trans (destination_recordPath c f)⟩
    · exact ⟨spares.mono fun place none => none.elim, distinct⟩

/-- A file at the place of a record is the record, if it was put, or was there before. -/
theorem file_of_put_record {file : File}
    (found : (c.put t path f resources).1.get? (recordPlace c.dir g) = some (.file file)) :
    (g = f ∧ file.text? = some (ScanRecord.toDocument ⟨path, f, resources⟩)) ∨
      t.get? (recordPlace c.dir g) = some (.file file) := by
  refine (file_of_put found).imp_left ?_
  rintro ⟨name, content⟩
  rw [recordPlace, List.getLast?_concat] at name
  exact ⟨recordName_injective (Option.some.inj name), content⟩

theorem dir_put (c : DiscoveryCache) (t : FileTree) (path : String) (f : Fingerprint)
    (resources : List Resource) : (c.put t path f resources).2.dir = c.dir := by
  unfold put
  split
  · rfl
  · split <;> rfl

theorem dir_get (c : DiscoveryCache) (t : FileTree) (path : String) (f : Fingerprint) :
    (c.get t path f).2.dir = c.dir := by
  unfold get
  split <;> rfl

/-- A record that is put and counted is kept. -/
theorem keeps_put (inside : Inside (destination c.dir))
    (written : c.writes < (c.put t path f resources).2.writes) :
    Keeps c.dir (c.put t path f resources).1 f (some ⟨path, f, resources⟩) := by
  unfold put at written ⊢
  split
  · rename_i made
    rw [made] at written
    exact absurd written (Nat.lt_irrefl _)
  · rename_i made
    rw [made] at written
    dsimp only at written
    split
    · rename_i saved
      have place : Inside (destination (c.recordPath f)) := by
        rw [destination_recordPath]
        exact inside_recordPlace inside f
      exact ⟨_, find_of_save saved place, File.text?_ofText _ _⟩
    · rename_i failed
      rw [failed] at written
      exact absurd written (Nat.lt_irrefl _)

/-! ## Clearing -/

/-- The tree without some files of a directory, and how many were there. -/
def removeAll (dir : String) (names : List String) (state : FileTree × Nat) : FileTree × Nat :=
  names.foldl (fun (t, removed) name =>
    match t.remove (Path.join dir name) with
    | .ok t => (t, removed + 1)
    | .error _ => (t, removed)) state

theorem clear_eq (c : DiscoveryCache) (t : FileTree) :
    c.clear t = removeAll c.dir (c.records t) (t, 0) := rfl

/-- Removing files changes no others and brings none back. -/
theorem removed_removeAll {names : List String} {n : Nat} (distinct : t.top.Distinct) :
    (removeAll dir names (t, n)).1.top.Distinct ∧
      ∀ place file, (removeAll dir names (t, n)).1.get? place = some (.file file) →
        t.get? place = some (.file file) := by
  induction names generalizing t n with
  | nil => exact ⟨distinct, fun _ _ => id⟩
  | cons name names ih =>
      rw [removeAll, List.foldl_cons]
      dsimp only
      split
      · rename_i removed
        obtain ⟨spares, gone, distinctAfter⟩ := spares_remove distinct removed
        obtain ⟨distinctLater, later⟩ := ih distinctAfter
        refine ⟨distinctLater, fun place file there => ?_⟩
        have found := later place file there
        refine (spares.files place file ?_).mp found
        rintro rfl
        rw [gone] at found
        cases found
      · exact ih distinct

/-- A file that is found in a directory is gone when it was removed with others. -/
theorem get?_removeAll {names : List String} {name : String} {n : Nat} {file : File}
    (distinct : t.top.Distinct) (member : name ∈ names)
    (found : t.find (Path.join dir name) = .ok (.file file)) (other : File) :
    (removeAll dir names (t, n)).1.get? (destination (Path.join dir name)) ≠ some (.file other) := by
  induction names generalizing t n with
  | nil => cases member
  | cons first names ih =>
      rw [removeAll, List.foldl_cons]
      dsimp only
      split
      · rename_i removed
        obtain ⟨spares, gone, distinctAfter⟩ := spares_remove distinct removed
        by_cases same : destination (Path.join dir name) = destination (Path.join dir first)
        · intro there
          have before := (removed_removeAll distinctAfter).2 _ other there
          rw [same, gone] at before
          cases before
        · have inside : name ∈ names :=
            (List.mem_cons.mp member).resolve_left fun here => same (by rw [here])
          exact ih distinctAfter inside (spares.find found same)
      · rename_i failed
        have inside : name ∈ names := by
          refine (List.mem_cons.mp member).resolve_left ?_
          rintro rfl
          rw [remove_of_find found] at failed
          cases failed
        exact ih distinct inside found

theorem mem_records (given : c.dir ≠ "") {file : File}
    (found : t.find (Path.join c.dir (recordName f)) = .ok (.file file)) :
    recordName f ∈ c.records t := by
  obtain ⟨resolved, here⟩ := find_eq_ok_iff.mp found
  obtain ⟨entries, listed, directory⟩ :=
    list_of_resolve_join given (slash_notMem_recordName f) resolved
  have proper := recordName_proper f
  simp only [List.mem_cons, List.not_mem_nil, or_false, not_or] at proper
  rw [destination_record, recordPlace, get?_concat directory proper.2.2] at here
  rw [records, listed]
  exact List.mem_map.mpr
    ⟨_, List.mem_filter.mpr ⟨mem_of_lookup here, isRecord_recordName f file⟩, rfl⟩

/-- A directory that has a name keeps nothing when it was cleared. -/
theorem keeps_clear (distinct : t.top.Distinct) (given : c.dir ≠ "") {kept : Option ScanRecord}
    (keeps : Keeps c.dir t f kept) : Keeps c.dir (c.clear t).1 f none := by
  rw [clear_eq]
  cases kept with
  | none =>
      exact fun file there => keeps file ((removed_removeAll distinct).2 _ file there)
  | some r =>
      obtain ⟨file, found, -⟩ := keeps
      have gone := get?_removeAll (n := 0) distinct (mem_records given found) found
      rwa [destination_record] at gone

/-- The directory without a name cannot be listed, so it is not cleared, although records are put
into it. -/
theorem clear_of_unnamed (unnamed : c.dir = "") : c.clear t = (t, 0) := by
  have none : c.records t = [] := by
    rw [records, unnamed]
    rfl
  rw [clear_eq, none]
  rfl

theorem distinct_clear (distinct : t.top.Distinct) : (c.clear t).1.top.Distinct := by
  rw [clear_eq]
  exact (removed_removeAll distinct).1

end DiscoveryCache

end WorkflowAudit
