import WorkflowAudit.Proofs.Files.Node

/-! # Where paths lead

There are no links in a tree, so a path names one place, whatever the tree holds. Whether it leads
there depends on the directories on the way. The program loses no directory, so a path that led to a
place goes on leading to it as long as something is there. A change is described by the places whose
files it may touch.
-/

namespace WorkflowAudit.FileTree

variable {t t' u : FileTree} {path name part : String} {place next q : List String} {n new : Node}
  {f : File}

/-! ## Places that paths name -/

/-- Where a part of a path leads from a place, if it leads anywhere. -/
def toward (place : List String) (part : String) : List String :=
  if part = "" || part = "." then place else if part = ".." then above place else place ++ [part]

/-- The place where a path starts. -/
def origin (path : String) : List String := if path.toList.head? = some '/' then [".."] else []

/-- The place that a path names, whether anything is there or not. -/
def destination (path : String) : List String := (parts path).foldl toward (origin path)

theorem toward_proper (proper : name ∉ ["", ".", ".."]) (place : List String) :
    toward place name = place ++ [name] := by
  simp only [List.mem_cons, List.not_mem_nil, or_false, not_or] at proper
  simp only [toward, proper.1, proper.2.1, proper.2.2, decide_false, Bool.or_self,
    Bool.false_eq_true, if_false]

theorem eq_toward_of_follow (followed : t.follow place part = .ok next) :
    next = toward place part := by
  rw [follow] at followed
  split at followed
  · rw [toward]
    split at followed
    · rename_i stays
      rw [if_pos stays]
      exact (Except.ok.inj followed).symm
    · rename_i moves
      rw [if_neg moves]
      split at followed
      · rename_i up
        rw [if_pos up]
        exact (Except.ok.inj followed).symm
      · rename_i down
        rw [if_neg down]
        split at followed
        · exact (Except.ok.inj followed).symm
        · split at followed <;> cases followed
  · cases followed
  · cases followed

theorem eq_foldl_of_follow {names : List String}
    (followed : names.foldlM t.follow place = .ok next) : next = names.foldl toward place := by
  induction names generalizing place with
  | nil => exact (Except.ok.inj followed).symm
  | cons part names ih =>
      obtain ⟨here, first, rest⟩ := ok_of_bind followed
      rw [List.foldl_cons, ← eq_toward_of_follow first]
      exact ih rest

theorem eq_origin_of_start (started : start path = .ok place) : place = origin path := by
  rw [start] at started
  split at started
  · cases started
  · split at started
    · cases started
    · split at started
      · cases started
      · exact (Except.ok.inj started).symm

theorem eq_destination_of_resolve (resolved : t.resolve path = .ok place) :
    place = destination path := by
  obtain ⟨first, started, followed⟩ := ok_of_bind resolved
  rw [destination, ← eq_origin_of_start started]
  exact eq_foldl_of_follow followed

theorem parts_ne_nil (path : String) : parts path ≠ [] := by
  simp [parts, Path.splitOn_ne_nil]

/-- A file may be written into a directory under a proper name. -/
theorem ok_of_placeOf (placed : t.placeOf path = .ok place) :
    ∃ first directory name, start path = .ok first ∧ parts path = (parts path).dropLast ++ [name] ∧
      (parts path).dropLast.foldlM t.follow first = .ok directory ∧
      (∃ entries, t.get? directory = some (.directory entries)) ∧ name ∉ ["", ".", ".."] ∧
      place = directory ++ [name] := by
  obtain ⟨first, started, placed⟩ := ok_of_bind placed
  obtain ⟨directory, followed, placed⟩ := ok_of_bind placed
  have last : (parts path).getLast?.getD "" = (parts path).getLast (parts_ne_nil path) := by
    rw [List.getLast?_eq_some_getLast (parts_ne_nil path)]
    rfl
  rw [last] at placed
  split at placed
  · rename_i entries here
    split at placed
    · cases placed
    · rename_i proper
      split at placed
      · cases placed
      · refine ⟨first, directory, (parts path).getLast (parts_ne_nil path), started,
          (List.dropLast_append_getLast _).symm, followed, ⟨entries, here⟩, ?_,
          (Except.ok.inj placed).symm⟩
        simpa [not_or, and_assoc] using proper
  · cases placed

theorem eq_destination_of_placeOf (placed : t.placeOf path = .ok place) :
    place = destination path := by
  obtain ⟨first, directory, name, started, spelled, followed, -, proper, rfl⟩ := ok_of_placeOf placed
  rw [destination, spelled, List.foldl_append, ← eq_origin_of_start started,
    ← eq_foldl_of_follow followed, List.foldl_cons, List.foldl_nil, toward_proper proper]

/-! ## What stands at a place -/

/-- A place below the top. -/
def Inside (place : List String) : Prop := place.head? ≠ some ".."

instance : Decidable (Inside place) := inferInstanceAs (Decidable (place.head? ≠ some ".."))

def DirectoryAt (t : FileTree) (place : List String) : Prop :=
  ∃ entries, t.get? place = some (.directory entries)

theorem get?_of_inside (inside : Inside place) : t.get? place = t.top.get? place := if_neg inside

/-- Above the top only empty directories are seen. -/
theorem get?_of_outside (outside : ¬ Inside place) (found : t.get? place = some n) :
    n = .directory [] ∧ place.all (· = "..") = true := by
  rw [get?, if_pos (not_not.mp outside)] at found
  split at found
  · rename_i above
    exact ⟨(Option.some.inj found).symm, above⟩
  · cases found

theorem inside_of_file (found : t.get? place = some (.file f)) : Inside place := by
  by_contra outside
  cases (get?_of_outside outside found).1

theorem get?_congr_of_outside (outside : ¬ Inside place) : t.get? place = u.get? place := by
  rw [get?, get?, if_pos (not_not.mp outside), if_pos (not_not.mp outside)]

theorem inside_of_below (inside : Inside q) (within : place <+: q) : Inside place := by
  obtain ⟨rest, rfl⟩ := within
  cases place with
  | nil => simp [Inside]
  | cons name place => exact inside

theorem get?_concat {entries : List (String × Node)}
    (here : t.get? place = some (.directory entries)) (proper : name ≠ "..") :
    t.get? (place ++ [name]) = entries.lookup name := by
  by_cases inside : Inside place
  · have further : Inside (place ++ [name]) := by
      cases place with
      | nil => simpa [Inside] using proper
      | cons first place => exact inside
    rw [get?_of_inside inside] at here
    rw [get?_of_inside further, Node.get?_append, here]
    rw [Option.bind_some, Node.get?]
    cases entries.lookup name <;> rfl
  · obtain ⟨same, -⟩ := get?_of_outside inside here
    obtain rfl := Node.directory.inj same
    have outside : (place ++ [name]).head? = some ".." := by
      rw [List.head?_append, not_not.mp inside]
      rfl
    simp [get?, outside, proper]

/-- What stands below a place stands in a directory. -/
theorem directoryAt_of_below (within : place <+: q) (below : q ≠ place)
    (found : t.get? q = some n) : t.DirectoryAt place := by
  obtain ⟨rest, rfl⟩ := within
  by_cases inside : Inside (place ++ rest)
  · have upper := inside_of_below inside (List.prefix_append place rest)
    rw [get?_of_inside inside, Node.get?_append] at found
    obtain ⟨m, here, found⟩ := Option.bind_eq_some_iff.mp found
    cases m with
    | file f =>
        cases rest with
        | nil => simp at below
        | cons name rest => cases found
    | directory entries => exact ⟨entries, (get?_of_inside upper).trans here⟩
  · obtain ⟨-, above⟩ := get?_of_outside inside found
    rw [List.all_append, Bool.and_eq_true] at above
    cases place with
    | nil => exact ⟨t.entries, rfl⟩
    | cons first place =>
        have outside : first = ".." := by simpa [Inside] using inside
        exact ⟨[], by rw [get?, if_pos (by simp [outside]), if_pos above.1]⟩

/-! ## Changes -/

/-- No directory is lost, and files change at some places only. -/
structure Spares (changed : List String → Prop) (t t' : FileTree) : Prop where
  directories : ∀ place, t.DirectoryAt place → t'.DirectoryAt place
  files : ∀ place f, ¬ changed place →
    (t'.get? place = some (.file f) ↔ t.get? place = some (.file f))

namespace Spares

variable {changed more : List String → Prop}

theorem refl (changed : List String → Prop) (t : FileTree) : Spares changed t t :=
  ⟨fun _ => id, fun _ _ _ => Iff.rfl⟩

theorem trans (first : Spares changed t t') (second : Spares changed t' u) : Spares changed t u where
  directories place here := second.directories place (first.directories place here)
  files place f apart := (second.files place f apart).trans (first.files place f apart)

theorem mono (spares : Spares changed t t') (fewer : ∀ place, changed place → more place) :
    Spares more t t' where
  directories := spares.directories
  files place f apart := spares.files place f fun touched => apart (fewer place touched)

end Spares

theorem top_put (some : place ≠ []) : (t.put place new).top = t.top.put place new := by
  obtain ⟨name, rest, rfl⟩ := List.exists_cons_of_ne_nil some
  cases rest <;> simp [put, top, setTop, Node.put]

theorem top_erase (some : place ≠ []) : (t.erase place).top = t.top.erase place := by
  obtain ⟨name, rest, rfl⟩ := List.exists_cons_of_ne_nil some
  cases rest <;> simp [erase, top, setTop, Node.erase]

/-- Away from a place nothing changes with the top but the entries of directories. -/
theorem get?_of_spares (spares : Node.Spares place t.top u.top) (apart : ¬ place <+: q) :
    u.get? q = t.get? q ∨ (t.DirectoryAt q ∧ u.DirectoryAt q) := by
  by_cases inside : Inside q
  · simpa only [get?_of_inside inside, DirectoryAt, Node.DirectoryAt] using spares q apart
  · exact .inl (get?_congr_of_outside inside)

/-- A change at a place that holds no directory. -/
theorem spares_of_top (spares : Node.Spares place t.top u.top)
    (free : ¬ t.DirectoryAt place)
    (below : ∀ q f, q ≠ place → u.get? q = .some (.file f) → t.get? q = .some (.file f)) :
    Spares (· = place) t u where
  directories q here := by
    by_cases within : place <+: q
    · obtain ⟨entries, found⟩ := here
      by_cases same : q = place
      · exact absurd ⟨entries, same ▸ found⟩ free
      · exact absurd (directoryAt_of_below within same found) free
    · rcases get?_of_spares spares within with same | ⟨-, there⟩
      · rwa [DirectoryAt, same]
      · exact there
  files q f differs := by
    refine ⟨below q f differs, fun found => ?_⟩
    have apart : ¬ place <+: q := fun within => free (directoryAt_of_below within differs found)
    rcases get?_of_spares spares apart with same | ⟨⟨entries, directory⟩, -⟩
    · rwa [same]
    · rw [found] at directory
      cases directory

theorem spares_put (bare : new.Bare) (some : place ≠ []) (free : ¬ t.DirectoryAt place) :
    Spares (· = place) t (t.put place new) := by
  refine spares_of_top ?_ free fun q f differs found => ?_
  · rw [top_put some]
    exact Node.spares_put place t.top new
  · exact (file_of_get?_put bare found).resolve_left fun here => differs here.1

theorem spares_erase (distinct : t.top.Distinct) (found : t.get? place = some (.file f)) :
    Spares (· = place) t (t.erase place) ∧ (t.erase place).get? place = none := by
  have some : place ≠ [] := by
    rintro rfl
    cases found
  have inside := inside_of_file found
  have gone : ∀ rest, (t.erase place).get? (place ++ rest) = none := by
    intro rest
    have further : Inside (place ++ rest) := by
      obtain ⟨name, place, rfl⟩ := List.exists_cons_of_ne_nil some
      exact inside
    rw [get?_of_inside further, top_erase some]
    exact Node.get?_erase_append distinct some rest
  have free : ¬ t.DirectoryAt place := by
    rintro ⟨entries, directory⟩
    rw [found] at directory
    cases directory
  have spares : Node.Spares place t.top (t.erase place).top := by
    rw [top_erase some]
    exact Node.spares_erase place t.top
  refine ⟨spares_of_top spares free fun q g _ there => ?_, by simpa using gone []⟩
  have apart : ¬ place <+: q := by
    rintro ⟨rest, rfl⟩
    rw [gone rest] at there
    cases there
  rcases get?_of_spares spares apart with same | ⟨-, entries, directory⟩
  · rwa [← same]
  · rw [there] at directory
    cases directory

/-- A directory that is made where nothing was. -/
theorem spares_put_empty (some : place ≠ []) (missing : t.get? place = none) :
    Spares (fun _ => False) t (t.put place (.directory [])) := by
  have free : ¬ t.DirectoryAt place := by
    rintro ⟨entries, found⟩
    rw [missing] at found
    cases found
  obtain ⟨directories, files⟩ := spares_put Node.bare_empty some free
  refine ⟨directories, fun q f _ => ?_⟩
  by_cases same : q = place
  · subst same
    refine ⟨fun found => ?_, fun found => ?_⟩
    · exact (file_of_get?_put Node.bare_empty found).resolve_left fun here => nomatch here.2
    · rw [missing] at found
      cases found
  · exact files q f same

/-! ## Paths that go on leading to a place -/

/-- A part of a path leads where something is. -/
theorem follow_of_directories (keeps : ∀ place, t.DirectoryAt place → t'.DirectoryAt place)
    (followed : t.follow place part = .ok next) (there : (t'.get? next).isSome = true) :
    t'.follow place part = .ok next := by
  rw [follow] at followed ⊢
  split at followed
  · rename_i entries here
    obtain ⟨others, now⟩ := keeps place ⟨entries, here⟩
    rw [now]
    dsimp only
    split at followed
    · rename_i stays
      rwa [if_pos stays]
    · rename_i moves
      rw [if_neg moves]
      split at followed
      · rename_i up
        rwa [if_pos up]
      · rename_i down
        rw [if_neg down]
        split at followed
        · obtain rfl := Except.ok.inj followed
          rw [get?_concat now down] at there
          rw [if_pos there]
        · split at followed <;> cases followed
  · cases followed
  · cases followed

theorem directoryAt_of_follow (followed : t.follow place part = .ok next) : t.DirectoryAt place := by
  rw [follow] at followed
  split at followed
  · rename_i entries here
    exact ⟨entries, here⟩
  · cases followed
  · cases followed

theorem foldlM_follow_of_directories {names : List String}
    (keeps : ∀ place, t.DirectoryAt place → t'.DirectoryAt place)
    (followed : names.foldlM t.follow place = .ok next) (there : (t'.get? next).isSome = true) :
    names.foldlM t'.follow place = .ok next := by
  induction names generalizing place with
  | nil => exact followed
  | cons part names ih =>
      obtain ⟨here, first, rest⟩ := ok_of_bind followed
      have present : (t'.get? here).isSome = true := by
        cases names with
        | nil =>
            obtain rfl := Except.ok.inj rest
            exact there
        | cons later names =>
            obtain ⟨_, second, _⟩ := ok_of_bind rest
            obtain ⟨entries, found⟩ := keeps here (directoryAt_of_follow second)
            rw [found]
            rfl
      rw [List.foldlM_cons, follow_of_directories keeps first present]
      exact ih rest

theorem find_eq_ok_iff : t.find path = .ok n ↔
    t.resolve path = .ok (destination path) ∧ t.get? (destination path) = some n := by
  constructor
  · intro found
    obtain ⟨place, resolved, found⟩ := ok_of_bind found
    obtain rfl := eq_destination_of_resolve resolved
    refine ⟨resolved, ?_⟩
    split at found
    · rename_i here
      rw [here, Except.ok.inj found]
    · cases found
  · rintro ⟨resolved, here⟩
    simp only [find, resolved, here, bind, Except.bind]

theorem resolve_of_directories (keeps : ∀ place, t.DirectoryAt place → t'.DirectoryAt place)
    (resolved : t.resolve path = .ok place) (there : (t'.get? place).isSome = true) :
    t'.resolve path = .ok place := by
  obtain ⟨first, started, followed⟩ := ok_of_bind resolved
  simp only [resolve, started, bind, Except.bind]
  exact foldlM_follow_of_directories keeps followed there

/-- A file that was not touched is found again. -/
theorem Spares.find {changed : List String → Prop} (spares : Spares changed t t')
    (found : t.find path = .ok (.file f)) (apart : ¬ changed (destination path)) :
    t'.find path = .ok (.file f) := by
  obtain ⟨resolved, here⟩ := find_eq_ok_iff.mp found
  have there := (spares.files _ f apart).mpr here
  refine find_eq_ok_iff.mpr ⟨?_, there⟩
  exact resolve_of_directories spares.directories resolved (by rw [there]; rfl)

theorem readText_of_find {text : String} (found : t.find path = .ok (.file f))
    (content : f.text? = some text) : t.readText path = .ok text := by
  simp only [readText, read, found, content, bind, Except.bind]

end WorkflowAudit.FileTree
