import WorkflowAudit.Proofs.Files.Place

/-! # What the program does to a tree

Making a directory touches no file, writing a file touches the place that its path names, and so does
removing one. A file that was written is found under its path, and one that was removed is not. A path
that is continued by a name leads through the directory that it continues.
-/

namespace WorkflowAudit.FileTree

variable {t made : FileTree} {path base text name : String} {place : List String} {f : File}

/-! ## What the program does to a tree -/

theorem spares_enter {names : List String} {result : Except FileError (List String)}
    (entered : t.enter place names = (made, result)) :
    Spares (fun _ => False) t made ∧ (t.top.Distinct → made.top.Distinct) := by
  induction names generalizing t place with
  | nil =>
      cases entered
      exact ⟨.refl _ _, id⟩
  | cons part rest ih =>
      rw [enter] at entered
      split at entered
      · exact ih entered
      · rename_i missing
        have nothing : t.get? (place ++ [part]) = none := by
          rw [follow] at missing
          split at missing
          · rename_i entries here
            split at missing
            · cases missing
            · split at missing
              · cases missing
              · rename_i down
                split at missing
                · cases missing
                · rename_i absent
                  rw [get?_concat here down]
                  exact Option.not_isSome_iff_eq_none.mp absent
          · cases missing
          · rename_i nowhere
            by_contra found
            obtain ⟨n, found⟩ := Option.ne_none_iff_exists'.mp found
            obtain ⟨entries, here⟩ :=
              directoryAt_of_below (List.prefix_append place [part]) (by simp) found
            rw [nowhere] at here
            cases here
        have some : place ++ [part] ≠ [] := by simp
        obtain ⟨later, distinct⟩ := ih entered
        refine ⟨(spares_put_empty some nothing).trans later, fun proper => distinct ?_⟩
        rw [top_put some]
        exact Node.distinct_put proper Node.distinct_empty _
      · cases entered
        exact ⟨.refl _ _, id⟩

theorem spares_makeDirectory {result : Except FileError Unit}
    (changed : t.makeDirectory path = (made, result)) :
    Spares (fun _ => False) t made ∧ (t.top.Distinct → made.top.Distinct) := by
  rw [makeDirectory] at changed
  split at changed
  · cases changed
    exact ⟨.refl _ _, id⟩
  · split at changed
    · cases changed
      exact ⟨.refl _ _, id⟩
    · split at changed
      · rename_i entered
        cases changed
        exact spares_enter entered
      · rename_i entered
        split at changed <;> cases changed <;> exact spares_enter entered

theorem put_of_write (written : t.write path f = .ok made) :
    made = t.put (destination path) (.file f) ∧ destination path ≠ [] ∧
      ¬ t.DirectoryAt (destination path) := by
  obtain ⟨place, placed, written⟩ := ok_of_bind written
  obtain ⟨-, directory, name, -, -, -, -, -, some⟩ := ok_of_placeOf placed
  obtain rfl := eq_destination_of_placeOf placed
  split at written
  · cases written
  · rename_i free
    refine ⟨(Except.ok.inj written).symm, by simp [some], ?_⟩
    rintro ⟨entries, found⟩
    exact free entries found

theorem spares_write (written : t.write path f = .ok made) :
    Spares (· = destination path) t made ∧ (t.top.Distinct → made.top.Distinct) := by
  obtain ⟨rfl, some, free⟩ := put_of_write written
  refine ⟨spares_put (Node.bare_file f) some free, fun distinct => ?_⟩
  rw [top_put some]
  exact Node.distinct_put distinct (Node.distinct_file f) _

/-- A file that was written inside the tree is found. -/
theorem find_of_write (written : t.write path f = .ok made) (inside : Inside (destination path)) :
    made.find path = .ok (.file f) := by
  obtain ⟨spares, -⟩ := spares_write written
  obtain ⟨put, -, -⟩ := put_of_write written
  obtain ⟨place, placed, -⟩ := ok_of_bind written
  obtain ⟨first, directory, name, started, spelled, followed, here, proper, same⟩ :=
    ok_of_placeOf placed
  obtain rfl := eq_destination_of_placeOf placed
  have upper : Inside directory := inside_of_below inside (same ▸ List.prefix_append _ _)
  have there : made.get? (destination path) = some (.file f) := by
    have below : t.top.DirectoryAt directory := by
      obtain ⟨entries, found⟩ := here
      exact ⟨entries, (get?_of_inside upper).symm.trans found⟩
    rw [put, get?_of_inside inside, top_put (by simp [same]), same]
    exact Node.get?_put_append below []
  refine find_eq_ok_iff.mpr ⟨?_, there⟩
  obtain ⟨entries, now⟩ := spares.directories directory here
  have entered := foldlM_follow_of_directories spares.directories followed (by rw [now]; rfl)
  simp only [List.mem_cons, List.not_mem_nil, or_false, not_or] at proper
  have last : made.follow directory name = .ok (destination path) := by
    have known : (entries.lookup name).isSome = true := by
      rw [← get?_concat now proper.2.2, ← same, there]
      rfl
    simp only [follow, now, proper.1, proper.2.1, proper.2.2, decide_false, Bool.or_self,
      Bool.false_eq_true, if_false, known, if_true, same]
  rw [resolve, started, spelled]
  simp only [bind, Except.bind, List.foldlM_append, entered]
  simp only [List.foldlM_cons, List.foldlM_nil, last, bind, Except.bind, pure, Except.pure]

theorem spares_save (saved : t.save path text = .ok made) :
    Spares (· = destination path) t made ∧ (t.top.Distinct → made.top.Distinct) := by
  -- The clock of a tree has no part in what stands where.
  obtain ⟨⟨directories, files⟩, distinct⟩ :=
    spares_write (t := { t with clock := t.clock + 1 }) saved
  exact ⟨⟨directories, files⟩, distinct⟩

theorem find_of_save (saved : t.save path text = .ok made) (inside : Inside (destination path)) :
    made.find path = .ok (.file (.ofText text t.clock)) :=
  find_of_write (t := { t with clock := t.clock + 1 }) saved inside

theorem erase_of_remove (removed : t.remove path = .ok made) :
    ∃ f, t.find path = .ok (.file f) ∧ made = t.erase (destination path) := by
  obtain ⟨n, found, removed⟩ := ok_of_bind removed
  cases n with
  | file f =>
      obtain ⟨place, resolved, removed⟩ := ok_of_bind removed
      obtain rfl := eq_destination_of_resolve resolved
      exact ⟨f, found, (Except.ok.inj removed).symm⟩
  | directory entries => cases removed

theorem spares_remove (distinct : t.top.Distinct) (removed : t.remove path = .ok made) :
    Spares (· = destination path) t made ∧ made.get? (destination path) = none ∧
      made.top.Distinct := by
  obtain ⟨f, found, rfl⟩ := erase_of_remove removed
  obtain ⟨-, here⟩ := find_eq_ok_iff.mp found
  obtain ⟨spares, gone⟩ := spares_erase distinct here
  refine ⟨spares, gone, ?_⟩
  have some : destination path ≠ [] := by
    intro top
    rw [top] at here
    cases here
  rw [top_erase some]
  exact Node.distinct_erase distinct _

theorem remove_of_find (found : t.find path = .ok (.file f)) :
    t.remove path = .ok (t.erase (destination path)) := by
  obtain ⟨resolved, -⟩ := find_eq_ok_iff.mp found
  simp only [remove, found, resolved, bind, Except.bind]

/-! ## Names in a directory -/

theorem parts_join (given : base ≠ "") (whole : '/' ∉ name.toList) :
    ∃ before, before ≠ [] ∧ parts (Path.join base name) = before ++ [name] ∧
      (parts base = before ∨ parts base = before ++ [""]) := by
  rw [Path.join, Path.isRelative_of_notMem whole]
  simp only [Bool.false_eq_true, if_false, given, decide_false, Bool.false_or]
  split
  · rename_i closed
    rw [beq_iff_eq, List.getLast?_eq_some_iff] at closed
    obtain ⟨before, spelled⟩ := closed
    refine ⟨(Path.splitOn '/' before).map String.ofList, ?_, ?_, .inr ?_⟩
    · simp [Path.splitOn_ne_nil]
    · simp [parts, spelled, Path.splitOn_append, Path.splitOn_of_notMem whole]
    · simp [parts, spelled, Path.splitOn_append, Path.splitOn]
  · refine ⟨parts base, parts_ne_nil base, ?_, .inl rfl⟩
    simp [parts, Path.splitOn_append, Path.splitOn_of_notMem whole]

theorem toList_join (base : String) (whole : '/' ∉ name.toList) :
    ∃ between, (Path.join base name).toList = base.toList ++ between ++ name.toList ∧
      (base = "" → between = []) := by
  rw [Path.join, Path.isRelative_of_notMem whole]
  simp only [Bool.false_eq_true, if_false]
  split
  · exact ⟨[], by simp, fun _ => rfl⟩
  · rename_i open_
    refine ⟨['/'], by simp, fun none => ?_⟩
    simp [none] at open_

theorem origin_join (given : base ≠ "") (whole : '/' ∉ name.toList) :
    origin (Path.join base name) = origin base := by
  obtain ⟨between, spelled, -⟩ := toList_join base whole
  have some : base.toList ≠ [] := fun none => given (String.toList_eq_nil_iff.mp none)
  obtain ⟨c, cs, first⟩ := List.exists_cons_of_ne_nil some
  rw [origin, origin, spelled, first]
  rfl

theorem destination_join (whole : '/' ∉ name.toList) (proper : name ∉ ["", ".", ".."]) :
    destination (Path.join base name) = destination base ++ [name] := by
  by_cases given : base = ""
  · subst given
    have relative : name.toList.head? ≠ some '/' := by simpa using Path.isRelative_of_notMem whole
    have alone : Path.join "" name = name := by simp [Path.join, relative]
    have named : parts name = [name] := by simp [parts, Path.splitOn_of_notMem whole]
    have top : destination "" = [] := rfl
    rw [alone, destination, named, List.foldl_cons, List.foldl_nil, toward_proper proper, top, origin,
      if_neg relative]
  · obtain ⟨before, -, joined, alone⟩ := parts_join given whole
    have same : (parts base).foldl toward (origin base) = before.foldl toward (origin base) := by
      rcases alone with alone | alone
      · rw [alone]
      · rw [alone, List.foldl_append]
        rfl
    rw [destination, destination, joined, origin_join given whole, same, List.foldl_append,
      List.foldl_cons, List.foldl_nil, toward_proper proper]

/-- A path to a name in a directory leads through the directory. -/
theorem list_of_resolve_join (given : base ≠ "") (whole : '/' ∉ name.toList)
    (resolved : t.resolve (Path.join base name) = .ok place) :
    ∃ entries, t.list base = .ok entries ∧
      t.get? (destination base) = some (.directory entries) := by
  obtain ⟨before, -, joined, alone⟩ := parts_join given whole
  obtain ⟨first, started, followed⟩ := ok_of_bind resolved
  rw [joined] at followed
  obtain ⟨directory, entered, last⟩ := foldlM_concat_ok followed
  obtain ⟨entries, here⟩ := directoryAt_of_follow last
  have begun : start base = .ok first := by
    obtain ⟨between, spelled, -⟩ := toList_join base whole
    have origins := origin_join given whole
    have size : base.utf8ByteSize ≤ (Path.join base name).utf8ByteSize := by
      have text : Path.join base name =
          base ++ String.ofList between ++ name := String.toList_inj.mp (by simpa using spelled)
      rw [text, String.utf8ByteSize_append, String.utf8ByteSize_append]
      omega
    have opened := eq_origin_of_start started
    rw [start, spelled] at started
    rw [start]
    split at started
    · cases started
    · rename_i printable
      have clean : ¬ base.toList.contains '\x00' = true := by
        intro null
        exact printable (by simp [List.contains_iff_mem.mp null])
      split at started
      · cases started
      · split at started
        · cases started
        · rename_i short
          rw [if_neg clean, if_neg given, if_neg (by omega), opened, origins]
          rfl
  have resolvedBase : t.resolve base = .ok directory := by
    rw [resolve, begun]
    rcases alone with alone | alone
    · rw [alone]
      exact entered
    · have stays : t.follow directory "" = .ok directory := by simp [follow, here]
      rw [alone]
      simp only [bind, Except.bind, List.foldlM_append, entered]
      simp only [List.foldlM_cons, List.foldlM_nil, stays, bind, Except.bind, pure, Except.pure]
  obtain rfl := eq_destination_of_resolve resolvedBase
  have found := find_eq_ok_iff.mpr ⟨resolvedBase, here⟩
  exact ⟨entries, by simp only [list, found, bind, Except.bind], here⟩

end WorkflowAudit.FileTree
