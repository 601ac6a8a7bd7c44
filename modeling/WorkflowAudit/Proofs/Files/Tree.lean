import Mathlib.Data.List.Basic
import WorkflowAudit.Files.Tree
import WorkflowAudit.Proofs.Data.Result

/-! # What changes in a file tree

The program changes a tree by putting files and empty directories at places. A file that is found
afterwards is the one that was put, or it was there before. A path leads to a place that ends in the
last part of the path.
-/

namespace WorkflowAudit

/-! ## Parts of paths -/

namespace Path

theorem splitOn_ne_nil (separator : Char) (cs : List Char) : splitOn separator cs ≠ [] := by
  cases cs with
  | nil => exact List.cons_ne_nil _ _
  | cons c cs =>
      rw [splitOn]
      split
      · exact List.cons_ne_nil _ _
      · split <;> exact List.cons_ne_nil _ _

theorem splitOn_of_notMem {separator : Char} {cs : List Char} (whole : separator ∉ cs) :
    splitOn separator cs = [cs] := by
  induction cs with
  | nil => rfl
  | cons c cs ih =>
      simp only [List.mem_cons, not_or] at whole
      obtain ⟨differs, rest⟩ := whole
      rw [splitOn, if_neg (Ne.symm differs), ih rest]

theorem splitOn_append (separator : Char) (before after : List Char) :
    splitOn separator (before ++ separator :: after) =
      splitOn separator before ++ splitOn separator after := by
  induction before with
  | nil => simp [splitOn]
  | cons c before ih =>
      rw [List.cons_append, splitOn, splitOn, ih]
      split
      · rfl
      · cases parts : splitOn separator before with
        | nil => exact absurd parts (splitOn_ne_nil _ _)
        | cons part others => rfl

theorem isRelative_of_notMem {name : String} (whole : '/' ∉ name.toList) :
    (name.toList.head? == some '/') = false := by
  rw [beq_eq_false_iff_ne]
  exact fun first => whole (List.mem_of_head? first)

/-- A path that is continued by a name ends in it. -/
theorem getLast?_parts_join (base : String) {name : String} (whole : '/' ∉ name.toList) :
    (FileTree.parts (join base name)).getLast? = some name := by
  have spelled : (join base name).toList = name.toList ∨
      ∃ before, (join base name).toList = before ++ '/' :: name.toList := by
    rw [join, isRelative_of_notMem whole]
    simp only [Bool.false_eq_true, if_false]
    split
    · rename_i closed
      rw [Bool.or_eq_true, decide_eq_true_eq, beq_iff_eq, List.getLast?_eq_some_iff] at closed
      rcases closed with rfl | ⟨before, spelled⟩
      · exact .inl (by simp)
      · exact .inr ⟨before, by simp [spelled]⟩
    · exact .inr ⟨base.toList, by simp⟩
  rw [FileTree.parts, List.getLast?_map]
  rcases spelled with spelled | ⟨before, spelled⟩
  · rw [spelled, splitOn_of_notMem whole]
    simp
  · rw [spelled, splitOn_append, splitOn_of_notMem whole]
    simp

end Path

/-! ## Nodes -/

@[simp] theorem File.text?_ofText (text : String) (modified : Int) :
    (File.ofText text modified).text? = some text :=
  dif_pos text.isValidUTF8

namespace Node

theorem lookup_alter (name key : String) {f : Option Node → Option Node}
    (keeps : ∀ n, (f (some n)).isSome = true) (entries : List (String × Node)) :
    (alter name f entries).lookup key =
      if key = name then f (entries.lookup name) else entries.lookup key := by
  induction entries with
  | nil =>
      simp only [alter, List.lookup_nil]
      cases f none with
      | none => simp
      | some n =>
          by_cases same : key = name
          · simp [same]
          · simp [List.lookup_cons, same, beq_false_of_ne same]
  | cons e entries ih =>
      obtain ⟨k, n⟩ := e
      obtain ⟨new, put⟩ := Option.isSome_iff_exists.mp (keeps n)
      simp only [alter, List.lookup_cons]
      by_cases here : k = name
      · subst here
        by_cases same : key = k
        · simp [same, put]
        · simp [same, put, List.lookup_cons, beq_false_of_ne same]
      · simp only [here, if_false, List.lookup_cons, ih, beq_false_of_ne (Ne.symm here)]
        by_cases same : key = name
        · simp [same, beq_false_of_ne (Ne.symm here)]
        · simp [same]

/-- No file stands below a node. -/
def Bare (n : Node) : Prop := ∀ place g, get? place n = some (.file g) → place = []

theorem bare_file (f : File) : Bare (.file f) := by
  rintro (_ | ⟨name, place⟩) g found
  · rfl
  · cases found

theorem bare_empty : Bare (.directory []) := by
  rintro (_ | ⟨name, place⟩) g found
  · rfl
  · cases found

/-- A file that is found after a node was put is that node, or was there before. -/
theorem file_of_get?_put {new : Node} (bare : Bare new) {place other : List String} {n : Node}
    {g : File} (found : get? other (put place n new) = some (.file g)) :
    (other = place ∧ new = .file g) ∨ get? other n = some (.file g) := by
  induction place generalizing other n with
  | nil =>
      rw [put] at found
      obtain rfl := bare other g found
      exact .inl ⟨rfl, Option.some.inj found⟩
  | cons name rest ih =>
      cases n with
      | file f =>
          rw [put] at found
          exact .inr found
      | directory entries =>
          cases other with
          | nil => cases rest <;> rw [put] at found <;> cases found
          | cons key others =>
              cases rest with
              | nil =>
                  rw [put, get?, lookup_alter _ _ fun _ => rfl] at found
                  split at found
                  · rename_i same
                    obtain rfl := bare others g found
                    exact .inl ⟨by rw [same], Option.some.inj found⟩
                  · exact .inr found
              | cons next rest =>
                  rw [put, get?, lookup_alter _ _ fun _ => rfl] at found
                  · split at found
                    · rename_i same
                      subst same
                      obtain ⟨n', inside, found⟩ := Option.bind_eq_some_iff.mp found
                      obtain ⟨old, known, rfl⟩ := Option.map_eq_some_iff.mp inside
                      rcases ih found with ⟨rfl, here⟩ | before
                      · exact .inl ⟨rfl, here⟩
                      · exact .inr (Option.bind_eq_some_iff.mpr ⟨old, known, before⟩)
                    · exact .inr found
                  · exact List.cons_ne_nil _ _

end Node

/-! ## Trees -/

namespace FileTree

variable {t made : FileTree} {path text : String} {place other : List String} {f g : File}

theorem file_of_get?_put {new : Node} (bare : new.Bare)
    (found : (t.put place new).get? other = some (.file g)) :
    (other = place ∧ new = .file g) ∨ t.get? other = some (.file g) := by
  simp only [get?] at found ⊢
  split at found
  · split at found <;> cases found
  · rename_i inside
    rw [if_neg inside]
    cases whole : t.top.put place new with
    | file f =>
        rw [put, whole, setTop] at found
        exact .inr found
    | directory entries =>
        rw [put, whole, setTop, top, ← whole] at found
        exact Node.file_of_get?_put bare found

/-- The directories made on the way hold no files. -/
theorem file_of_enter {names : List String} {result : Except FileError (List String)}
    (entered : t.enter place names = (made, result)) (found : made.get? other = some (.file g)) :
    t.get? other = some (.file g) := by
  induction names generalizing t place with
  | nil =>
      cases entered
      exact found
  | cons part rest ih =>
      rw [enter] at entered
      split at entered
      · exact ih entered
      · rcases file_of_get?_put Node.bare_empty (ih entered) with ⟨-, file⟩ | before
        · cases file
        · exact before
      · cases entered
        exact found

theorem file_of_makeDirectory {result : Except FileError Unit}
    (changed : t.makeDirectory path = (made, result)) (found : made.get? other = some (.file g)) :
    t.get? other = some (.file g) := by
  rw [makeDirectory] at changed
  split at changed
  · cases changed
    exact found
  · split at changed
    · cases changed
      exact found
    · split at changed
      · rename_i entered
        cases changed
        exact file_of_enter entered found
      · rename_i entered
        split at changed <;> cases changed <;> exact file_of_enter entered found

/-! ## Paths -/

theorem getLast?_of_resolve {name : String} (resolved : t.resolve path = .ok place)
    (last : (parts path).getLast? = some name) (proper : name ∉ ["", ".", ".."]) :
    place.getLast? = some name := by
  obtain ⟨before, spelled⟩ := List.getLast?_eq_some_iff.mp last
  obtain ⟨start, -, followed⟩ := ok_of_bind resolved
  rw [spelled] at followed
  obtain ⟨above, -, followed⟩ := foldlM_concat_ok followed
  simp only [List.mem_cons, List.not_mem_nil, or_false, not_or] at proper
  rw [follow] at followed
  split at followed
  · simp only [proper.1, proper.2.1, proper.2.2, decide_false, Bool.or_self, Bool.false_eq_true,
      if_false] at followed
    split at followed
    · rw [← Except.ok.inj followed, List.getLast?_concat]
    · split at followed <;> cases followed
  · cases followed
  · cases followed

theorem getLast?_of_placeOf (placed : t.placeOf path = .ok place) :
    place.getLast? = (parts path).getLast? := by
  have any : parts path ≠ [] := by simp [parts, Path.splitOn_ne_nil]
  obtain ⟨start, -, placed⟩ := ok_of_bind placed
  obtain ⟨directory, -, placed⟩ := ok_of_bind placed
  split at placed
  · split at placed
    · cases placed
    · split at placed
      · cases placed
      · rw [← Except.ok.inj placed, List.getLast?_concat, List.getLast?_eq_some_getLast any]
        rfl
  · cases placed

/-- A text that is read is that of a file. -/
theorem exists_file_of_readText (read : t.readText path = .ok text) :
    ∃ place f, t.resolve path = .ok place ∧ t.get? place = some (.file f) ∧
      f.text? = some text := by
  obtain ⟨f, read, decoded⟩ := ok_of_bind read
  obtain ⟨n, found, read⟩ := ok_of_bind read
  obtain ⟨place, resolved, found⟩ := ok_of_bind found
  refine ⟨place, f, resolved, ?_, ?_⟩
  · split at found
    · rename_i here
      cases found
      split at read
      · rw [here, Except.ok.inj read]
      · cases read
    · cases found
  · split at decoded
    · rename_i same
      rw [same, Except.ok.inj decoded]
    · cases decoded

/-- A file that is found after a file was written is that file, at a place of that name, or was there
before. -/
theorem file_of_write (written : t.write path f = .ok made)
    (found : made.get? other = some (.file g)) :
    (other.getLast? = (parts path).getLast? ∧ g = f) ∨ t.get? other = some (.file g) := by
  obtain ⟨place, placed, written⟩ := ok_of_bind written
  have put : made = t.put place (.file f) := by
    split at written
    · cases written
    · exact (Except.ok.inj written).symm
  rw [put] at found
  rcases file_of_get?_put (Node.bare_file f) found with ⟨rfl, same⟩ | before
  · exact .inl ⟨getLast?_of_placeOf placed, (Node.file.inj same).symm⟩
  · exact .inr before

end FileTree

end WorkflowAudit
