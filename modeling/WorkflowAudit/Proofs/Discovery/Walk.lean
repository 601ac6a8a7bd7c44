import WorkflowAudit.Discovery.Walk
import WorkflowAudit.Proofs.Data.Sorting
import WorkflowAudit.Proofs.Files.Order

/-! # What the walk finds

The walk leaves out what its filter passes by on the way down, which is the same as a test of the whole
place at the end: the names above a file decide whether the walk comes to it, and its own name whether it is
taken. So the walk finds exactly the source files, and sorting puts them in the order of their places.
-/

namespace WorkflowAudit.SourceFilter

open WorkflowAudit.Path

variable {o : SourceFilter} {path : String} {n : Node} {place : List String}
  {entries : List (String × Node)}

theorem below_directory (o : SourceFilter) (path : String) (entries : List (String × Node)) :
    o.below path (.directory entries) = entries.flatMap fun e =>
      if o.skips e.1 e.2 then [] else o.below (join path e.1) e.2 := by
  rw [below]
  induction entries with
  | nil => rfl
  | cons e entries ih => rw [belowEntries, ih, List.flatMap_cons]

/-- Whether the walk from a path takes the file at a place, as far as names tell. -/
def keeps (o : SourceFilter) (path : String) (place : List String) : Bool :=
  place.dropLast.all (fun name => !o.skipsDir name) && (o.recursive || place.length ≤ 1) &&
    o.isSource (extend path place)

/-- One step of the walk. -/
theorem keeps_cons {name : String} (inside : place ∈ n.files.map Prod.fst) :
    o.keeps path (name :: place) = (!o.skips name n && o.keeps (join path name) place) := by
  cases n with
  | file g =>
      obtain rfl := List.mem_singleton.mp inside
      rfl
  | directory entries =>
      -- Places below a directory are not empty, so the name is that of a directory.
      rw [Node.places_directory, List.mem_flatMap] at inside
      obtain ⟨⟨key, child⟩, -, inside⟩ := inside
      obtain ⟨rest, -, rfl⟩ := List.mem_map.mp inside
      have direct : decide ((name :: key :: rest).length ≤ 1) = false := by simp
      simp only [keeps, skips, Node.isDirectory, List.dropLast_cons_cons, List.all_cons, direct,
        Bool.or_false, extend, List.foldl_cons, Bool.true_and, Bool.not_or, Bool.not_not]
      cases o.recursive <;> cases o.skipsDir name <;> simp

theorem filter_keeps_cons (o : SourceFilter) (path name : String) (n : Node) :
    ((n.files.map Prod.fst).filter fun place => o.keeps path (name :: place)) =
      if o.skips name n then [] else (n.files.map Prod.fst).filter (o.keeps (join path name)) := by
  rw [List.filter_congr fun place inside => keeps_cons inside]
  cases o.skips name n with
  | true => exact List.filter_eq_nil_iff.mpr fun _ _ => Bool.false_ne_true
  | false => rfl

/-- The walk takes the files at the places that it keeps. -/
theorem below_eq (o : SourceFilter) (path : String) (n : Node) :
    o.below path n = ((n.files.map Prod.fst).filter (o.keeps path)).map (extend path) := by
  induction n using Node.induction generalizing path with
  | file f =>
      have kept : o.keeps path [] = o.isSource path := by simp [keeps, extend]
      simp only [below, Node.files, List.map_cons, List.map_nil, List.filter_cons, List.filter_nil, kept]
      split <;> rfl
  | directory entries ih =>
      rw [below_directory, Node.places_directory, List.filter_flatMap, List.map_flatMap]
      refine List.flatMap_congr fun e member => ?_
      rw [List.filter_map, List.map_map]
      refine Eq.trans ?_ (congrArg _ (filter_keeps_cons o path e.1 e.2).symm)
      split
      · rfl
      · exact ih e member (join path e.1)

/-- A source file below a directory: every directory between them is entered, and the file stands in
the first one unless the walk goes on. -/
structure SourceAt (o : SourceFilter) (n : Node) (place : List String) : Prop where
  file : ∃ f, n.get? place = some (.file f)
  entered : ∀ name ∈ place.dropLast, o.skipsDir name = false
  direct : o.recursive = false → place.length = 1
  /-- The extension follows the last dot of the name, which is not at the front. -/
  named : ∃ stem, stem ≠ "" ∧ place.getLast? = some (stem ++ "." ++ o.extension) ∧
    '.' ∉ o.extension.toList

theorem keeps_iff (named : ∀ name ∈ place, IsName name) (below : place ≠ []) :
    o.keeps path place = true ↔ (∀ name ∈ place.dropLast, o.skipsDir name = false) ∧
      (o.recursive = false → place.length = 1) ∧
      ∃ stem, stem ≠ "" ∧ place.getLast? = some (stem ++ "." ++ o.extension) ∧
        '.' ∉ o.extension.toList := by
  obtain ⟨upper, name, rfl⟩ := (List.eq_nil_or_concat' place).resolve_left below
  have last : IsName name := named name (by simp)
  have direct : (o.recursive || (upper ++ [name]).length ≤ 1) = true ↔
      (o.recursive = false → (upper ++ [name]).length = 1) := by
    cases o.recursive <;> simp
  simp only [keeps, isSource, extend_concat, extension?_join last, Bool.and_eq_true, List.all_eq_true,
    beq_iff_eq, extension_eq_some_iff, direct, and_assoc, Bool.not_eq_true', List.getLast?_concat,
    Option.some.injEq]

theorem mem_keeps_iff (proper : Node.WellFormed (.directory entries)) :
    place ∈ ((Node.directory entries).files.map Prod.fst).filter (o.keeps path) ↔
      o.SourceAt (.directory entries) place := by
  have listed : place ∈ (Node.directory entries).files.map Prod.fst ↔
      ∃ f, (Node.directory entries).get? place = some (.file f) := by
    simp only [List.mem_map, Prod.exists, Node.mem_files_iff proper.distinct, exists_and_right,
      exists_eq_right]
  rw [List.mem_filter, listed]
  have below {f : File} (found : (Node.directory entries).get? place = some (.file f)) :
      place ≠ [] := by
    rintro rfl
    cases found
  constructor
  · rintro ⟨⟨f, found⟩, kept⟩
    obtain ⟨entered, direct, named⟩ := (keeps_iff (proper.names_of_get? found) (below found)).mp kept
    exact ⟨⟨f, found⟩, entered, direct, named⟩
  · rintro ⟨⟨f, found⟩, entered, direct, named⟩
    exact ⟨⟨f, found⟩,
      (keeps_iff (proper.names_of_get? found) (below found)).mpr ⟨entered, direct, named⟩⟩

/-! ## Places in order -/

/-- The places of the source files below a path, in the order of their paths. -/
def places (o : SourceFilter) (path : String) (n : Node) : List (List String) :=
  sortBy (fun a b => le (extend path a) (extend path b))
    ((n.files.map Prod.fst).filter (o.keeps path))

theorem sortBy_below (o : SourceFilter) (path : String) (n : Node) :
    sortBy le (o.below path n) = (o.places path n).map (extend path) := by
  rw [below_eq, places, map_sortBy]

theorem mem_places_iff (proper : Node.WellFormed (.directory entries)) :
    place ∈ o.places path (.directory entries) ↔ o.SourceAt (.directory entries) place :=
  (perm_sortBy _ _).mem_iff.trans (mem_keeps_iff proper)

theorem isName_of_mem_places (proper : Node.WellFormed (.directory entries))
    (member : place ∈ o.places path (.directory entries)) : ∀ name ∈ place, IsName name := by
  obtain ⟨f, found⟩ := ((mem_places_iff proper).mp member).file
  exact proper.names_of_get? found

theorem pairwise_places (proper : Node.WellFormed (.directory entries)) :
    (o.places path (.directory entries)).Pairwise (List.Lex (· < ·)) := by
  have sorted := pairwise_sortBy (fun a b => le (extend path a) (extend path b))
    (fun _ _ => le_total _ _) (fun _ _ _ => le_trans _ _ _)
    (((Node.directory entries).files.map Prod.fst).filter (o.keeps path))
  have once : (o.places path (.directory entries)).Nodup :=
    (perm_sortBy _ _).nodup_iff.mpr ((Node.nodup_places proper.distinct).filter _)
  refine (sorted.and once).imp_of_mem fun {a b} left right ⟨least, differs⟩ => ?_
  have names := isName_of_mem_places proper left
  have names' := isName_of_mem_places proper right
  exact ((le_extend names names').mp least).resolve_left differs

end WorkflowAudit.SourceFilter

namespace WorkflowAudit.FileTree

open WorkflowAudit.Path SourceFilter

/-- The walk of a directory finds every source file below it once, in the order of paths, and nothing
else. What the directory itself is called does not matter. -/
theorem sourceFiles_exact {t : FileTree} {dir : String} {entries : List (String × Node)}
    (o : SourceFilter) (found : t.find dir = .ok (.directory entries))
    (proper : Node.WellFormed (.directory entries)) :
    (t.sourceFiles o dir).skipped = 0 ∧ (t.sourceFiles o dir).paths.Pairwise Before ∧
      ∃ places : List (List String), (t.sourceFiles o dir).paths = places.map (extend dir) ∧
        (∀ place, place ∈ places ↔ o.SourceAt (.directory entries) place) ∧
        places.Pairwise (List.Lex (· < ·)) ∧
        ∀ place ∈ places, destination (extend dir place) = destination dir ++ place := by
  have walked : t.sourceFiles o dir = ⟨(o.places dir (.directory entries)).map (extend dir), 0⟩ := by
    rw [sourceFiles, found, ← sortBy_below]
  have ordered : (o.places dir (.directory entries)).Pairwise _ := pairwise_places proper
  rw [walked]
  refine ⟨rfl, ?_, o.places dir (.directory entries), rfl, fun place => mem_places_iff proper, ordered,
    fun place member => destination_extend (isName_of_mem_places proper member)⟩
  refine List.pairwise_map.mpr (ordered.imp_of_mem fun left right less => ?_)
  have names := isName_of_mem_places proper left
  have names' := isName_of_mem_places proper right
  exact (before_extend_iff names names').mpr less

/-- What a directory may hold: reserved and hidden directories, a hidden file, a name without a stem, and
names whose order as texts is not that of their paths. -/
def siteEntries : List (String × Node) :=
  let file : Node := .file (.ofText "" 0)
  [("a.py", file), (".env.py", file), ("notes.txt", file),
    ("a-b", .directory [("x.py", file), (".py", file)]),
    ("a", .directory [("b.tar.py", file), ("c.py", .directory [])]),
    ("build", .directory [("d.py", file)]), (".git", .directory [("e.py", file)])]

theorem sourceFiles_exact_siteEntries :
    let t : FileTree := { entries := [(".site", .directory siteEntries)] }
    let o : SourceFilter := { reservedDirs := ["build"], excludeHidden := true }
    (t.sourceFiles o ".site").paths =
        [".site/.env.py", ".site/a/b.tar.py", ".site/a-b/x.py", ".site/a.py"] ∧
      (t.sourceFiles o ".site").paths.Pairwise Before ∧
      ∀ place, o.SourceAt (.directory siteEntries) place →
        extend ".site" place ∈ (t.sourceFiles o ".site").paths := by
  intro t o
  have found : t.find ".site" = .ok (.directory siteEntries) := by
    refine find_eq_ok_iff.mpr ⟨?_, rfl⟩
    decide +kernel
  have proper : Node.WellFormed (.directory siteEntries) := by decide +kernel
  obtain ⟨-, ordered, places, spelled, complete, -⟩ := sourceFiles_exact o found proper
  refine ⟨by decide +kernel, ordered, fun place source => ?_⟩
  rw [spelled]
  exact List.mem_map.mpr ⟨place, (complete place).mpr source, rfl⟩

end WorkflowAudit.FileTree
