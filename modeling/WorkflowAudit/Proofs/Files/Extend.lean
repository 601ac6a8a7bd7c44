import WorkflowAudit.Proofs.Files.Change
import WorkflowAudit.Proofs.Text.Search

/-! # Paths continued by names

What a directory holds is found under names without slashes. A path that is continued by such names has its
own components and then the names, it leads to the place below its own, and its extension is that of the last
name: what follows the last dot, unless the dot is at the front.
-/

namespace WorkflowAudit.Path

open FileTree

variable {base name extension : String}

/-! ## Names -/

/-- A text that can stand for an entry of a directory. -/
structure IsName (name : String) : Prop where
  whole : '/' ∉ name.toList
  proper : name ∉ ["", ".", ".."]

instance : DecidablePred IsName := fun name =>
  decidable_of_iff ('/' ∉ name.toList ∧ name ∉ ["", ".", ".."])
    ⟨fun ⟨whole, proper⟩ => ⟨whole, proper⟩, fun ⟨whole, proper⟩ => ⟨whole, proper⟩⟩

theorem IsName.head?_ne (known : IsName name) : name.toList.head? ≠ some '/' :=
  beq_eq_false_iff_ne.mp (isRelative_of_notMem known.whole)

theorem IsName.join_empty (known : IsName name) : join "" name = name := by
  simp [join, known.head?_ne]

theorem IsName.parts_eq (known : IsName name) : parts name = [name] := by
  simp [parts, splitOn_of_notMem known.whole]

/-! ## Components -/

/-- What a part of a path says behind the front. -/
def component? (part : String) : Option Component :=
  if part = "" || part = "." then none
  else if part = ".." then some .parentDir
  else some (.normal part)

/-- What the first part says in front of the others. -/
def front (path : String) : List Component :=
  if path.toList.head? == some '/' then [.root]
  else if (parts path).head? == some "." then [.currentDir] else []

theorem components_eq (path : String) :
    components path = front path ++ (parts path).filterMap component? := rfl

theorem IsName.component?_eq (known : IsName name) : component? name = some (.normal name) := by
  have proper := known.proper
  simp only [List.mem_cons, List.not_mem_nil, or_false, not_or] at proper
  simp [component?, proper]

theorem IsName.components_eq (known : IsName name) : components name = [.normal name] := by
  have dot : name ≠ "." := fun same => known.proper (by simp [same])
  rw [Path.components_eq, front, known.parts_eq]
  simp [known.head?_ne, known.component?_eq, dot]

theorem components_join (known : IsName name) :
    components (join base name) = components base ++ [.normal name] := by
  by_cases given : base = ""
  · rw [given, known.join_empty, known.components_eq]
    rfl
  · obtain ⟨before, some, joined, alone⟩ := parts_join given known.whole
    obtain ⟨part, rest, rfl⟩ := List.exists_cons_of_ne_nil some
    have fronts : front (join base name) = front base := by
      obtain ⟨between, spelled, -⟩ := toList_join base known.whole
      obtain ⟨c, cs, first⟩ := List.exists_cons_of_ne_nil (mt String.toList_eq_nil_iff.mp given)
      rw [front, front, joined, spelled, first]
      rcases alone with alone | alone <;> rw [alone] <;> rfl
    have behind : (parts base).filterMap component? = (part :: rest).filterMap component? := by
      rcases alone with alone | alone
      · rw [alone]
      · rw [alone, List.filterMap_append]
        exact List.append_nil _
    rw [components_eq, components_eq, fronts, behind, joined, List.filterMap_append]
    simp [known.component?_eq]

theorem fileName?_join (known : IsName name) : fileName? (join base name) = some name := by
  rw [fileName?, components_join known, List.getLast?_concat]

theorem extension?_join (known : IsName name) :
    extension? (join base name) = (splitExtension name).2 := by
  rw [extension?, fileName?_join known, Option.bind_some]

theorem IsName.extension?_eq (known : IsName name) : extension? name = (splitExtension name).2 := by
  have joined : extension? (join "" name) = _ := extension?_join known
  rwa [known.join_empty] at joined

/-! ## Extensions -/

theorem splitExtension_of_spelled {stem after : List Char} (spelled : name.toList = stem ++ '.' :: after)
    (undotted : '.' ∉ after) :
    splitExtension name =
      if stem = [] then (name, none) else (String.ofList stem, some (String.ofList after)) := by
  have last : (name.toList.reverse.takeWhile (· ≠ '.')).reverse = after := by
    have clean : ∀ c ∈ after.reverse, (c ≠ '.' : Bool) = true := by
      intro c inside
      rw [decide_eq_true_eq]
      rintro rfl
      exact undotted (List.mem_reverse.mp inside)
    rw [spelled, List.reverse_append, List.reverse_cons, List.append_assoc,
      List.takeWhile_append_of_pos clean]
    simp
  have longer : name.toList.length = stem.length + after.length + 1 := by
    rw [spelled, List.length_append, List.length_cons]
    omega
  have before : name.toList.take (name.toList.length - after.length - 1) = stem := by
    rw [longer, spelled]
    exact List.take_left' (by omega)
  have differs : after.length ≠ name.toList.length := by omega
  simp only [splitExtension, last, before, differs, decide_false, Bool.false_or, List.isEmpty_iff]

theorem splitExtension_of_undotted (undotted : '.' ∉ name.toList) :
    splitExtension name = (name, none) := by
  have whole : (name.toList.reverse.takeWhile (· ≠ '.')).reverse = name.toList := by
    rw [List.reverse_eq_iff, List.takeWhile_eq_self_iff]
    intro c inside
    rw [decide_eq_true_eq]
    rintro rfl
    exact undotted (List.mem_reverse.mp inside)
  simp only [splitExtension, whole, decide_true, Bool.true_or, if_true]

/-- The extension follows the last dot, and something stands before the dot. -/
theorem extension_eq_some_iff : (splitExtension name).2 = some extension ↔
    ∃ stem, stem ≠ "" ∧ name = stem ++ "." ++ extension ∧ '.' ∉ extension.toList := by
  constructor
  · intro known
    by_cases dotted : '.' ∈ name.toList
    · obtain ⟨after, stem, spelled, undotted⟩ :=
        List.eq_append_cons_of_mem (List.mem_reverse.mpr dotted)
      have spelled : name.toList = stem.reverse ++ '.' :: after.reverse := by
        rw [List.reverse_eq_iff] at spelled
        simp [spelled]
      rw [splitExtension_of_spelled spelled (mt List.mem_reverse.mp undotted)] at known
      split at known
      · cases known
      · rename_i some
        refine ⟨String.ofList stem.reverse, by simpa using some, ?_, ?_⟩
        · rw [← Option.some.inj known, ← String.toList_inj]
          simp [spelled]
        · rw [← Option.some.inj known, String.toList_ofList]
          exact mt List.mem_reverse.mp undotted
    · rw [splitExtension_of_undotted dotted] at known
      cases known
  · rintro ⟨stem, some, rfl, undotted⟩
    have spelled : (stem ++ "." ++ extension).toList = stem.toList ++ '.' :: extension.toList := by simp
    rw [splitExtension_of_spelled spelled undotted, if_neg (by simpa using some)]
    exact congrArg Option.some String.ofList_toList

/-! ## Several names -/

/-- The path of a place below the one that a path names. -/
def extend (base : String) (place : List String) : String := place.foldl join base

theorem components_extend {place : List String} (names : ∀ name ∈ place, IsName name) :
    components (extend base place) = components base ++ place.map .normal := by
  induction place generalizing base with
  | nil => exact (List.append_nil _).symm
  | cons name place ih =>
      obtain ⟨known, names⟩ := List.forall_mem_cons.mp names
      have rest : components (extend (join base name) place) = _ := ih names
      rw [extend, List.foldl_cons, ← extend, rest, components_join known, List.append_assoc]
      rfl

theorem destination_extend {place : List String} (names : ∀ name ∈ place, IsName name) :
    destination (extend base place) = destination base ++ place := by
  induction place generalizing base with
  | nil => exact (List.append_nil _).symm
  | cons name place ih =>
      obtain ⟨known, names⟩ := List.forall_mem_cons.mp names
      have rest : destination (extend (join base name) place) = _ := ih names
      rw [extend, List.foldl_cons, ← extend, rest, destination_join known.whole known.proper,
        List.append_assoc]
      rfl

theorem extend_concat (base : String) (place : List String) (name : String) :
    extend base (place ++ [name]) = join (extend base place) name := by
  rw [extend, List.foldl_append]
  rfl

end WorkflowAudit.Path

/-! ## Names in a tree -/

namespace WorkflowAudit.Node

variable {n m : Node} {place : List String} {entries : List (String × Node)}

/-- What a file system can hold: the entries of a directory have names, and no two of them have the
same one. -/
structure WellFormed (n : Node) : Prop where
  distinct : n.Distinct
  named : ∀ place entries, get? place n = some (.directory entries) → ∀ e ∈ entries, Path.IsName e.1

theorem WellFormed.child (proper : WellFormed (.directory entries)) {name : String}
    (known : entries.lookup name = some n) : Path.IsName name ∧ n.WellFormed := by
  refine ⟨proper.named [] entries rfl _ (mem_of_lookup known), distinct_child proper.distinct known,
    fun place others found => proper.named (name :: place) others ?_⟩
  rw [get?, known]
  exact found

theorem wellFormed_directory_iff : WellFormed (.directory entries) ↔
    (entries.map Prod.fst).Nodup ∧ ∀ e ∈ entries, Path.IsName e.1 ∧ e.2.WellFormed := by
  constructor
  · intro proper
    have distinct := (distinct_directory_iff.mp proper.distinct).1
    exact ⟨distinct, fun e member => proper.child ((lookup_eq_some_iff_mem distinct).mpr member)⟩
  · rintro ⟨distinct, proper⟩
    constructor
    · exact distinct_directory_iff.mpr
        ⟨distinct, fun name child known => (proper _ (mem_of_lookup known)).2.distinct⟩
    · rintro (_ | ⟨name, place⟩) others found
      · obtain rfl := Node.directory.inj (Option.some.inj found)
        exact fun e member => (proper e member).1
      · obtain ⟨child, known, found⟩ := Option.bind_eq_some_iff.mp found
        exact (proper _ (mem_of_lookup known)).2.named place others found

theorem wellFormed_file (f : File) : WellFormed (.file f) := by
  refine ⟨distinct_file f, ?_⟩
  rintro (_ | ⟨name, place⟩) entries found <;> cases found

mutual
def isWellFormed : Node → Bool
  | .file _ => true
  | .directory entries => decide (entries.map Prod.fst).Nodup && areWellFormed entries

def areWellFormed : List (String × Node) → Bool
  | [] => true
  | (name, n) :: entries => decide (Path.IsName name) && isWellFormed n && areWellFormed entries
end

theorem areWellFormed_eq (entries : List (String × Node)) :
    areWellFormed entries = entries.all fun e => decide (Path.IsName e.1) && e.2.isWellFormed := by
  induction entries with
  | nil => rfl
  | cons e entries ih => rw [areWellFormed, ih, List.all_cons]

theorem isWellFormed_iff : n.isWellFormed = true ↔ n.WellFormed := by
  induction n using Node.induction with
  | file f => exact iff_of_true rfl (wellFormed_file f)
  | directory entries ih =>
      simp only [isWellFormed, areWellFormed_eq, wellFormed_directory_iff, Bool.and_eq_true,
        List.all_eq_true, decide_eq_true_eq]
      exact and_congr_right fun _ => forall₂_congr fun e member => and_congr_right fun _ => ih e member

instance : DecidablePred WellFormed := fun _ => decidable_of_iff _ isWellFormed_iff

theorem WellFormed.names_of_get? (proper : n.WellFormed) (found : get? place n = some m) :
    ∀ name ∈ place, Path.IsName name := by
  induction place generalizing n with
  | nil => exact fun name none => nomatch none
  | cons name place ih =>
      cases n with
      | file f => cases found
      | directory entries =>
          obtain ⟨child, known, found⟩ := Option.bind_eq_some_iff.mp found
          obtain ⟨named, inner⟩ := proper.child known
          exact List.forall_mem_cons.mpr ⟨named, ih inner found⟩

end WorkflowAudit.Node
