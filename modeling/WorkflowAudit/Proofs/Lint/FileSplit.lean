import Mathlib.Data.List.Flatten
import Mathlib.Data.List.Nodup
import Mathlib.Data.List.Perm.Basic
import Mathlib.Data.List.TakeWhile
import WorkflowAudit.Lint.JobCategory
import WorkflowAudit.Proofs.Data.OrderedMap
import WorkflowAudit.Proofs.Text.Digits

/-!
# Suggested files

The jobs of a category are cut into parts, each part gets a file, and the files of all categories
are loaded into one map. A name that was made twice would hide jobs there. It is not: the letters
of a name tell its category and the digits behind them its number. So the map holds what was cut,
and the cuts lose nothing.
-/

namespace WorkflowAudit.FileSplit

/-! ## Parts of a list -/

section Chunks

variable {α : Type u} {size : Nat} {xs part : List α}

theorem flatten_chunks (size : Nat) (xs : List α) : (chunks size xs).flatten = xs := by
  induction xs using chunks.induct size with
  | case1 => simp [chunks]
  | case2 x xs ih => rw [chunks, List.flatten_cons, ih, List.cons_append, List.take_append_drop]

theorem length_of_mem_chunks (positive : 1 ≤ size) (member : part ∈ chunks size xs) :
    1 ≤ part.length ∧ part.length ≤ size := by
  induction xs using chunks.induct size with
  | case1 => simp [chunks] at member
  | case2 x xs ih =>
      rw [chunks, List.mem_cons] at member
      rcases member with rfl | later
      · rw [List.length_cons, List.length_take]
        omega
      · exact ih later

/-- There are no more parts than needed. -/
theorem length_chunks (positive : 1 ≤ size) (xs : List α) :
    (chunks size xs).length = (xs.length + size - 1) / size := by
  induction xs using chunks.induct size with
  | case1 => rw [chunks, List.length_nil, List.length_nil, Nat.div_eq_of_lt (by omega)]
  | case2 x xs ih =>
      rw [chunks, List.length_cons, ih, List.length_drop, ← Nat.add_div_right _ positive,
        List.length_cons]
      by_cases short : xs.length ≤ size - 1
      · rw [Nat.div_eq_of_lt_le, Nat.div_eq_of_lt_le (k := 1)] <;> omega
      · congr 1
        omega

end Chunks

/-! ## Names of files -/

/-- The name of file number `i` of a category, counted from 0. -/
def numberedStem (category : JobCategory) (i : Nat) : String := s!"{category.fileStem}{i + 1}"

/-- The names for a number of files of one category, in the order of their numbers. -/
def stems (category : JobCategory) : Nat → List String
  | 0 => []
  | 1 => [category.fileStem]
  | count => (List.range count).map (numberedStem category)

section Stems

variable {c d : JobCategory} {stem : String}

theorem fileStem_injective : Function.Injective JobCategory.fileStem := by
  intro c d same
  cases c <;> cases d <;> first | rfl | exact absurd same (by decide)

theorem isDigit_of_mem_fileStem : ∀ x ∈ c.fileStem.toList, !x.isDigit := by
  rw [← List.all_eq_true]
  cases c <;> decide

theorem toList_numberedStem (c : JobCategory) (i : Nat) :
    (numberedStem c i).toList = c.fileStem.toList ++ Nat.toDigits 10 (i + 1) := by
  have spelled : numberedStem c i = c.fileStem ++ (i + 1).repr := rfl
  simp [spelled]

theorem numberedStem_injective (c : JobCategory) : Function.Injective (numberedStem c) := by
  intro i j same
  have digits := congrArg String.toList same
  rw [toList_numberedStem, toList_numberedStem, List.append_cancel_left_eq] at digits
  exact Nat.succ.inj (Text.toDigits_injective digits)

theorem letters_numberedStem (c : JobCategory) (i : Nat) :
    (numberedStem c i).toList.takeWhile (!·.isDigit) = c.fileStem.toList := by
  rw [toList_numberedStem, List.takeWhile_append_of_pos isDigit_of_mem_fileStem]
  cases digits : Nat.toDigits 10 (i + 1) with
  | nil => simp
  | cons x xs =>
      have digit : x.isDigit = true :=
        Nat.isDigit_of_mem_toDigits (by decide) (by decide) (digits ▸ List.mem_cons_self)
      simp [digit]

theorem letters_of_mem_stems {count : Nat} (member : stem ∈ stems c count) :
    stem.toList.takeWhile (!·.isDigit) = c.fileStem.toList := by
  match count, member with
  | 1, member =>
      rw [List.mem_singleton.mp member]
      exact List.takeWhile_eq_self_iff.mpr isDigit_of_mem_fileStem
  | count + 2, member =>
      obtain ⟨i, -, rfl⟩ := List.mem_map.mp member
      exact letters_numberedStem c i

/-- Files of different categories have different names, whatever their numbers. -/
theorem category_of_mem_stems {m n : Nat} (left : stem ∈ stems c m) (right : stem ∈ stems d n) :
    c = d := by
  refine fileStem_injective (String.toList_inj.mp ?_)
  rw [← letters_of_mem_stems left, letters_of_mem_stems right]

theorem nodup_stems (c : JobCategory) (count : Nat) : (stems c count).Nodup := by
  match count with
  | 0 => exact List.nodup_nil
  | 1 => exact List.nodup_singleton _
  | count + 2 => exact List.nodup_range.map (numberedStem_injective c)

end Stems

/-! ## The files of one category -/

section FilesOf

variable {size : Nat} {names : List String} {c : JobCategory}

theorem flatMap_filesOf (size : Nat) (c : JobCategory) (names : List String) :
    (filesOf size c names).flatMap Prod.snd = names := by
  unfold filesOf
  split
  · simp
  · have parts : (chunks size names).zipIdx.flatMap Prod.fst = (chunks size names).flatten := by
      rw [List.flatMap_def, List.zipIdx_map_fst]
    rw [List.flatMap_map]
    exact parts.trans (flatten_chunks size names)

variable (positive : 1 ≤ size) (some : names ≠ [])

include positive some

theorem length_of_mem_filesOf {file : String × List String} (member : file ∈ filesOf size c names) :
    1 ≤ file.2.length ∧ file.2.length ≤ size := by
  unfold filesOf at member
  split at member
  · rename_i fits
    obtain rfl := List.mem_singleton.mp member
    exact ⟨List.length_pos_of_ne_nil some, fits⟩
  · obtain ⟨⟨part, i⟩, listed, rfl⟩ := List.mem_map.mp member
    exact length_of_mem_chunks positive (List.fst_mem_of_mem_zipIdx listed)

theorem length_filesOf : (filesOf size c names).length = (names.length + size - 1) / size := by
  unfold filesOf
  split
  · have := List.length_pos_of_ne_nil some
    rw [List.length_singleton, Nat.div_eq_of_lt_le (k := 1)] <;> omega
  · rw [List.length_map, List.length_zipIdx, length_chunks positive]

theorem map_fst_filesOf :
    (filesOf size c names).map Prod.fst = stems c (filesOf size c names).length := by
  by_cases fits : names.length ≤ size
  · simp only [filesOf, if_pos fits]
    rfl
  · have several : 2 ≤ (names.length + size - 1) / size := by
      rw [Nat.le_div_iff_mul_le positive]
      omega
    obtain ⟨n, count⟩ := Nat.exists_eq_add_of_le' several
    have numbers : (chunks size names).zipIdx.map Prod.snd = List.range (n + 2) := by
      rw [List.zipIdx_map_snd, length_chunks positive, count, List.range_eq_range']
    rw [length_filesOf positive some, count, filesOf, if_neg fits]
    calc
      _ = ((chunks size names).zipIdx.map Prod.snd).map (numberedStem c) := by
        rw [List.map_map, List.map_map]
        rfl
      _ = stems c (n + 2) := by
        rw [numbers]
        rfl

end FilesOf

/-! ## The files of all categories -/

section Suggest

/-- The jobs of a category. -/
def own (jobs : List String) (c : JobCategory) : List String :=
  jobs.filter (JobCategory.of · [] = c)

/-- The categories in the order of their first jobs. -/
def categories (jobs : List String) : List JobCategory :=
  dedupFirst (jobs.map (JobCategory.of · []))

/-- The files in the order in which they are loaded. -/
def madeFiles (jobs : List String) (limit : Nat) : List (String × List String) :=
  (byCategory jobs).entries.flatMap fun (category, names) => filesOf (max limit 1) category names

/-- Those of some files that hold jobs of a category only. -/
def filesFor (c : JobCategory) (files : List (String × List String)) :
    List (String × List String) :=
  files.filter fun file => file.2.all (JobCategory.of · [] = c)

variable {jobs : List String} {limit size : Nat} {c d : JobCategory}

theorem own_ne_nil (member : c ∈ categories jobs) : own jobs c ≠ [] := by
  obtain ⟨job, listed, same⟩ := List.mem_map.mp (mem_dedupFirst.mp member)
  exact List.ne_nil_of_mem (List.mem_filter.mpr ⟨listed, decide_eq_true same⟩)

theorem own_eq_nil (absent : c ∉ categories jobs) : own jobs c = [] := by
  rw [own, List.filter_eq_nil_iff]
  intro job listed same
  exact absent (mem_dedupFirst.mpr (List.mem_map.mpr ⟨job, listed, of_decide_eq_true same⟩))

theorem madeFiles_eq (jobs : List String) (limit : Nat) : madeFiles jobs limit =
    (categories jobs).flatMap fun c => filesOf (max limit 1) c (own jobs c) := by
  have grouped : (byCategory jobs).entries = (categories jobs).map fun c => (c, own jobs c) := by
    refine (OrderedMap.entries_grouped (JobCategory.of · []) id jobs).trans ?_
    simp only [List.map_id, categories, own]
  rw [madeFiles, grouped, List.flatMap_map]

theorem nodup_madeFiles (jobs : List String) (limit : Nat) :
    ((madeFiles jobs limit).map Prod.fst).Nodup := by
  have positive := Nat.le_max_right limit 1
  rw [madeFiles_eq, List.map_flatMap, List.nodup_flatMap]
  constructor
  · intro c member
    rw [map_fst_filesOf positive (own_ne_nil member)]
    exact nodup_stems c _
  · refine (nodup_dedupFirst _).imp_of_mem fun {c d} hc hd apart => ?_
    rw [Function.onFun_apply, map_fst_filesOf positive (own_ne_nil hc),
      map_fst_filesOf positive (own_ne_nil hd)]
    exact fun stem left right => apart (category_of_mem_stems left right)

/-- The map holds all files that were made. -/
theorem entries_suggest (jobs : List String) (limit : Nat) :
    (suggest jobs limit).entries = madeFiles jobs limit :=
  OrderedMap.entries_foldl_insert .empty (madeFiles jobs limit)
    (by simpa [OrderedMap.keys, OrderedMap.empty] using nodup_madeFiles jobs limit)

theorem category_of_mem_filesOf {file : String × List String}
    (member : file ∈ filesOf size c (own jobs c)) : ∀ job ∈ file.2, JobCategory.of job [] = c := by
  intro job inside
  have listed : job ∈ (filesOf size c (own jobs c)).flatMap Prod.snd :=
    List.mem_flatMap.mpr ⟨file, member, inside⟩
  rw [flatMap_filesOf] at listed
  exact of_decide_eq_true (List.mem_filter.mp listed).2

/-- A file is not empty, so it is a file for one category only. -/
theorem all_of_mem_filesOf (positive : 1 ≤ size) (member : d ∈ categories jobs)
    {file : String × List String} (listed : file ∈ filesOf size d (own jobs d)) :
    file.2.all (JobCategory.of · [] = c) = decide (d = c) := by
  have filled := (length_of_mem_filesOf positive (own_ne_nil member) listed).1
  obtain ⟨job, inside⟩ := List.exists_mem_of_length_pos filled
  rw [Bool.eq_iff_iff, List.all_eq_true, decide_eq_true_eq]
  constructor
  · intro all
    rw [← category_of_mem_filesOf listed job inside]
    exact of_decide_eq_true (all job inside)
  · rintro rfl other inside
    exact decide_eq_true (category_of_mem_filesOf listed other inside)

theorem filesFor_madeFiles (jobs : List String) (limit : Nat) (c : JobCategory) :
    filesFor c (madeFiles jobs limit) =
      if c ∈ categories jobs then filesOf (max limit 1) c (own jobs c) else [] := by
  have selected : filesFor c (madeFiles jobs limit) =
      ((categories jobs).filter (· = c)).flatMap fun d => filesOf (max limit 1) d (own jobs d) := by
    rw [madeFiles_eq]
    exact OrderedMap.filter_flatMap_of_iff fun d member file listed =>
      all_of_mem_filesOf (Nat.le_max_right limit 1) member listed
  rw [selected, List.filter_eq, categories, (nodup_dedupFirst _).count]
  split <;> simp

theorem perm_madeFiles (jobs : List String) (limit : Nat) :
    ((madeFiles jobs limit).flatMap Prod.snd).Perm jobs := by
  have covered : ∀ job ∈ jobs, JobCategory.of job [] ∈ categories jobs := fun job listed =>
    mem_dedupFirst.mpr (List.mem_map_of_mem listed)
  simp only [madeFiles_eq, List.flatMap_assoc, flatMap_filesOf]
  exact OrderedMap.perm_flatMap_filter (JobCategory.of · []) (nodup_dedupFirst _) covered

theorem of_mem_madeFiles {file : String × List String} (member : file ∈ madeFiles jobs limit) :
    1 ≤ file.2.length ∧ file.2.length ≤ max limit 1 ∧
      ∃ c, ∀ job ∈ file.2, JobCategory.of job [] = c := by
  rw [madeFiles_eq] at member
  obtain ⟨c, occurs, made⟩ := List.mem_flatMap.mp member
  obtain ⟨filled, fits⟩ :=
    length_of_mem_filesOf (Nat.le_max_right limit 1) (own_ne_nil occurs) made
  exact ⟨filled, fits, c, category_of_mem_filesOf made⟩

/-- The files of a category, also of one without jobs. -/
theorem filesFor_madeFiles_cover (jobs : List String) (limit : Nat) (c : JobCategory) :
    (filesFor c (madeFiles jobs limit)).flatMap Prod.snd = own jobs c ∧
      (filesFor c (madeFiles jobs limit)).map Prod.fst =
        stems c (filesFor c (madeFiles jobs limit)).length ∧
      (filesFor c (madeFiles jobs limit)).length =
        ((own jobs c).length + max limit 1 - 1) / max limit 1 := by
  have positive := Nat.le_max_right limit 1
  rw [filesFor_madeFiles]
  split
  · rename_i occurs
    exact ⟨flatMap_filesOf _ _ _, map_fst_filesOf positive (own_ne_nil occurs),
      length_filesOf positive (own_ne_nil occurs)⟩
  · rename_i absent
    have none : (0 + max limit 1 - 1) / max limit 1 = 0 := Nat.div_eq_of_lt (by omega)
    rw [own_eq_nil absent]
    exact ⟨rfl, rfl, none.symm⟩

/-- Suggested files hold each job once, and each file has jobs of one category only, not more than
the limit but at least one. The files of a category taken by their numbers give its jobs in their
order, and they are as few as the limit allows. No two files that are made have the same name, so
none replaces another in the map. -/
theorem suggest_partitions (jobs : List String) (limit : Nat) :
    let files := (suggest jobs limit).entries
    (files.flatMap Prod.snd).Perm jobs ∧
    (∀ file ∈ files, 1 ≤ file.2.length ∧ file.2.length ≤ max limit 1 ∧
      ∃ c, ∀ job ∈ file.2, JobCategory.of job [] = c) ∧
    (∀ c, (filesFor c files).flatMap Prod.snd = jobs.filter (JobCategory.of · [] = c) ∧
      (filesFor c files).map Prod.fst = stems c (filesFor c files).length ∧
      (filesFor c files).length =
        ((jobs.filter (JobCategory.of · [] = c)).length + max limit 1 - 1) / max limit 1) ∧
    suggest jobs limit = .ofList (madeFiles jobs limit) ∧ files = madeFiles jobs limit ∧
    ((madeFiles jobs limit).map Prod.fst).Nodup := by
  intro files
  have made : files = madeFiles jobs limit := entries_suggest jobs limit
  rw [made]
  exact ⟨perm_madeFiles jobs limit, fun _ => of_mem_madeFiles, filesFor_madeFiles_cover jobs limit,
    rfl, rfl, nodup_madeFiles jobs limit⟩

example : (suggest ["build", "deploy", "lint", "docs", "test"] 2).entries =
    [("ci1", ["build", "lint"]), ("ci2", ["test"]), ("deploy", ["deploy"]),
      ("main", ["docs"])] := by decide +kernel

end Suggest

end WorkflowAudit.FileSplit
