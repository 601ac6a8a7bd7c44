import WorkflowAudit.Lint.Files
import WorkflowAudit.Proofs.Files.Rewrite

/-! # Files that can be checked and files that can be fixed

A file can be checked when it is there and is a text, and it can be fixed when it can also be written
back if need be. Fixing one file changes nothing about which files can be checked or fixed.
-/

namespace WorkflowAudit

open FileTree

namespace SourceUnit

/-- A file that can be read and is a text. -/
def Loads (t : FileTree) (path : String) : Prop := ∃ u, load t path = .ok u

instance (t : FileTree) (path : String) : Decidable (Loads t path) :=
  inferInstanceAs (Decidable (∃ u, load t path = .ok u))

theorem load_eq_ok_iff {t : FileTree} {path : String} {u : SourceUnit} :
    load t path = .ok u ↔
      ∃ f text, t.find path = .ok (.file f) ∧ f.text? = some text ∧ u = .ofText path text := by
  constructor
  · intro loaded
    rw [load] at loaded
    split at loaded
    · cases loaded
    · rename_i f read
      split at loaded
      · rename_i text content
        exact ⟨f, text, read_eq_ok_iff.mp read, content, (Except.ok.inj loaded).symm⟩
      · cases loaded
  · rintro ⟨f, text, found, content, rfl⟩
    simp only [load, read_eq_ok_iff.mpr found, content]

variable {t t' : FileTree} {path : String} {place : List String}

/-- Another file loads as before. -/
theorem load_of_rewritten {u : SourceUnit} (rewritten : Rewritten place t t')
    (apart : destination path ≠ place) (loaded : load t path = .ok u) : load t' path = .ok u := by
  obtain ⟨f, text, found, content, rfl⟩ := load_eq_ok_iff.mp loaded
  exact load_eq_ok_iff.mpr ⟨f, text, rewritten.forth.find found apart, content, rfl⟩

theorem Loads.of_rewritten (rewritten : Rewritten place t t') (loads : Loads t path) :
    Loads t' path := by
  obtain ⟨u, loaded⟩ := loads
  by_cases same : destination path = place
  · subst same
    obtain ⟨f, -, found, -, -⟩ := load_eq_ok_iff.mp loaded
    obtain ⟨g, text, there, content⟩ := rewritten.find found
    exact ⟨_, load_eq_ok_iff.mpr ⟨g, text, there, content, rfl⟩⟩
  · exact ⟨u, load_of_rewritten rewritten same loaded⟩

end SourceUnit

namespace Lint

open SourceUnit

variable {rules : RuleSet SourceUnit} {t t' made : FileTree} {path other : String}
  {outcome : FixOutcome} {place : List String}

/-! ## Checking -/

theorem exists_reportFile_iff : (∃ r, reportFile rules t path = .ok r) ↔ Loads t path := by
  constructor
  · rintro ⟨r, reported⟩
    obtain ⟨u, loaded, -⟩ := ok_of_bind reported
    exact ⟨u, loaded⟩
  · rintro ⟨u, loaded⟩
    exact ⟨report rules u, by simp only [reportFile, loaded, bind, Except.bind]⟩

/-- A directory is reported on file by file, without those that do not load. -/
theorem forall₂_reportFile (rules : RuleSet SourceUnit) (t : FileTree) (files : List String) :
    List.Forall₂ (fun file r => reportFile rules t file = .ok r) (files.filter (Loads t ·))
      (files.filterMap fun file => (reportFile rules t file).toOption) := by
  induction files with
  | nil => exact .nil
  | cons file files ih =>
      by_cases loads : Loads t file
      · obtain ⟨r, reported⟩ : ∃ r, reportFile rules t file = .ok r :=
          exists_reportFile_iff.mpr loads
        rw [List.filter_cons_of_pos (by simpa using loads), List.filterMap_cons, reported]
        exact .cons reported ih
      · cases reported : reportFile rules t file with
        | error e =>
            rw [List.filter_cons_of_neg (by simpa using loads), List.filterMap_cons, reported]
            exact ih
        | ok r => exact absurd (exists_reportFile_iff.mp ⟨r, reported⟩) loads

/-! ## Fixing -/

/-- A file that can be read, is a text and can be written back if fixing changes it. -/
def Mends (rules : RuleSet SourceUnit) (t : FileTree) (path : String) : Prop :=
  ∃ result, fixFile rules t path = .ok result

instance (rules : RuleSet SourceUnit) (t : FileTree) (path : String) :
    Decidable (Mends rules t path) :=
  inferInstanceAs (Decidable (∃ result, fixFile rules t path = .ok result))

theorem fixFile_eq_ok_iff : fixFile rules t path = .ok (outcome, made) ↔
    ∃ u, load t path = .ok u ∧ outcome = fix rules u ∧
      (outcome.source = u.text ∧ made = t ∨
        outcome.source ≠ u.text ∧ t.save path outcome.source = .ok made) := by
  constructor
  · intro fixed
    obtain ⟨u, loaded, fixed⟩ := ok_of_bind fixed
    dsimp only at fixed
    split at fixed
    · rename_i same
      obtain ⟨rfl, rfl⟩ := Prod.mk.inj (Except.ok.inj fixed)
      exact ⟨u, loaded, rfl, .inl ⟨same, rfl⟩⟩
    · rename_i differs
      split at fixed
      · rename_i saved
        obtain ⟨rfl, rfl⟩ := Prod.mk.inj (Except.ok.inj fixed)
        exact ⟨u, loaded, rfl, .inr ⟨differs, saved⟩⟩
      · cases fixed
  · rintro ⟨u, loaded, rfl, ⟨same, rfl⟩ | ⟨differs, saved⟩⟩
    · simp only [fixFile, loaded, bind, Except.bind, same, if_true]
    · simp only [fixFile, loaded, bind, Except.bind, if_neg differs, saved]

theorem mends_iff : Mends rules t path ↔ ∃ u, load t path = .ok u ∧
    ((fix rules u).source = u.text ∨ NameFits (destination path)) := by
  constructor
  · rintro ⟨⟨outcome, made⟩, fixed⟩
    obtain ⟨u, loaded, rfl, ⟨same, -⟩ | ⟨-, saved⟩⟩ := fixFile_eq_ok_iff.mp fixed
    · exact ⟨u, loaded, .inl same⟩
    · obtain ⟨f, text, found, -, -⟩ := load_eq_ok_iff.mp loaded
      exact ⟨u, loaded, .inr ((exists_save_iff found).mp ⟨made, saved⟩)⟩
  · rintro ⟨u, loaded, writable⟩
    by_cases same : (fix rules u).source = u.text
    · exact ⟨_, fixFile_eq_ok_iff.mpr ⟨u, loaded, rfl, .inl ⟨same, rfl⟩⟩⟩
    · obtain ⟨f, text, found, -, -⟩ := load_eq_ok_iff.mp loaded
      obtain ⟨made, saved⟩ := (exists_save_iff found).mpr (writable.resolve_left same)
      exact ⟨_, fixFile_eq_ok_iff.mpr ⟨u, loaded, rfl, .inr ⟨same, saved⟩⟩⟩

/-- No file has a name that is too long to be written, so what can be checked can be fixed. -/
theorem mends_iff_loads (fits : NameFits (destination path)) :
    Mends rules t path ↔ Loads t path := by
  rw [mends_iff]
  exact exists_congr fun u => and_iff_left (.inr fits)

theorem Mends.of_rewritten (rewritten : Rewritten place t t') (fits : NameFits place)
    (mends : Mends rules t path) : Mends rules t' path := by
  obtain ⟨u, loaded, writable⟩ := mends_iff.mp mends
  by_cases same : destination path = place
  · exact (mends_iff_loads (same ▸ fits)).mpr (Loads.of_rewritten rewritten ⟨u, loaded⟩)
  · exact mends_iff.mpr ⟨u, load_of_rewritten rewritten same loaded, writable⟩

/-- Fixing a file changes nothing about which files can be fixed. -/
theorem mends_of_fixFile (fixed : fixFile rules t path = .ok (outcome, made)) :
    Mends rules made other ↔ Mends rules t other := by
  obtain ⟨u, loaded, -, ⟨-, rfl⟩ | ⟨-, saved⟩⟩ := fixFile_eq_ok_iff.mp fixed
  · exact Iff.rfl
  · -- The file that was saved has a name that fits, so its new text stands in nobody's way.
    obtain ⟨f, text, found, content, -⟩ := load_eq_ok_iff.mp loaded
    have rewritten := rewritten_of_save found content saved
    have fits := (exists_save_iff found).mp ⟨made, saved⟩
    exact ⟨Mends.of_rewritten rewritten.symm fits, Mends.of_rewritten rewritten fits⟩

end Lint

end WorkflowAudit
