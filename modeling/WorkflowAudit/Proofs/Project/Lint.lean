import WorkflowAudit.Project.Lint
import WorkflowAudit.Proofs.Lint.Files

/-! # The files that a lint command covers

Checking a directory covers every source file that loads and never breaks off. Fixing it covers the
source files up to the first that cannot be fixed, and breaks off there. Both cover the same files
only when no file stands in the way.
-/

namespace WorkflowAudit.Project

open FileTree SourceUnit

/-! ## Reports -/

/-- What is reported of some files together. -/
def LintSummary.ofAll (violations : List (List Violation)) : LintSummary :=
  ⟨violations.flatten, violations.length⟩

theorem LintSummary.foldl_add (violations : List (List Violation)) (s : LintSummary) :
    violations.foldl LintSummary.add s =
      ⟨s.violations ++ violations.flatten, s.files + violations.length⟩ := by
  induction violations generalizing s with
  | nil => simp
  | cons vs violations ih =>
      rw [List.foldl_cons, ih, LintSummary.add]
      simp [Nat.add_assoc, Nat.add_comm 1]

/-! ## Runs of fixes -/

section Fixes

variable {format : ReportFormat}

/-- Files fixed one after another, with what came of each and the tree at the end. -/
inductive Fixes (rules : RuleSet SourceUnit) :
    FileTree → List String → List FixOutcome → FileTree → Prop where
  | done (t : FileTree) : Fixes rules t [] [] t
  | file {t next made : FileTree} {file : String} {files : List String} {outcome : FixOutcome}
      {outcomes : List FixOutcome} (fixed : Lint.fixFile rules t file = .ok (outcome, next))
      (rest : Fixes rules next files outcomes made) :
      Fixes rules t (file :: files) (outcome :: outcomes) made

/-- What is said of a fixed file. -/
def fixedLines (format : ReportFormat) (file : String) (outcome : FixOutcome) : List String :=
  if 0 < outcome.applied ∧ format = .text then
    [s!"Fixed {outcome.applied} issue(s) in {file}"] else []

/-- What is said of some fixed files. -/
def allFixedLines (format : ReportFormat) (files : List String) (outcomes : List FixOutcome) :
    List String :=
  (files.zipWith (fixedLines format) outcomes).flatten

@[simp] theorem allFixedLines_nil : allFixedLines format [] [] = [] := rfl

@[simp] theorem allFixedLines_cons (file : String) (files : List String) (outcome : FixOutcome)
    (outcomes : List FixOutcome) : allFixedLines format (file :: files) (outcome :: outcomes) =
      fixedLines format file outcome ++ allFixedLines format files outcomes := rfl

/-- The progress after some fixes. -/
def FixProgress.after (progress : FixProgress) (format : ReportFormat) (files : List String)
    (outcomes : List FixOutcome) (made : FileTree) : FixProgress where
  tree := made
  lines := progress.lines ++ allFixedLines format files outcomes
  summary := (outcomes.map (·.remaining)).foldl LintSummary.add progress.summary

@[simp] theorem FixProgress.after_nil (progress : FixProgress) :
    progress.after format [] [] progress.tree = progress := by
  simp [FixProgress.after]

/-- Fixing covers the files up to the first that could not be fixed at the start, and that one is
reported. -/
theorem fixFiles_eq (rules : RuleSet SourceUnit) (format : ReportFormat) (files : List String)
    (progress : FixProgress) :
    ∃ outcomes made,
      Fixes rules progress.tree (files.takeWhile (Lint.Mends rules progress.tree ·)) outcomes made ∧
      fixFiles rules format files progress =
        (progress.after format (files.takeWhile (Lint.Mends rules progress.tree ·)) outcomes made,
          (files.find? (¬ Lint.Mends rules progress.tree ·)).map fun file => s!"fixing {file}") := by
  induction files generalizing progress with
  | nil => exact ⟨[], progress.tree, .done _, by simp [fixFiles]⟩
  | cons file files ih =>
      rw [fixFiles]
      cases fixed : Lint.fixFile rules progress.tree file with
      | error e =>
          have stuck : ¬ Lint.Mends rules progress.tree file := by
            rintro ⟨result, known⟩
            cases fixed.symm.trans known
          refine ⟨[], progress.tree, ?_, ?_⟩
          · rw [List.takeWhile_cons_of_neg (by simpa using stuck)]
            exact .done _
          · rw [List.takeWhile_cons_of_neg (by simpa using stuck),
              List.find?_cons_of_pos (by simpa using stuck), FixProgress.after_nil]
            rfl
      | ok result =>
          obtain ⟨outcome, next⟩ := result
          have mends : Lint.Mends rules progress.tree file := ⟨_, fixed⟩
          -- What could be fixed at the start still can, so the rest may be judged by either tree.
          have same : ∀ other, Lint.Mends rules next other ↔ Lint.Mends rules progress.tree other :=
            fun _ => Lint.mends_of_fixFile fixed
          obtain ⟨outcomes, made, run, rest⟩ := ih {
            tree := next
            lines := progress.lines ++ fixedLines format file outcome
            summary := progress.summary.add outcome.remaining }
          simp only [same] at run rest
          refine ⟨outcome :: outcomes, made, ?_, ?_⟩
          · rw [List.takeWhile_cons_of_pos (by simpa using mends)]
            exact .file fixed run
          · rw [List.takeWhile_cons_of_pos (by simpa using mends),
              List.find?_cons_of_neg (by simpa using mends)]
            refine rest.trans ?_
            simp [FixProgress.after]

end Fixes

/-! ## Commands -/

variable {p : Project} {t : FileTree} {path : Option String}

theorem lint_directory (format : ReportFormat) (directory : t.isFile (p.target path) = false) :
    ∃ reports, List.Forall₂ (fun file r => Lint.reportFile p.lintRules t file = .ok r)
        ((p.sources t path).filter (Loads t ·)) reports ∧
      p.lint t path format =
        (LintSummary.ofAll (reports.map (·.violations))).outcome t [] format := by
  have sources : p.sources t path =
      (t.sourceFiles p.settings.discovery.sourceFilter (p.target path)).paths := by
    simp [Project.sources, directory]
  refine ⟨_, Lint.forall₂_reportFile p.lintRules t _, ?_⟩
  rw [sources, lint]
  simp only [directory, Bool.false_eq_true, if_false, Lint.reportDirectory]
  rw [← List.foldl_map, LintSummary.foldl_add]
  simp [LintSummary.ofAll]

theorem fix_sources (p : Project) (t : FileTree) (path : Option String) (format : ReportFormat) :
    let covered := (p.sources t path).takeWhile (Lint.Mends p.lintRules t ·)
    ∃ outcomes made, Fixes p.lintRules t covered outcomes made ∧
      p.fix t path format =
        match (p.sources t path).find? (¬ Lint.Mends p.lintRules t ·) with
        | none => (LintSummary.ofAll (outcomes.map (·.remaining))).outcome made
            (allFixedLines format covered outcomes) format
        | some file =>
          ⟨reportLines (allFixedLines format covered outcomes), .error s!"fixing {file}", made⟩ := by
  obtain ⟨outcomes, made, run, fixed⟩ :=
    fixFiles_eq p.lintRules format (p.sources t path) { tree := t }
  refine ⟨outcomes, made, run, ?_⟩
  rw [fix, fixed]
  cases (p.sources t path).find? (¬ Lint.Mends p.lintRules t ·) with
  | none => simp [FixProgress.after, LintSummary.foldl_add, LintSummary.ofAll]
  | some file => simp [FixProgress.after]

/-- Fixing runs to its end when every source file can be fixed. -/
theorem exists_verdict_fix_iff {format : ReportFormat} :
    (∃ passed, (p.fix t path format).verdict = .ok passed) ↔
      ∀ file ∈ p.sources t path, Lint.Mends p.lintRules t file := by
  obtain ⟨outcomes, made, -, fixed⟩ := fix_sources p t path format
  rw [fixed]
  cases stuck : (p.sources t path).find? (¬ Lint.Mends p.lintRules t ·) with
  | none =>
      have all := List.find?_eq_none.mp stuck
      simp only [decide_eq_true_eq, not_not] at all
      exact ⟨fun _ => all, fun _ => ⟨_, rfl⟩⟩
  | some file =>
      have fails := List.find?_some stuck
      rw [decide_eq_true_eq] at fails
      refine ⟨fun ⟨passed, ended⟩ => (nomatch ended), fun all => ?_⟩
      exact absurd (all file (List.mem_of_find?_eq_some stuck)) fails

/-- A directory is checked over all source files that load, whatever stands between them, and it is
fixed over those before the first that cannot be fixed; if there is one, the command breaks off. -/
theorem lint_covers_and_fix_covers (format : ReportFormat)
    (directory : t.isFile (p.target path) = false) :
    (∃ reports, List.Forall₂ (fun file r => Lint.reportFile p.lintRules t file = .ok r)
        ((p.sources t path).filter (Loads t ·)) reports ∧
      p.lint t path format =
        (LintSummary.ofAll (reports.map (·.violations))).outcome t [] format) ∧
    (∃ outcomes made,
      Fixes p.lintRules t ((p.sources t path).takeWhile (Lint.Mends p.lintRules t ·)) outcomes made ∧
      p.fix t path format =
        let lines := allFixedLines format
          ((p.sources t path).takeWhile (Lint.Mends p.lintRules t ·)) outcomes
        match (p.sources t path).find? (¬ Lint.Mends p.lintRules t ·) with
        | none => (LintSummary.ofAll (outcomes.map (·.remaining))).outcome made lines format
        | some file => ⟨reportLines lines, .error s!"fixing {file}", made⟩) ∧
    ((∃ passed, (p.fix t path format).verdict = .ok passed) ↔
      ∀ file ∈ p.sources t path, Lint.Mends p.lintRules t file) ∧
    ∀ file, NameFits (destination file) → (Lint.Mends p.lintRules t file ↔ Loads t file) :=
  ⟨lint_directory format directory, fix_sources p t path format, exists_verdict_fix_iff,
    fun _ => Lint.mends_iff_loads⟩

/-- A directory in which no text stands between two source files. -/
def brokenTree : FileTree :=
  { entries := [("a.py", .file (.ofText "" 0)), ("b.py", .file ⟨⟨#[255, 0]⟩, 0⟩),
      ("c.py", .file (.ofText "" 0))] }

def brokenProject : Project := { root := ".", settings := {}, cache := none }

theorem lint_covers_and_fix_covers_brokenTree :
    brokenTree.isFile (brokenProject.target none) = false ∧
      (∃ passed, (brokenProject.lint brokenTree none .text).verdict = .ok passed) ∧
      ¬ ∃ passed, (brokenProject.fix brokenTree none .text).verdict = .ok passed := by
  have directory : brokenTree.isFile (brokenProject.target none) = false := by decide +kernel
  obtain ⟨⟨reports, -, checked⟩, -, ended, -⟩ :=
    lint_covers_and_fix_covers .text directory
  refine ⟨directory, ⟨_, congrArg Outcome.verdict checked⟩, fun passed => ?_⟩
  have listed : "./b.py" ∈ brokenProject.sources brokenTree none := by decide +kernel
  have stuck : ¬ Lint.Mends brokenProject.lintRules brokenTree "./b.py" := by decide +kernel
  exact stuck (ended.mp passed "./b.py" listed)

end WorkflowAudit.Project
