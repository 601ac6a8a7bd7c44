import WorkflowAudit.Data.OrderedMap
import WorkflowAudit.Text.CharClass
import WorkflowAudit.Text.Search

/-!
# Categories of jobs

A job belongs to the first category of which its name contains a word, else to the first one
of which its steps do. Files with too many jobs are split by category, and a category with too
many jobs into numbered parts.
-/

namespace WorkflowAudit

inductive JobCategory where
  | security
  | maintenance
  | deploy
  | release
  | ci
  /-- Everything else. -/
  | main
deriving DecidableEq, Repr

namespace JobCategory

/-- Name of the file for a category. -/
def fileStem : JobCategory → String
  | .security => "security"
  | .maintenance => "maintenance"
  | .deploy => "deploy"
  | .release => "release"
  | .ci => "ci"
  | .main => "main"

/-- Words in names of jobs. -/
def nameWords : List (JobCategory × List String) := [
  (.security, ["security", "scan", "codeql", "dependabot", "vulnerability", "snyk", "trivy",
    "audit", "sast", "dast"]),
  (.maintenance, ["cleanup", "clean", "stale", "prune", "expire", "archive", "schedule", "cron",
    "nightly", "weekly", "maintenance"]),
  (.deploy, ["deploy", "deployment", "staging", "production", "prod", "cdk", "terraform",
    "infrastructure", "infra", "provision"]),
  (.release, ["release", "publish", "upload", "package", "dist", "npm", "pypi", "docker",
    "registry", "tag", "version"]),
  (.ci, ["build", "test", "lint", "format", "check", "validate", "typecheck", "type_check",
    "coverage", "analyze", "compile", "ci"])]

/-- Words in steps of jobs. -/
def stepWords : List (JobCategory × List String) := [
  (.ci, ["pytest", "npm test", "yarn test", "go test", "cargo test", "make test", "ruff",
    "eslint", "flake8", "mypy", "pyright", "tsc --noemit"]),
  (.deploy, ["deploy", "terraform apply", "kubectl apply",
    "aws-actions/configure-aws-credentials", "azure/login", "google-github-actions/auth"]),
  (.release, ["npm publish", "twine upload", "cargo publish", "docker push", "gh release",
    "actions/create-release"])]

/-- The first category of which a text contains a word. -/
def firstIn (words : List (JobCategory × List String)) (text : String) : Option JobCategory :=
  (words.find? fun (_, ws) => ws.any (Text.contains text)).map Prod.fst

/-- The category of a job. Case does not count, and in names a dash is an underscore. -/
def of (name : String) (steps : List String) : JobCategory :=
  let plain := Text.replaceChars ['-'] '_' (Text.lowercase name)
  let content := Text.lowercase (String.intercalate " " steps)
  (firstIn nameWords plain <|> firstIn stepWords content).getD .main

end JobCategory

namespace FileSplit

/-- A list cut into parts of `size` elements, the last one possibly shorter; `size` 0 counts
    as 1. -/
def chunks (size : Nat) : List α → List (List α)
  | [] => []
  | x :: xs => (x :: xs.take (size - 1)) :: chunks size (xs.drop (size - 1))
termination_by xs => xs.length
decreasing_by
  simp only [List.length_drop, List.length_cons]
  omega

/-- Jobs by category, the categories in order of their first job. -/
def byCategory (jobs : List String) : OrderedMap JobCategory (List String) :=
  jobs.foldl (fun m job => m.modify (JobCategory.of job []) [] (· ++ [job])) .empty

/-- The files for the jobs of a category: one, or numbered ones when there are too many. -/
def filesOf (size : Nat) (category : JobCategory) (names : List String) :
    List (String × List String) :=
  if names.length ≤ size then [(category.fileStem, names)]
  else (chunks size names).zipIdx.map fun (part, i) => (s!"{category.fileStem}{i + 1}", part)

/-- Files of at most `limit` jobs each, at least one; the keys are the names of the files. -/
def suggest (jobs : List String) (limit : Nat) : OrderedMap String (List String) :=
  .ofList ((byCategory jobs).entries.flatMap fun (category, names) =>
    filesOf (max limit 1) category names)

end FileSplit

end WorkflowAudit
