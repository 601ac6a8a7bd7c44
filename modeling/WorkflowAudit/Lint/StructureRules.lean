import WorkflowAudit.Data.Sorting
import WorkflowAudit.Discovery.Scan
import WorkflowAudit.Lint.JobCategory
import WorkflowAudit.Lint.SourceUnit

/-!
# Rules on the structure of files
-/

namespace WorkflowAudit.Lint

open Script

def isDict : Expr → Bool
  | .dict .. => true
  | _ => false

/-! ## Builders of strategies -/

/-- Where a keyword argument of a constructor is a plain dictionary. -/
def dictArguments (u : SourceUnit) (constructor keyword : String) : List Nat :=
  (u.callsTo constructor).filterMap fun call =>
    ((call.keyword? keyword).filter isDict).map (·.span.start)

def builderFindings (u : SourceUnit) : List (String × Location × Option String) :=
  let strategies := (dictArguments u "Job" "strategy").map fun offset =>
    (offset, "Use Strategy class instead of raw dict for strategy",
      "Use: Strategy(matrix=Matrix(values=\x7b...\x7d))")
  let matrices := (dictArguments u "Strategy" "matrix").map fun offset =>
    (offset, "Use Matrix class instead of raw dict for matrix", "Use: Matrix(values=\x7b...\x7d)")
  (sortOn Prod.fst (strategies ++ matrices)).map fun (offset, message, suggestion) =>
    (message, u.location offset, some suggestion)

def matrixBuilder : Rule SourceUnit :=
  check "WAG004" "Use Strategy(matrix=Matrix(...)) instead of raw dicts" .style .low
    builderFindings

/-! ## Repeated environment variables -/

/-- Keys of the inline environments of steps, each time with the start of the step. -/
def stepEnvKeys (u : SourceUnit) : List (String × Nat) :=
  (u.callsTo "Step").flatMap fun call =>
    match call.keyword? "env" with
    | some (.dict _ items) =>
      items.filterMap fun item => do some (← (← item.key).asString?, call.span.start)
    | _ => []

/-- Where each key occurs. -/
def keyOccurrences (u : SourceUnit) : OrderedMap String (List Nat) :=
  (stepEnvKeys u).foldl (fun m (key, offset) => m.modify key [] (· ++ [offset])) .empty

def repeatedStepEnv : Rule SourceUnit :=
  check "WAG005" "Extract repeated env variables to job or workflow level" .style .low fun u =>
    ((keyOccurrences u).entries.filter fun (_, offsets) => offsets.length ≥ 2).map
      fun (key, offsets) =>
        (s!"Env variable '{key}' defined in {offsets.length} steps; consider extracting to job-level env",
          .source u.path (u.lineOf (offsets.headD 0)) 1,
          some "Move to Job(env=\x7b...\x7d) or Workflow(env=\x7b...\x7d)")

/-! ## Duplicate workflow names -/

/-- Names of workflows with the lines of their calls. -/
def workflowNames (u : SourceUnit) : List (String × Nat) :=
  (u.callsTo "Workflow").filterMap fun call => do
    let name ← (← call.keyword? "name").asString?
    some (name, u.lineOf call.span.start)

/-- Each name that stood before, with its line and the line of its first occurrence. -/
def repeatedNames (firsts : List (String × Nat)) :
    List (String × Nat) → List (String × Nat × Nat)
  | [] => []
  | (name, line) :: more =>
    match firsts.lookup name with
    | some first => (name, line, first) :: repeatedNames firsts more
    | none => repeatedNames ((name, line) :: firsts) more

def duplicateWorkflowNames : Rule SourceUnit :=
  check "WAG006" "Detect duplicate workflow names in the same file" .style .medium fun u =>
    (repeatedNames [] (workflowNames u)).map fun (name, line, first) =>
      (s!"Duplicate workflow name '{name}' (first defined at line {first})",
        .source u.path line 1, none)

/-! ## Size of files -/

/-- Names bound to jobs. -/
def jobNames (u : SourceUnit) : List String :=
  match u.tree with
  | some m =>
    ((Discovery.scanModule Discovery.defaultPackage u.path m).filter (·.kind = .job)).map
      (·.name)
  | none => []

/-- One line for each suggested file, in alphabetical order. -/
def splitLines (jobs : List String) (limit : Nat) : List String :=
  let files := sortBy (fun a b => a.1 ≤ b.1) (FileSplit.suggest jobs limit).entries
  files.map fun (file, names) => s!"\n  {file}.py: " ++ String.intercalate ", " names

def fileTooLarge (maxJobs : Nat) : Rule SourceUnit :=
  check "WAG007" s!"Warn when a file has more than {maxJobs} jobs" .style .low fun u =>
    let jobs := jobNames u
    if jobs.length ≤ maxJobs then []
    else [(s!"File has too many jobs ({jobs.length}), consider splitting into:" ++
      String.join (splitLines jobs maxJobs), .source u.path 1 1, none)]

end WorkflowAudit.Lint
