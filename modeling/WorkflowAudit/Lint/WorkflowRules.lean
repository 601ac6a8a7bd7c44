import WorkflowAudit.Credential
import WorkflowAudit.Dependency.Cycles
import WorkflowAudit.Lint.SourceUnit
import WorkflowAudit.Workflow.Composition

/-!
# Rules on what workflows do

Triggers must be known events, commands must hold no credentials, and needs no cycle.
-/

namespace WorkflowAudit.Lint

open Script

/-! ## Events -/

/-- Expressions that name the events of a trigger. -/
def eventExprs : Expr → List Expr
  | .dict _ items => items.filterMap (·.key)
  | .list _ items | .tuple _ items => items
  | e => [e]

/-- Names of events that trigger nothing, with their offsets. -/
def unknownEvents (u : SourceUnit) : List (String × Nat) :=
  (u.callsTo "Workflow").flatMap fun call =>
    let events := ((call.keyword? "on").map eventExprs).getD []
    events.filterMap fun e => do
      let name ← e.asString?
      if Composition.triggerEvents.contains name then none else some (name, e.span.start)

def eventSuggestion : String :=
  "Valid events: " ++ String.intercalate ", " (Composition.sortedEvents.take 5) ++ "..."

def eventTypes : Rule SourceUnit :=
  check "WAG009" "Validate webhook event types in triggers" .style .medium fun u =>
    (unknownEvents u).map fun (name, offset) =>
      (s!"Unknown event type '{name}'", u.location offset, some eventSuggestion)

/-! ## Credentials -/

/-- The start of every reference to a secret. -/
def secretReference : String := "$\x7b\x7b secrets."

/-- The credential in a command; commands that refer to a secret are trusted. -/
def commandCredential? (command : String) : Option Credential :=
  if Text.contains command secretReference then none else Credential.find? command

def hardcodedSecretsInRun : Rule SourceUnit :=
  check "WAG017" "Detect hardcoded secrets in run commands" .security .high fun u =>
    (u.callsTo "Step").filterMap fun call => do
      let run ← call.keyword? "run"
      let found ← commandCredential? (← run.asString?)
      some (s!"Possible hardcoded {found.kind} detected in run command",
        u.location run.span.start,
        some "Use Secrets.get() or $\x7b\x7b secrets.SECRET_NAME \x7d\x7d to securely access sensitive values")

/-! ## Needs -/

/-- The last call of `Job` bound to each name, with the start of the statement. -/
def jobBindings (m : Module) : OrderedMap String (Call × Nat) :=
  m.statements.foldl (fun jobs (s, _) =>
    let found := do
      let (name, value) ← s.binding?
      some (name, ← value.asCall?.filter (·.isCallTo "Job"))
    match found with
    | some (name, call) => jobs.insert name (call, s.span.start)
    | none => jobs) .empty

/-- The keys that workflows give to names, the first key of a name first. -/
def workflowKeys (u : SourceUnit) : List (String × String) :=
  (u.callsTo "Workflow").flatMap fun call =>
    match call.keyword? "jobs" with
    | some (.dict _ items) => items.filterMap fun item => do
        some (← item.value.asName?, ← (← item.key).asString?)
    | _ => []

/-- The key of a name in a workflow, or the name itself. -/
def jobKey (keys : List (String × String)) (name : String) : String :=
  (keys.lookup name).getD name

/-- The keys that a value of `needs` names; strings are keys already. -/
def neededKeys (keys : List (String × String)) (value : Expr) : List String :=
  let parts := match value with
    | .list _ items | .tuple _ items => items
    | e => [e]
  parts.filterMap fun e => e.asString? <|> e.asName?.map (jobKey keys)

/-- What each job of a file needs, and where it is bound. -/
def needsMap (u : SourceUnit) (m : Module) : DependencyMap × OrderedMap String Nat :=
  let keys := workflowKeys u
  (jobBindings m).entries.foldl (fun (needs, offsets) (name, call, offset) =>
    let key := jobKey keys name
    let needed := ((call.keyword? "needs").map (neededKeys keys)).getD []
    (needs.insert key needed, offsets.insert key offset)) (.empty, .empty)

def cycleFindings (u : SourceUnit) : List (String × Location × Option String) :=
  match u.tree with
  | none => []
  | some m =>
    let (needs, offsets) := needsMap u m
    needs.cycles.map fun walk =>
      let offset := (walk.head?.bind offsets.get?).getD 0
      ("Circular dependency detected: " ++ String.intercalate " -> " walk, u.location offset,
        some "Remove one of the dependencies to break the cycle")

def circularNeeds : Rule SourceUnit :=
  check "WAG051" "Detect circular dependencies in job needs declarations" .style .high
    cycleFindings

end WorkflowAudit.Lint
