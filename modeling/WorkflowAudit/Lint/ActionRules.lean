import WorkflowAudit.Action.Catalog
import WorkflowAudit.Action.Pin
import WorkflowAudit.Lint.SourceUnit
import WorkflowAudit.Text.CharClass

/-!
# Rules on action references

Both rules look at steps whose action is a string constant.
-/

namespace WorkflowAudit.Lint

open Script

/-- A step with the constant that names its action. -/
structure StepAction where
  call : Call
  literal : Span
  reference : String

def stepActions (u : SourceUnit) : List StepAction :=
  (u.callsTo "Step").filterMap fun call => do
    let uses ← call.keyword? "uses"
    some ⟨call, uses.span, ← uses.asString?⟩

/-! ## Typed wrappers -/

/-- The wrapper that can stand for a step: the step has no other argument, and its action has a
    ref. -/
def replacement? (s : StepAction) : Option String := do
  let (action, ref) ← Text.cutAt? '@' s.reference
  if s.call.args.isEmpty && s.call.keywords.length = 1 && !ref.isEmpty then
    Action.wrapper? action
  else none

def wrapperFindings (u : SourceUnit) : List (String × Location × Option String) :=
  (stepActions u).filterMap fun s =>
    (Action.wrapper? (Action.name s.reference)).map fun wrapper =>
      (s!"Use typed action wrapper instead of raw string '{s.reference}'",
        u.location s.call.span.start, some s!"Import and use the typed wrapper {wrapper}()")

def wrapperEdits (u : SourceUnit) : EditBuffer :=
  (stepActions u).foldl (fun edits s =>
    match replacement? s with
    | some wrapper => edits.push ⟨s.call.span, wrapper ++ "()"⟩
    | none => edits) .empty

def typedWrappers : Rule SourceUnit :=
  checkWithEdits "WAG001" "Use typed action wrappers instead of raw 'uses' strings" .style .low
    wrapperFindings wrapperEdits

/-! ## Pinning -/

/-- A remark on refs that are common names of branches. -/
def branchRemark (ref : String) : String :=
  if Action.commonBranches.contains (Text.lowercase ref) then
    s!" Branch '{ref}' can change at any time."
  else ""

def pinFinding? (u : SourceUnit) (s : StepAction) : Option (String × Location × Option String) :=
  let reference := s.reference
  let version? := Action.version? (Action.repository reference)
  let location := u.location s.call.span.start
  match Action.pin reference with
  | .pinned => none
  | .unpinned =>
    let version := version?.getD "v4"
    some (s!"Action '{reference}' is unpinned (no version specified)", location,
      some s!"Pin to a version, e.g., {reference}@{version}")
  | .branch ref =>
    let suggestion := match version? with
      | some version => s!"Pin to @{version} or a full commit SHA"
      | none => "Pin to a version tag (e.g., @v4) or full commit SHA"
    some (s!"Action '{reference}' is pinned to branch '{ref}'." ++ branchRemark ref, location,
      some suggestion)

/-- Well-known actions without a ref get one; refs to branches are left alone. -/
def pinEdits (u : SourceUnit) : EditBuffer :=
  (stepActions u).foldl (fun edits s =>
    match Action.pin s.reference, Action.version? s.reference with
    | .unpinned, some version =>
      let quote := quoteOf (s.literal.slice u.text)
      edits.push ⟨s.literal, quote ++ s.reference ++ "@" ++ version ++ quote⟩
    | _, _ => edits) .empty

def unpinnedActions : Rule SourceUnit :=
  checkWithEdits "WAG018" "Detect unpinned actions that may pose security risks" .style .medium
    (fun u => (stepActions u).filterMap (pinFinding? u)) pinEdits

end WorkflowAudit.Lint
