import WorkflowAudit.Discovery.Scan
import WorkflowAudit.Text.Digits

/-!
# Reusable workflows

A workflow can be called by others when its triggers carry a `workflow_call`. Inputs, outputs
and secrets are taken from constants only.
-/

namespace WorkflowAudit

open Script

/-- What a reusable workflow offers to its callers. -/
structure ReusableWorkflow where
  name : String
  filePath : String
  /-- Inputs with their constant settings. -/
  inputs : OrderedMap String (OrderedMap String Json)
  outputs : OrderedMap String String
  secrets : List String

namespace ReusableWorkflow

/-- A decimal number, with or without digits on one side of the point. -/
def decimal? (cs : List Char) : Option (Nat × Int) := do
  let whole := cs.takeWhile Char.isDigit
  let afterWhole := cs.drop whole.length
  let fraction :=
    match afterWhole with
    | '.' :: rest => rest.takeWhile Char.isDigit
    | _ => []
  let afterFraction :=
    match afterWhole with
    | '.' :: rest => rest.drop fraction.length
    | rest => rest
  if whole.isEmpty && fraction.isEmpty then none
  let significand := Text.decimalValue (whole ++ fraction)
  let places : Int := fraction.length
  match afterFraction with
  | [] => some (significand, -places)
  | mark :: rest =>
    if mark = 'e' || mark = 'E' then
      let isNegative := rest.head? == some '-'
      let digits := if isNegative || rest.head? == some '+' then rest.drop 1 else rest
      if digits.isEmpty || !digits.all Char.isDigit then none
      else
        let e : Int := Text.decimalValue digits
        some (significand, (if isNegative then -e else e) - places)
    else none

/-- The value of a numeric literal: exact when it fits a signed 64-bit integer, else a double,
    and null for a double out of range. Literals that are not decimal have no value. -/
def numberValue? (text : String) : Option Json :=
  let cs := text.toList.filter (· ≠ '_')
  if !cs.isEmpty && cs.all Char.isDigit && Text.decimalValue cs < 0x8000000000000000 then
    some (.int (Text.decimalValue cs))
  else
    (decimal? cs).map fun (significand, exponent) =>
      match Binary64.ofDecimal false significand exponent with
      | some x => .float x
      | none => .null

def constantValue? : Expr → Option Json
  | .literal _ (.str s) => some (.str s)
  | .literal _ (.bool b) => some (.bool b)
  | .literal _ .none => some .null
  | .literal _ (.number text) => numberValue? text
  | _ => none

def constantText? : Expr → Option String
  | .literal _ (.str s) => some s
  | .literal _ (.number text) => some text
  | .literal _ (.bool b) => some (if b then "True" else "False")
  | _ => none

/-- The constant settings of an input. -/
def settingsOf (value : Expr) : OrderedMap String Json :=
  match value.asCall? with
  | some call =>
    .ofList (call.keywords.filterMap fun k => do some (← k.arg, ← constantValue? k.value))
  | none => .empty

/-- Entries of a dictionary whose keys are strings. -/
def stringEntries (items : List (DictItem Expr)) : List (String × Expr) :=
  items.filterMap fun item => do some (← (← item.key).asString?, item.value)

/-- The workflow after one more keyword argument of its trigger. -/
def withKeyword (w : ReusableWorkflow) (k : Keyword Expr) : ReusableWorkflow :=
  match k.arg, k.value with
  | some "inputs", .dict _ items =>
    let add m (entry : String × Expr) := m.insert entry.1 (settingsOf entry.2)
    { w with inputs := (stringEntries items).foldl add w.inputs }
  | some "outputs", .dict _ items =>
    let add m (entry : String × Expr) := m.insert entry.1 (entry.2.asString?.getD "")
    { w with outputs := (stringEntries items).foldl add w.outputs }
  | some "secrets", .list _ items => { w with secrets := items.filterMap Expr.asString? }
  | _, _ => w

/-- The reusable workflow that a constructor call declares, if its trigger makes it one. -/
def ofCall? (call : Call) (filePath : String) : Option ReusableWorkflow := do
  let triggers ← (← call.keyword? "on").asCall?
  let trigger ← triggers.keyword? "workflow_call"
  let plain : ReusableWorkflow :=
    { name := ((call.keyword? "name").bind constantText?).getD ""
      filePath, inputs := .empty, outputs := .empty, secrets := [] }
  match trigger.asCall? with
  | some contract => some (contract.keywords.foldl withKeyword plain)
  | none => some plain

/-- The reusable workflows of a script; none if it does not parse. -/
def discover (package text path : String) : List ReusableWorkflow :=
  match parse text with
  | .error _ => []
  | .ok m =>
    let step (state : Discovery.ConstructorNames × List ReusableWorkflow) (s : Stmt) :=
      match s with
      | .importFrom .. => (state.1.observe package s, state.2)
      | s =>
        let found := do
          let (_, value) ← s.binding?
          let call ← value.asCall?
          if state.1.resolve? call = some ResourceKind.workflow then ofCall? call path else none
        (state.1, state.2 ++ found.toList)
    (m.statements.foldl (fun state (s, _) => step state s) ([], [])).2

def toJson (w : ReusableWorkflow) : Json :=
  .obj [("name", .str w.name), ("file_path", .str w.filePath),
    ("inputs", .obj (w.inputs.entries.map fun (name, settings) => (name, .obj settings.entries))),
    ("outputs", .obj (w.outputs.entries.map fun (name, value) => (name, .str value))),
    ("secrets", Json.ofStrings w.secrets)]

end ReusableWorkflow

end WorkflowAudit
