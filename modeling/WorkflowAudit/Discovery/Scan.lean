import WorkflowAudit.Dependency.Map
import WorkflowAudit.Files.Path
import WorkflowAudit.Resource
import WorkflowAudit.Script.Parser.Statement
import WorkflowAudit.Script.Walk
import WorkflowAudit.Text.Search

/-!
# Resources declared in a script

A resource is a name bound to a call of a constructor. Constructors imported under another name
from the configured package are followed. A name that is bound twice keeps its last
declaration, at the place of that declaration.
-/

namespace WorkflowAudit

open Script

namespace Discovery

/-- Package whose imports may rename constructors, unless another one is configured. -/
def defaultPackage : String := "wetwire_github"

/-- Names under which constructors were imported, the latest import first. -/
abbrev ConstructorNames := List (String × ResourceKind)

namespace ConstructorNames

/-- The names after one more statement. -/
def observe (package : String) (known : ConstructorNames) : Stmt → ConstructorNames
  | .importFrom _ (some source) _ names =>
    if Text.contains source package then
      let found := names.filterMap fun a =>
        (ResourceKind.ofConstructor? a.name).map fun kind => (a.boundName, kind)
      found.reverse ++ known
    else known
  | _ => known

/-- The kind of resource that a call constructs. -/
def resolve? (known : ConstructorNames) (call : Call) : Option ResourceKind :=
  match call.func with
  | .name _ id =>
    match known.lookup id with
    | some kind => some kind
    | none => ResourceKind.ofConstructor? id
  | .member _ _ attr => ResourceKind.ofConstructor? attr
  | _ => none

end ConstructorNames

/-- The parts of an argument that may name other resources. -/
def argumentParts : Expr → List Expr
  | .dict _ items => items.map (·.value)
  | .list _ items | .tuple _ items | .set _ items => items
  | .call _ _ args keywords => args ++ Keyword.valuesOf keywords
  | _ => []

theorem totalSize_argumentParts (e : Expr) : totalSize (argumentParts e) < sizeOf e := by
  cases e with
  | dict span items =>
    have values : totalSize (items.map (·.value)) ≤ totalSize (items.flatMap DictItem.parts) := by
      induction items with
      | nil => simp [totalSize]
      | cons item items ih =>
        simp only [List.map_cons, List.flatMap_cons, totalSize_cons, totalSize_append,
          DictItem.parts]
        omega
    have := Expr.totalSize_parts items
    simp only [argumentParts, Expr.dict.sizeOf_spec]
    omega
  | call span func args keywords =>
    have := Expr.totalSize_children (.call span func args keywords)
    simp only [Expr.children, argumentParts, List.cons_append, totalSize_cons] at this ⊢
    omega
  | list span items | tuple span items | set span items =>
    have := totalSize_lt_sizeOf items
    simp only [argumentParts, Expr.list.sizeOf_spec, Expr.tuple.sizeOf_spec,
      Expr.set.sizeOf_spec]
    omega
  | _ => simp +arith [argumentParts, totalSize]

/-- Names in pending arguments: through containers and the arguments of nested calls, but not
    through what is called, operators, attributes or lambdas. -/
def mentionedNames : List Expr → List String
  | [] => []
  | e :: pending => e.asName?.toList ++ mentionedNames (argumentParts e ++ pending)
termination_by pending => totalSize pending
decreasing_by
  have := totalSize_argumentParts e
  simp only [totalSize_append, totalSize_cons]
  omega

/-- The names that the arguments of a call mention. -/
def dependenciesOf (call : Call) : List String :=
  dedupFirst (mentionedNames (call.args ++ Keyword.valuesOf call.keywords))

/-- State of a scan: constructor names and the resources found so far. -/
structure ScanState where
  known : ConstructorNames
  found : OrderedMap String Resource

/-- One statement of a scan. -/
def scanStep (package filePath moduleId : String) (lines : LineIndex) (state : ScanState)
    (s : Stmt) : ScanState :=
  match s with
  | .importFrom .. => { state with known := state.known.observe package s }
  | s =>
    match s.binding? with
    | none => state
    | some (name, value) =>
      match value.asCall? with
      | none => state
      | some call =>
        match state.known.resolve? call with
        | none => state
        | some kind =>
          { state with
            found := state.found.insertLast name {
              name, kind, filePath, moduleId
              line := lines.lineOf s.span.start
              dependencies := dependenciesOf call } }

/-- The resources of a parsed script. -/
def scanModule (package path : String) (m : Module) : List Resource :=
  let moduleId := (Path.stem? path).getD ""
  let final := m.statements.foldl
    (fun state (s, _) => scanStep package path moduleId m.lines state s) ⟨[], .empty⟩
  final.found.values

/-- The resources of a script; none if it does not parse. -/
def scan (package text path : String) : List Resource :=
  match parse text with
  | .ok m => scanModule package path m
  | .error _ => []

/-- Each resource with the declared resources among its dependencies. -/
def dependencyMap (resources : List Resource) : DependencyMap :=
  let names := resources.map (·.name)
  .ofList (resources.map fun r => (r.name, r.dependencies.filter names.contains))

end Discovery

end WorkflowAudit
