import WorkflowAudit.Lint.SourceUnit

/-!
# Lifting large constants out of calls

A large argument is reported, and mended by binding it to a new name before the statement that
holds it. Only statements at module level that begin their line are mended, and nothing is
lifted out of a lambda or comprehension.
-/

namespace WorkflowAudit.Lint

open Script

/-- What a rule lifts out of which calls. -/
structure Extraction where
  id : String
  description : String
  /-- Constructor whose calls are looked at. -/
  constructor : String
  /-- What is appended to the name that the call is bound to. -/
  ending : String
  /-- Name for calls that are not bound themselves. -/
  fallback : String
  /-- The argument of a call that is too large. -/
  target? : Call → Option Expr
  message : Expr → String
  suggestion : String

namespace Extraction

/-- Names for a base that may be taken: the base, then the base with numbers from 2. -/
def candidates (base : String) (count : Nat) : List String :=
  base :: (List.range count).map fun i => s!"{base}_{i + 2}"

/-- The first candidate that is not taken. There is one among so many as there are taken names,
    and one more. -/
def freshName (base : String) (taken : List String) : String :=
  ((candidates base taken.length).find? fun name => !taken.contains name).getD base

/-- Names that are taken, the ranges of the current statement that are lifted, and the edits. -/
structure LiftState where
  taken : List String
  claimed : List Span
  edits : EditBuffer

/-- Whether only white space stands before a statement on its line. -/
def beginsLine (text : String) (lineStart : Nat) (s : Stmt) : Bool :=
  (Span.slice ⟨lineStart, s.span.start⟩ text).toList.all Text.isWhiteSpace

/-- The base of the name for an argument of a call. -/
def baseName (x : Extraction) (s : Stmt) (call : Call) : String :=
  match s.binding? with
  | some (name, value) => if value.span = call.span then s!"{name}_{x.ending}" else x.fallback
  | none => x.fallback

/-- One call of a statement whose line begins at `lineStart`. -/
def liftCall (x : Extraction) (text : String) (lineStart : Nat) (s : Stmt) (state : LiftState)
    (call : Call) : LiftState :=
  match x.target? call with
  | none => state
  | some target =>
    if state.claimed.any (·.overlaps target.span) then state
    else
      let name := freshName (x.baseName s call) state.taken
      let binding := s!"{name} = {target.span.slice text}\n"
      { taken := state.taken ++ [name]
        claimed := state.claimed ++ [target.span]
        edits := state.edits.pushGroup [.insertion lineStart binding, ⟨target.span, name⟩] }

/-- The calls of a statement that may be mended. -/
def liftableCalls (x : Extraction) (s : Stmt) : List Call :=
  (s.exprs.flatMap (·.walkScoped false)).filterMap fun (e, inside) =>
    if inside then none else e.asCall?.filter (·.isCallTo x.constructor)

/-- One statement at module level. -/
def liftStatement (x : Extraction) (text : String) (lines : LineIndex) (state : LiftState)
    (s : Stmt) : LiftState :=
  let lineStart := lines.lineStart s.span.start
  if s.isSimple && beginsLine text lineStart s then
    (x.liftableCalls s).foldl (x.liftCall text lineStart s) { state with claimed := [] }
  else state

/-- The edits that lift every argument that can be. -/
def edits (x : Extraction) (u : SourceUnit) : EditBuffer :=
  match u.tree with
  | none => .empty
  | some m =>
    (m.body.foldl (x.liftStatement u.text m.lines) ⟨m.boundNames, [], .empty⟩).edits

def findings (x : Extraction) (u : SourceUnit) : List (String × Location × Option String) :=
  (u.callsTo x.constructor).filterMap fun call =>
    (x.target? call).map fun target =>
      (x.message target, u.location target.span.start, some x.suggestion)

def rule (x : Extraction) : Rule SourceUnit :=
  checkWithEdits x.id x.description .style .low x.findings x.edits

end Extraction

/-- Number of entries of a dictionary; other expressions have none. -/
def entryCount : Expr → Nat
  | .dict _ items => items.length
  | _ => 0

/-- A keyword argument that is a dictionary with more entries than allowed. -/
def largeDict? (keyword : String) (limit : Nat) (call : Call) : Option Expr := do
  let value ← call.keyword? keyword
  match value with
  | .dict _ items => if items.length > limit then some value else none
  | _ => none

def inlineEnv (limit : Nat) : Extraction where
  id := "WAG013"
  description := s!"Extract inline env dicts with >{limit} variables"
  constructor := "Step"
  ending := "env"
  fallback := "step_env"
  target? := largeDict? "env" limit
  message target :=
    s!"Step has {entryCount target} inline env variables; extract to a named variable"
  suggestion := "Create: step_env = \x7b...\x7d; Step(..., env=step_env)"

/-- Whether a matrix has too many keys, or a key with too many values. -/
def isLargeMatrix (maxKeys maxValues : Nat) : Expr → Bool
  | .dict _ items =>
    items.length > maxKeys || items.any fun item =>
      match item.value with
      | .list _ values => values.length > maxValues
      | _ => false
  | _ => false

/-- The matrix of a job's strategy, if it is large. -/
def largeMatrix? (maxKeys maxValues : Nat) (call : Call) : Option Expr := do
  let strategy ← (← call.keyword? "strategy").asCall?.filter (·.isCallTo "Strategy")
  let matrix ← strategy.keyword? "matrix"
  let values ← (← matrix.asCall?.filter (·.isCallTo "Matrix")).keyword? "values"
  if isLargeMatrix maxKeys maxValues values then some matrix else none

def inlineMatrix (maxKeys maxValues : Nat) : Extraction where
  id := "WAG014"
  description := s!"Extract complex inline matrix (>{maxKeys} keys or >{maxValues} values)"
  constructor := "Job"
  ending := "matrix"
  fallback := "job_matrix"
  target? := largeMatrix? maxKeys maxValues
  message _ := "Complex inline matrix configuration; extract to a named variable"
  suggestion := "Create: job_matrix = Matrix(...); Strategy(matrix=job_matrix)"

def inlineOutputs (limit : Nat) : Extraction where
  id := "WAG015"
  description := s!"Extract inline outputs dicts with >{limit} entries"
  constructor := "Job"
  ending := "outputs"
  fallback := "job_outputs"
  target? := largeDict? "outputs" limit
  message target := s!"Job has {entryCount target} inline outputs; extract to a named variable"
  suggestion := "Create: job_outputs = \x7b...\x7d; Job(..., outputs=job_outputs)"

end WorkflowAudit.Lint
