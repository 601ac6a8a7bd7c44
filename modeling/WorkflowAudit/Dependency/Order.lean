import WorkflowAudit.Dependency.Cycles
import WorkflowAudit.Error

/-!
# Dependency order

Names are released once all their known dependencies are. Released names wait in a queue, so
names come out in waves, and names that become ready together keep the order of the map.
-/

namespace WorkflowAudit

/-- Why no order exists: a closed walk of dependencies. -/
structure CycleError where
  walk : List String
deriving DecidableEq, Repr

namespace CycleError

def message (e : CycleError) : String :=
  "Dependency cycle detected: " ++ String.intercalate " -> " e.walk

def toAuditError (e : CycleError) : AuditError := .validation "dependencies" e.message

end CycleError

namespace DependencyMap

/-- Names with the number of their known dependencies that are not released. -/
abbrev Waiting := List (String × Nat)

namespace Waiting

/-- The counters after `name` has been released. -/
def release (m : DependencyMap) (name : String) (waiting : Waiting) : Waiting :=
  waiting.map fun (dependent, unmet) =>
    (dependent, if m.Needs dependent name then unmet - 1 else unmet)

/-- Names that wait for nothing. -/
def ready (waiting : Waiting) : List String :=
  (waiting.filter fun (_, unmet) => unmet = 0).map Prod.fst

/-- Names that still wait. -/
def blocked (waiting : Waiting) : Waiting := waiting.filter fun (_, unmet) => unmet ≠ 0

theorem length_ready_add_blocked (waiting : Waiting) :
    waiting.ready.length + waiting.blocked.length = waiting.length := by
  induction waiting with
  | nil => rfl
  | cons w ws ih =>
    simp only [ready, blocked, List.filter_cons, List.length_map, ne_eq, decide_not] at ih ⊢
    by_cases h : w.2 = 0 <;> simp [h] <;> omega

end Waiting

/-- The names released from now on: first the queue, and after each name those that it made
    ready. -/
def releaseFrom (m : DependencyMap) : List String → Waiting → List String
  | [], _ => []
  | name :: queue, waiting =>
    let next := waiting.release m name
    name :: releaseFrom m (queue ++ next.ready) next.blocked
termination_by queue waiting => queue.length + waiting.length
decreasing_by
  have := Waiting.length_ready_add_blocked (waiting.release m name)
  have : (waiting.release m name).length = waiting.length := by simp [Waiting.release]
  simp only [List.length_append, List.length_cons]
  omega

/-- The counters before anything is released. -/
def initialWaiting (m : DependencyMap) : Waiting :=
  m.keys.map fun name => (name, (m.known name).length)

/-- The names in the order of their release; those on or behind a cycle are left out. -/
def releaseOrder (m : DependencyMap) : List String :=
  releaseFrom m m.initialWaiting.ready m.initialWaiting.blocked

/-- All names, each after its known dependencies, or a cycle that prevents this. -/
def topologicalSort (m : DependencyMap) : Except CycleError (List String) :=
  if m.releaseOrder.length = m.size then .ok m.releaseOrder
  else .error ⟨m.cycles.headD ["unknown"]⟩

end DependencyMap

end WorkflowAudit
