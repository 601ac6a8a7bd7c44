import WorkflowAudit.Dependency.Map

/-!
# Cycles by depth-first search

The search follows known dependencies in listed order, from each name that no earlier search
has reached. A dependency that stands on the current path closes a cycle, which is reported as
a closed walk.
-/

namespace WorkflowAudit.DependencyMap

/-- The current path, deepest name first, each name with the dependencies still to follow. -/
abbrev SearchPath := List (String × List String)

/-- Names and dependencies left on a path; it shrinks when a name is left or a dependency
    passed over. -/
def SearchPath.weight : SearchPath → Nat
  | [] => 0
  | (_, todo) :: above => todo.length + 1 + weight above

/-- The closed walk from a name on the path to the deepest name and back. -/
def closedWalk? (path : SearchPath) (dep : String) : Option (List String) :=
  let names := path.map Prod.fst
  if dep ∈ names then
    some (dep :: (names.takeWhile (· ≠ dep)).reverse ++ [dep])
  else none

/-- The walks closed by a search with a given path, then by searches from the names in
    `fresh`, which are those not reached so far. -/
def searchFrom (m : DependencyMap) (fresh : List String) :
    SearchPath → List (List String)
  | [] =>
    match fresh with
    | [] => []
    | root :: rest => searchFrom m rest [(root, m.known root)]
  | (_, []) :: above => searchFrom m fresh above
  | (name, dep :: todo) :: above =>
    if dep ∈ fresh then
      searchFrom m (fresh.erase dep) ((dep, m.known dep) :: (name, todo) :: above)
    else
      (closedWalk? ((name, todo) :: above) dep).toList ++ searchFrom m fresh ((name, todo) :: above)
termination_by path => (fresh.length, SearchPath.weight path)
decreasing_by
  · simp [Prod.lex_def]
  · simp [Prod.lex_def, SearchPath.weight]
  · rename_i reached
    have := List.length_erase_of_mem reached
    have := List.length_pos_of_mem reached
    simp only [Prod.lex_def]
    omega
  · simp [Prod.lex_def, SearchPath.weight]

/-- Cycles as closed walks, each with its first name repeated at the end. Only the dependency
    that closes a walk during the search is reported, so not every cycle is listed. -/
def cycles (m : DependencyMap) : List (List String) := searchFrom m m.keys []

end WorkflowAudit.DependencyMap
