import WorkflowAudit.Data.OrderedMap

/-!
# Dependency maps

A dependency map lists for each name the names it needs. Only names that are keys of the map
count as known dependencies; a need that is listed twice counts once.
-/

namespace WorkflowAudit

/-- What each name depends on, in order. -/
abbrev DependencyMap := OrderedMap String (List String)

namespace DependencyMap

/-- The needs listed under a name, known or not. -/
def needs (m : DependencyMap) (name : String) : List String := (m.get? name).getD []

/-- The distinct needs of a name that are keys, in order of first mention. -/
def known (m : DependencyMap) (name : String) : List String :=
  dedupFirst ((m.needs name).filter m.contains)

/-- Whether `name` lists `need`, and `need` is a key. -/
def Needs (m : DependencyMap) (name need : String) : Prop := need ∈ m.known name

instance (m : DependencyMap) (name need : String) : Decidable (m.Needs name need) :=
  inferInstanceAs (Decidable (_ ∈ _))

end DependencyMap

end WorkflowAudit
