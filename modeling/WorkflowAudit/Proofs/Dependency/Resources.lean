import WorkflowAudit.Dependency.Graph
import WorkflowAudit.Discovery.Scan
import WorkflowAudit.Proofs.Data.OrderedMap

/-! # Two ways from resources to dependencies

A scan keeps a repeated name at its first place, a graph moves it to the place of its last
declaration. The lists under a name are the same: both take them from the last declaration and
leave out what no resource declares. Without repeated names the maps are one map, so they are sorted
alike.
-/

namespace WorkflowAudit

variable (resources : List Resource)

/-- What the last resource of a name depends on, as far as it is declared. -/
def declaredDependencies (name : String) : Option (List String) :=
  (resources.reverse.find? (·.name = name)).map fun r =>
    r.dependencies.filter (resources.map (·.name)).contains

theorem declaredDependencies_eq_none_iff {name : String} :
    declaredDependencies resources name = none ↔ name ∉ resources.map (·.name) := by
  simp [declaredDependencies]

namespace Discovery

theorem keys_dependencyMap :
    (dependencyMap resources).keys = dedupFirst (resources.map (·.name)) := by
  rw [dependencyMap, OrderedMap.keys_ofList, List.map_map]
  rfl

theorem get?_dependencyMap (name : String) :
    (dependencyMap resources).get? name = declaredDependencies resources name :=
  OrderedMap.get?_ofList_map _ _ resources name

end Discovery

namespace Graph

theorem keys_dependencyMap_ofResources :
    (ofResources resources).dependencyMap.keys = (resources.map (·.name)).dedup := by
  rw [dependencyMap, OrderedMap.keys_mapValues]
  exact OrderedMap.keys_foldl_insertLast (·.name) _ resources

theorem get?_dependencyMap_ofResources (name : String) :
    (ofResources resources).dependencyMap.get? name = declaredDependencies resources name := by
  rw [dependencyMap, OrderedMap.get?_mapValues, ofResources,
    OrderedMap.get?_foldl_insertLast Resource.name, Option.map_map]
  rfl

end Graph

/-- A scan and a graph give each declared name, and no other one, what its last declaration depends
on. If no name is declared twice they also agree in the order, and in the result of sorting. -/
theorem dependencyMaps_agree :
    (∀ name, name ∈ (Discovery.dependencyMap resources).keys ↔
      name ∈ (Graph.ofResources resources).dependencyMap.keys) ∧
    (∀ name, (Discovery.dependencyMap resources).get? name = declaredDependencies resources name ∧
      (Graph.ofResources resources).dependencyMap.get? name =
        declaredDependencies resources name) ∧
    ((resources.map (·.name)).Nodup →
      (Discovery.dependencyMap resources).keys = (Graph.ofResources resources).dependencyMap.keys ∧
      (Discovery.dependencyMap resources).topologicalSort =
        (Graph.ofResources resources).topologicalSort) := by
  refine ⟨fun name => ?_, fun name => ⟨Discovery.get?_dependencyMap resources name,
    Graph.get?_dependencyMap_ofResources resources name⟩, fun distinct => ?_⟩
  · rw [Discovery.keys_dependencyMap, Graph.keys_dependencyMap_ofResources, mem_dedupFirst,
      List.mem_dedup]
  · have keys : (Discovery.dependencyMap resources).keys =
        (Graph.ofResources resources).dependencyMap.keys := by
      rw [Discovery.keys_dependencyMap, Graph.keys_dependencyMap_ofResources,
        dedupFirst_of_nodup distinct, distinct.dedup]
    have same : Discovery.dependencyMap resources =
        (Graph.ofResources resources).dependencyMap :=
      OrderedMap.ext_get? keys fun name => by
        rw [Discovery.get?_dependencyMap, Graph.get?_dependencyMap_ofResources]
    exact ⟨keys, by rw [same, Graph.topologicalSort]⟩

/-- A job that is declared again behind the workflow that lists it, and now needs another one. -/
def redeclaredBuild : List Resource := [
  ⟨"build", .job, "ci.py", 1, "ci", ["missing"]⟩,
  ⟨"ci", .workflow, "ci.py", 2, "ci", ["build", "lint"]⟩,
  ⟨"lint", .job, "jobs.py", 1, "jobs", []⟩,
  ⟨"build", .job, "jobs.py", 2, "jobs", ["lint"]⟩]

theorem dependencyMaps_agree_redeclaredBuild :
    (Discovery.dependencyMap redeclaredBuild).get? "build" = some ["lint"] ∧
    (Graph.ofResources redeclaredBuild).dependencyMap.get? "build" = some ["lint"] ∧
    (redeclaredBuild.tail.map (·.name)).Nodup ∧
    (Graph.ofResources redeclaredBuild.tail).topologicalSort = .ok ["lint", "build", "ci"] := by
  have distinct : (redeclaredBuild.tail.map (·.name)).Nodup := by decide
  have last : declaredDependencies redeclaredBuild "build" = some ["lint"] := by decide +kernel
  obtain ⟨-, found, -⟩ := dependencyMaps_agree redeclaredBuild
  obtain ⟨-, -, sorted⟩ := dependencyMaps_agree redeclaredBuild.tail
  refine ⟨(found "build").1.trans last, (found "build").2.trans last, distinct, ?_⟩
  rw [← (sorted distinct).2]
  decide +kernel

/-- A repeated name stands at different places in the two maps. -/
example : (Discovery.dependencyMap redeclaredBuild).keys = ["build", "ci", "lint"] ∧
    (Graph.ofResources redeclaredBuild).dependencyMap.keys = ["ci", "lint", "build"] := by
  decide +kernel

end WorkflowAudit
