import WorkflowAudit.Dependency.Graph
import WorkflowAudit.Proofs.Dependency.Release
import WorkflowAudit.Workflow.Composition
import WorkflowAudit.Workflow.JobGraph

/-! # The jobs of one workflow as a graph

In a graph that holds one workflow, the names of the nodes are those of the jobs with the name of
the workflow before them. Different jobs have different nodes, so the graph has an order exactly as
the needs of the jobs have.
-/

namespace WorkflowAudit.Graph

variable (w : Workflow) (origin : Option Location)

theorem nodeId_injective : Function.Injective w.nodeId := by
  intro a b same
  have chars := congrArg String.toList same
  simp only [Workflow.nodeId, String.toList_append, List.append_cancel_left_eq] at chars
  exact String.toList_inj.mp chars

/-- The nodes of the jobs of a workflow, each under its id. -/
def jobNodes : List (String × DependencyNode) :=
  w.jobs.entries.map fun entry =>
    (w.nodeId entry.1, ⟨w.nodeId entry.1, .job, entry.2.needs.map w.nodeId, origin⟩)

theorem map_fst_jobNodes : (jobNodes w origin).map Prod.fst = w.jobs.keys.map w.nodeId := by
  simp [jobNodes, OrderedMap.keys, Function.comp_def]

theorem nodup_jobNodes : ((jobNodes w origin).map Prod.fst).Nodup := by
  rw [map_fst_jobNodes]
  exact w.jobs.nodup_keys.map (nodeId_injective w)

theorem nodes_addWorkflow (g : Graph) : (g.addWorkflow w origin).nodes =
    (jobNodes w origin).foldl (fun nodes e => nodes.insert e.1 e.2) g.nodes := by
  rw [jobNodes, List.foldl_map]
  rfl

theorem entries_dependencyMap_addWorkflow :
    (empty.addWorkflow w origin).dependencyMap.entries =
      w.jobs.entries.map fun entry => (w.nodeId entry.1, entry.2.needs.map w.nodeId) := by
  have nodes : (empty.addWorkflow w origin).nodes.entries = jobNodes w origin := by
    rw [nodes_addWorkflow]
    exact OrderedMap.entries_foldl_insert empty.nodes (jobNodes w origin) (nodup_jobNodes w origin)
  simp only [dependencyMap, OrderedMap.mapValues, nodes, jobNodes, List.map_map]
  rfl

/-- Edges between nodes are those between their jobs. -/
theorem exists_job_of_lists {x y : String}
    (edge : (empty.addWorkflow w origin).dependencyMap.Lists x y) :
    ∃ a b, x = w.nodeId a ∧ y = w.nodeId b ∧ w.dependencyMap.Lists a b := by
  obtain ⟨⟨listed, entry, member⟩, key⟩ := edge
  rw [entries_dependencyMap_addWorkflow] at entry
  obtain ⟨⟨a, job⟩, present, same⟩ := List.mem_map.mp entry
  obtain ⟨rfl, rfl⟩ := Prod.mk.inj same
  obtain ⟨b, need, rfl⟩ := List.mem_map.mp member
  refine ⟨a, b, rfl, rfl, ⟨job.needs, ?_, need⟩, ?_⟩
  · exact List.mem_map.mpr ⟨(a, job), present, rfl⟩
  · simp only [OrderedMap.keys, entries_dependencyMap_addWorkflow, List.map_map, List.mem_map,
      Function.comp_apply] at key
    obtain ⟨other, there, id⟩ := key
    rw [Workflow.dependencyMap, OrderedMap.keys_mapValues, ← nodeId_injective w id]
    exact OrderedMap.mem_keys_of_entry there

theorem exists_order_addWorkflow (acyclic : Acyclic w.dependencyMap.Lists) :
    ∃ order, (empty.addWorkflow w origin).topologicalSort = .ok order := by
  have apart : Acyclic (empty.addWorkflow w origin).dependencyMap.Lists :=
    acyclic.of_rename w.nodeId (nodeId_injective w) fun _ _ => exists_job_of_lists w origin
  exact ⟨_, DependencyMap.topologicalSort_eq_ok_iff.mpr ⟨apart, rfl⟩⟩

end WorkflowAudit.Graph
