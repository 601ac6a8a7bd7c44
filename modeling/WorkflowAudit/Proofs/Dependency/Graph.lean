import WorkflowAudit.Proofs.Dependency.Release
import WorkflowAudit.Workflow.JobGraph

/-! # Graphs that grow

Whatever is added to a graph, each node stands under its own id. Edges can therefore be told from
the names of their ends, and the queries agree: the nodes that list a node are the targets of the
edges from it, and an order exists exactly when the edges have no cycle. A need that is no node is
no edge, but it stays on its node and becomes an edge when a node of that name is added.
-/

namespace WorkflowAudit.Graph

/-! ## Changes -/

/-- What can be done to a graph. -/
inductive Change where
  | node (n : DependencyNode)
  | workflow (w : Workflow) (origin : Option Location)
  | call (caller callee : String)

/-- The graph that is there after a change, and how the change ended. -/
def Change.apply (g : Graph) : Change → Graph × Except AuditError Unit
  | .node n =>
    match g.addNode n with
    | .ok next => (next, .ok ())
    | .error e => (g, .error e)
  | .workflow w origin => (g.addWorkflow w origin, .ok ())
  | .call caller callee => (g.addCall caller callee, .ok ())

/-- The graphs that changes lead to. -/
inductive Grown : Graph → Prop where
  | empty : Grown empty
  | ofDependencies (m : DependencyMap) : Grown (ofDependencies m)
  | ofResources (resources : List Resource) : Grown (ofResources resources)
  | change {g : Graph} (c : Change) : Grown g → Grown (c.apply g).1

/-- A taken id is refused, and nothing else. -/
theorem apply_node (g : Graph) (n : DependencyNode) :
    (Change.node n).apply g =
      if n.id ∈ g.nodes.keys then (g, .error (.alreadyExists "node" n.id))
      else ({ g with nodes := g.nodes.insert n.id n }, .ok ()) := by
  simp only [Change.apply, addNode, ← OrderedMap.contains_iff]
  by_cases taken : g.nodes.contains n.id = true
  · simp only [taken, if_true]
  · simp only [taken, Bool.false_eq_true, if_false]

/-! ## Ids -/

/-- Each node stands under its id. -/
def Keyed (nodes : OrderedMap String DependencyNode) : Prop :=
  ∀ id node, nodes.get? id = some node → node.id = id

namespace Keyed

variable {nodes : OrderedMap String DependencyNode}

theorem empty : Keyed .empty := fun _ _ none => nomatch none

theorem insert (keyed : Keyed nodes) (node : DependencyNode) :
    Keyed (nodes.insert node.id node) := by
  intro id other found
  rw [OrderedMap.get?_insert] at found
  split at found
  · rename_i same
    rw [← Option.some.inj found, same]
  · exact keyed id other found

theorem erase (keyed : Keyed nodes) (id : String) : Keyed (nodes.erase id) := by
  intro other node found
  have kept := OrderedMap.get?_eq_some_iff.mp found
  exact keyed other node (OrderedMap.get?_eq_some_iff.mpr (List.mem_of_mem_filter kept))

theorem map_id_values (keyed : Keyed nodes) : nodes.values.map (·.id) = nodes.keys := by
  rw [OrderedMap.values, OrderedMap.keys, List.map_map]
  apply List.map_congr_left
  rintro ⟨id, node⟩ member
  exact keyed id node (OrderedMap.get?_eq_some_iff.mpr member)

theorem nodup_ids (keyed : Keyed nodes) : (nodes.values.map (·.id)).Nodup := by
  rw [keyed.map_id_values]
  exact nodes.nodup_keys

end Keyed

theorem keyed_change {g : Graph} (c : Change) (keyed : Keyed g.nodes) :
    Keyed (c.apply g).1.nodes := by
  cases c with
  | node n =>
      rw [apply_node]
      split
      · exact keyed
      · exact keyed.insert n
  | workflow w origin =>
      refine List.foldlRecOn (motive := Keyed) w.jobs.entries _ keyed fun nodes keyed entry _ => ?_
      exact keyed.insert ⟨w.nodeId entry.1, .job, entry.2.needs.map w.nodeId, origin⟩
  | call caller callee => exact keyed

theorem Grown.keyed {g : Graph} (grown : Grown g) : Keyed g.nodes := by
  induction grown with
  | empty => exact .empty
  | ofDependencies m =>
      intro id node found
      have mapped := (OrderedMap.get?_mapValues _ m id).symm.trans found
      obtain ⟨needs, -, rfl⟩ := Option.map_eq_some_iff.mp mapped
      rfl
  | ofResources resources =>
      refine List.foldlRecOn (motive := Keyed) resources _ .empty fun nodes keyed r _ => ?_
      exact (keyed.erase r.name).insert ⟨r.name, r.kind, _, _⟩
  | change c _ ih => exact keyed_change c ih

/-! ## Edges -/

section Edges

variable {g : Graph}

theorem mem_knownDependencies_iff {node : DependencyNode} {dep : String} :
    dep ∈ g.knownDependencies node ↔ dep ∈ node.dependsOn ∧ dep ∈ g.nodes.keys := by
  rw [knownDependencies, mem_dedupFirst, List.mem_filter, OrderedMap.contains_iff]

theorem mem_edges_iff {e : Edge} :
    e ∈ g.edges ↔
      ∃ node ∈ g.nodes.values, e.target = node.id ∧ e.source ∈ node.dependsOn ∧
        e.source ∈ g.nodes.keys := by
  obtain ⟨source, target⟩ := e
  simp only [edges, List.mem_flatMap, List.mem_map, mem_knownDependencies_iff, Edge.mk.injEq]
  constructor
  · rintro ⟨node, member, dep, known, rfl, rfl⟩
    exact ⟨node, member, rfl, known⟩
  · rintro ⟨node, member, rfl, known⟩
    exact ⟨node, member, source, known, rfl, rfl⟩

theorem nodup_edges (keyed : Keyed g.nodes) : g.edges.Nodup := by
  rw [edges, List.nodup_flatMap]
  constructor
  · intro node _
    refine (nodup_dedupFirst _).map fun a b same => ?_
    exact congrArg Edge.source same
  · refine (List.pairwise_map.mp keyed.nodup_ids).imp fun apart => ?_
    intro e left right
    obtain ⟨_, _, rfl⟩ := List.mem_map.mp left
    obtain ⟨_, _, same⟩ := List.mem_map.mp right
    exact apart (congrArg Edge.target same).symm

/-- The target of the one edge that a node may have from another one. -/
theorem targets_from {node : DependencyNode} {id : String} (known : id ∈ g.nodes.keys) :
    (((g.knownDependencies node).map fun dep => (⟨dep, node.id⟩ : Edge)).filter
        (·.source = id)).map (·.target) =
      if node.dependsOn.contains id then [node.id] else [] := by
  have listed : id ∈ g.knownDependencies node ↔ node.dependsOn.contains id = true := by
    rw [mem_knownDependencies_iff, and_iff_left known, List.contains_iff_mem]
  have once : (g.knownDependencies node).filter (· = id) =
      if id ∈ g.knownDependencies node then [id] else [] := by
    have distinct : (g.knownDependencies node).Nodup := nodup_dedupFirst _
    rw [List.filter_eq, distinct.count]
    split <;> rfl
  rw [List.filter_map, List.map_map]
  simp only [Function.comp_def, once, listed]
  split <;> rfl

theorem dependents_eq {id : String} (known : id ∈ g.nodes.keys) :
    g.dependents id = (g.edges.filter (·.source = id)).map (·.target) := by
  rw [dependents, edges, List.filter_flatMap, List.map_flatMap]
  induction g.nodes.values with
  | nil => rfl
  | cons node nodes ih =>
      rw [List.flatMap_cons, targets_from known, ← ih, List.filter_cons]
      split <;> rfl

theorem lists_iff_edge (keyed : Keyed g.nodes) {name need : String} :
    g.dependencyMap.Lists name need ↔ ⟨need, name⟩ ∈ g.edges := by
  rw [mem_edges_iff, DependencyMap.Lists, dependencyMap, OrderedMap.keys_mapValues]
  constructor
  · rintro ⟨⟨listed, entry, lists⟩, key⟩
    obtain ⟨⟨id, node⟩, member, same⟩ := List.mem_map.mp entry
    obtain ⟨rfl, rfl⟩ := Prod.mk.inj same
    have own := keyed id node (OrderedMap.get?_eq_some_iff.mpr member)
    exact ⟨node, List.mem_map_of_mem member, own.symm, lists, key⟩
  · rintro ⟨node, member, rfl, lists, key⟩
    obtain ⟨⟨id, node⟩, entry, rfl⟩ := List.mem_map.mp member
    have own := keyed id node (OrderedMap.get?_eq_some_iff.mpr entry)
    refine ⟨⟨node.dependsOn, List.mem_map.mpr ⟨(id, node), entry, ?_⟩, lists⟩, key⟩
    rw [← own]

theorem acyclic_edges_iff (keyed : Keyed g.nodes) :
    (Acyclic fun source target => ⟨source, target⟩ ∈ g.edges) ↔
      Acyclic g.dependencyMap.Lists := by
  have turned : (fun source target => ⟨source, target⟩ ∈ g.edges) =
      Function.swap g.dependencyMap.Lists := by
    funext source target
    exact propext (lists_iff_edge keyed).symm
  rw [turned]
  simp only [Acyclic, Relation.transGen_swap]

theorem sublist_dependents (keyed : Keyed g.nodes) (id : String) :
    (g.dependents id).Sublist g.nodes.keys := by
  rw [← keyed.map_id_values]
  exact List.filter_sublist.map _

/-- In a graph that was grown from nothing, from dependencies or from resources, each node stands
under its id, and the queries agree on the edges: these join each node to the distinct nodes that
it lists. A node whose id is taken is refused and changes nothing. -/
theorem queries_of_grown (grown : Grown g) :
    (∀ id node, (id, node) ∈ g.nodes.entries → node.id = id) ∧
    (∀ n e, ((Change.node n).apply g).2 = .error e →
      ((Change.node n).apply g).1 = g ∧ n.id ∈ g.nodes.keys ∧ e = .alreadyExists "node" n.id) ∧
    g.edges.Nodup ∧
    (∀ e, e ∈ g.edges ↔ ∃ node ∈ g.nodes.values, e.target = node.id ∧
      e.source ∈ node.dependsOn ∧ e.source ∈ g.nodes.keys) ∧
    (∀ id ∈ g.nodes.keys, (g.dependents id).Sublist g.nodes.keys ∧
      g.dependents id = (g.edges.filter (·.source = id)).map (·.target)) ∧
    ((∃ order, g.topologicalSort = .ok order) ↔
      Acyclic fun source target => ⟨source, target⟩ ∈ g.edges) ∧
    (∀ order, g.topologicalSort = .ok order → order.Perm g.nodes.keys ∧
      ∀ e ∈ g.edges, order.idxOf e.source < order.idxOf e.target) := by
  have keyed := grown.keyed
  refine ⟨fun id node member => keyed id node (OrderedMap.get?_eq_some_iff.mpr member), ?_,
    nodup_edges keyed, fun _ => mem_edges_iff, ?_, ?_, ?_⟩
  · intro n e refused
    rw [apply_node] at refused ⊢
    split at refused
    · rename_i taken
      rw [if_pos taken]
      exact ⟨rfl, taken, (Except.error.inj refused).symm⟩
    · cases refused
  · exact fun id known => ⟨sublist_dependents keyed id, dependents_eq known⟩
  · rw [acyclic_edges_iff keyed]
    simp only [topologicalSort, DependencyMap.topologicalSort_eq_ok_iff, exists_and_left,
      exists_eq, and_true]
  · intro order sorted
    obtain ⟨acyclic, rfl⟩ := DependencyMap.topologicalSort_eq_ok_iff.mp sorted
    have all := DependencyMap.perm_releaseOrder_of_acyclic acyclic
    have keys : g.dependencyMap.keys = g.nodes.keys := OrderedMap.keys_mapValues _ _
    refine ⟨keys ▸ all, fun e member => ?_⟩
    have lists : g.dependencyMap.Lists e.target e.source := (lists_iff_edge keyed).mpr member
    exact DependencyMap.releaseOrder_before (all.mem_iff.mpr lists.name_mem) lists

end Edges

/-- A job needs another one twice before that is there, and a job that never comes. -/
def danglingFirst : Graph :=
  [.node ⟨"deploy", .job, ["build", "build", "lint"], none⟩,
    .node ⟨"deploy", .workflow, ["lint"], none⟩,
    .node ⟨"build", .job, [], none⟩].foldl (fun g c => (Change.apply g c).1) empty

theorem queries_of_grown_danglingFirst :
    Grown danglingFirst ∧ danglingFirst.nodes.keys = ["deploy", "build"] ∧
    danglingFirst.edges = [⟨"build", "deploy"⟩] ∧
    danglingFirst.dependents "build" = ["deploy"] ∧
    ∃ order, danglingFirst.topologicalSort = .ok order ∧
      order.idxOf "build" < order.idxOf "deploy" := by
  have grown : Grown danglingFirst := .change _ (.change _ (.change _ .empty))
  obtain ⟨-, -, -, -, dependents, -, sorted⟩ := queries_of_grown grown
  have keys : danglingFirst.nodes.keys = ["deploy", "build"] := by decide +kernel
  have edges : danglingFirst.edges = [⟨"build", "deploy"⟩] := by decide +kernel
  have order : danglingFirst.topologicalSort = .ok ["build", "deploy"] := by decide +kernel
  have known : "build" ∈ danglingFirst.nodes.keys := by simp [keys]
  refine ⟨grown, keys, edges, ?_, _, order, ?_⟩
  · rw [(dependents "build" known).2, edges]
    rfl
  · exact (sorted _ order).2 ⟨"build", "deploy"⟩ (by simp [edges])

end WorkflowAudit.Graph
