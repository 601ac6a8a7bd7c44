import WorkflowAudit.Proofs.Dependency.Frames
import WorkflowAudit.Proofs.Text.Search
import WorkflowAudit.Proofs.Workflow.JobGraph

/-!
# Frames of workflows

Jobs of several workflows can be told apart in one graph, since what follows the last slash of an
id is the job and what stands before it the workflow. The frames of a diagram are made by the first
slash. So workflows whose names agree up to their first slashes share a frame, or have none, and
each workflow has a frame for itself exactly if the diagram tells all of them apart.
-/

namespace WorkflowAudit

/-! ## Names of nodes -/

namespace Workflow

variable {v w : Workflow} {a b job : String}

/-- The name under which jobs are grouped, up to its first slash. -/
def root (w : Workflow) : String := String.ofList (w.groupName.toList.takeWhile (· ≠ '/'))

theorem toList_nodeId (w : Workflow) (job : String) :
    (w.nodeId job).toList = w.groupName.toList ++ '/' :: job.toList := by
  simp [nodeId]

theorem groupName_eq (named : w.name ≠ "") : w.groupName = w.name := by
  simp [groupName, named]

theorem root_eq_name (named : w.name ≠ "") (bare : '/' ∉ w.name.toList) : w.root = w.name := by
  rw [root, groupName_eq named,
    List.takeWhile_eq_self_iff.mpr (Text.passes_of_not_mem bare), String.ofList_toList]

theorem groupOf_nodeId (w : Workflow) (job : String) : Graph.groupOf (w.nodeId job) = w.root := by
  by_cases slash : '/' ∈ w.groupName.toList
  · obtain ⟨before, after, name, first⟩ := List.eq_append_cons_of_mem slash
    have cut : (w.nodeId job).toList = before ++ '/' :: (after ++ '/' :: job.toList) := by
      rw [toList_nodeId, name, List.append_assoc, List.cons_append]
    rw [Graph.groupOf, Text.cutAt?_eq_some cut first, root, name,
      List.takeWhile_append_of_pos (Text.passes_of_not_mem first)]
    simp
  · rw [Graph.groupOf, Text.cutAt?_eq_some (toList_nodeId w job) slash, root,
      List.takeWhile_eq_self_iff.mpr (Text.passes_of_not_mem slash)]
    rfl

/-- A job has no slash in its id, so the last slash of a node's id is before the job. -/
theorem nodeId_inj (bareA : '/' ∉ a.toList) (bareB : '/' ∉ b.toList)
    (same : v.nodeId a = w.nodeId b) : v.groupName = w.groupName ∧ a = b := by
  have spelled := congrArg String.toList same
  rw [toList_nodeId, toList_nodeId] at spelled
  obtain ⟨names, jobs⟩ := Text.append_inj_of_last spelled bareA bareB
  exact ⟨String.toList_inj.mp names, String.toList_inj.mp jobs⟩

end Workflow

namespace Graph

open Text

/-! ## Several workflows -/

/-- The graph of some workflows, each with the place that it comes from. -/
def ofWorkflows (ws : List (Workflow × Option Location)) : Graph :=
  ws.foldl (fun g w => g.addWorkflow w.1 w.2) empty

/-- Workflows with names of their own and at least one job each, whose ids have no slash. -/
structure Apart (ws : List (Workflow × Option Location)) : Prop where
  named : ∀ w ∈ ws, w.1.name ≠ ""
  distinct : (ws.map (·.1.name)).Nodup
  inhabited : ∀ w ∈ ws, w.1.jobs.keys ≠ []
  bare : ∀ w ∈ ws, ∀ job ∈ w.1.jobs.keys, '/' ∉ job.toList

/-- The names of workflows up to their first slashes, each once. -/
def roots (ws : List (Workflow × Option Location)) : List String :=
  dedupFirst (ws.map (·.1.root))

/-- The workflows whose names agree with a text up to their first slashes. -/
def under (ws : List (Workflow × Option Location)) (root : String) :
    List (Workflow × Option Location) :=
  ws.filter (·.1.root = root)

/-- The nodes of the jobs of those workflows. -/
def members (ws : List (Workflow × Option Location)) (root : String) : List DependencyNode :=
  (under ws root).flatMap fun w => (jobNodes w.1 w.2).map Prod.snd

variable {ws : List (Workflow × Option Location)}

theorem grown_ofWorkflows (ws : List (Workflow × Option Location)) : Grown (ofWorkflows ws) :=
  List.foldlRecOn (motive := Grown) ws _ .empty fun _ grown w _ => .change (.workflow w.1 w.2) grown

theorem calls_ofWorkflows (ws : List (Workflow × Option Location)) : (ofWorkflows ws).calls = [] :=
  List.foldlRecOn (motive := fun g : Graph => g.calls = []) ws _ rfl fun _ none _ _ => none

theorem nodes_ofWorkflows (ws : List (Workflow × Option Location)) : (ofWorkflows ws).nodes =
    .ofList (ws.flatMap fun w => jobNodes w.1 w.2) := by
  have added : ∀ g : Graph, (ws.foldl (fun g w => g.addWorkflow w.1 w.2) g).nodes =
      (ws.flatMap fun w => jobNodes w.1 w.2).foldl (fun nodes e => nodes.insert e.1 e.2)
        g.nodes := by
    induction ws with
    | nil => exact fun _ => rfl
    | cons w ws ih =>
        intro g
        rw [List.foldl_cons, ih, nodes_addWorkflow, List.flatMap_cons, List.foldl_append]
  exact added empty

namespace Apart

theorem nodup_jobNodes (apart : Apart ws) :
    ((ws.flatMap fun w => jobNodes w.1 w.2).map Prod.fst).Nodup := by
  rw [List.map_flatMap, List.nodup_flatMap]
  refine ⟨fun w _ => Graph.nodup_jobNodes w.1 w.2, ?_⟩
  refine (List.pairwise_map.mp apart.distinct).imp_of_mem fun {v w} hv hw differ => ?_
  rw [Function.onFun_apply, map_fst_jobNodes, map_fst_jobNodes]
  intro id left right
  obtain ⟨a, ha, rfl⟩ := List.mem_map.mp left
  obtain ⟨b, hb, same⟩ := List.mem_map.mp right
  obtain ⟨names, -⟩ := Workflow.nodeId_inj (apart.bare w hw b hb) (apart.bare v hv a ha) same
  rw [Workflow.groupName_eq (apart.named v hv), Workflow.groupName_eq (apart.named w hw)] at names
  exact differ names.symm

/-- No job is lost, and none is changed. -/
theorem entries_nodes (apart : Apart ws) :
    (ofWorkflows ws).nodes.entries = ws.flatMap fun w => jobNodes w.1 w.2 := by
  rw [nodes_ofWorkflows]
  exact OrderedMap.entries_foldl_insert .empty _ apart.nodup_jobNodes

/-- The groups are the workflows by the text before the first slash of their names. -/
theorem entries_groups (apart : Apart ws) :
    (ofWorkflows ws).groups.entries = (roots ws).map fun root => (root, members ws root) := by
  have root_of_mem : ∀ w : Workflow × Option Location, ∀ e ∈ jobNodes w.1 w.2,
      groupOf e.1 = w.1.root := by
    intro w e member
    obtain ⟨entry, -, rfl⟩ := List.mem_map.mp member
    exact w.1.groupOf_nodeId entry.1
  have keys : dedupFirst ((ofWorkflows ws).nodes.entries.map fun e => groupOf e.1) = roots ws := by
    rw [apart.entries_nodes, List.map_flatMap]
    refine dedupFirst_flatMap (fun w listed none => ?_) fun w _ name member => ?_
    · exact apart.inhabited w listed (by simpa [jobNodes, OrderedMap.keys] using none)
    · obtain ⟨e, inside, rfl⟩ := List.mem_map.mp member
      exact root_of_mem w e inside
  have grouped : ∀ root, (ofWorkflows ws).nodes.entries.filter (groupOf ·.1 = root) =
      (under ws root).flatMap fun w => jobNodes w.1 w.2 := by
    intro root
    rw [apart.entries_nodes]
    exact OrderedMap.filter_flatMap_of_iff fun w _ e member => by rw [root_of_mem w e member]
  have groups : (ofWorkflows ws).groups.entries = _ :=
    OrderedMap.entries_grouped (fun e : String × DependencyNode => groupOf e.1) Prod.snd _
  simp only [groups, keys, grouped, members, List.map_flatMap]

theorem mem_keys_iff (apart : Apart ws) {id : String} : id ∈ (ofWorkflows ws).nodes.keys ↔
    ∃ w ∈ ws, ∃ job ∈ w.1.jobs.keys, id = w.1.nodeId job := by
  rw [OrderedMap.keys, apart.entries_nodes, List.map_flatMap]
  simp only [map_fst_jobNodes, List.mem_flatMap, List.mem_map, eq_comm]

/-- What a job needs is a job of a workflow in the same group, if it is a job at all. -/
theorem mem_mentionedIds_iff (apart : Apart ws) {style : DiagramStyle} {root id : String} :
    id ∈ (ofWorkflows ws).mentionedIds style (members ws root) ↔
      ∃ w ∈ under ws root, ∃ job ∈ w.1.jobs.keys, id = diagramId (w.1.nodeId job) := by
  simp only [Graph.mem_mentionedIds_iff, members, List.mem_flatMap, jobNodes, List.map_map,
    List.mem_map, Function.comp_apply]
  constructor
  · rintro ⟨_, ⟨w, grouped, entry, listed, rfl⟩, rfl | ⟨dep, known, rfl⟩⟩
    · exact ⟨w, grouped, entry.1, List.mem_map_of_mem listed, rfl⟩
    · obtain ⟨needed, key⟩ := mem_knownDependencies_iff.mp known
      obtain ⟨need, -, rfl⟩ := List.mem_map.mp needed
      obtain ⟨v, listed, job, present, same⟩ := apart.mem_keys_iff.mp key
      have root_eq : v.1.root = w.1.root := by
        rw [← v.1.groupOf_nodeId job, ← same, w.1.groupOf_nodeId need]
      have grouped : v ∈ under ws root := by
        rw [under, List.mem_filter, root_eq]
        exact ⟨listed, (List.mem_filter.mp grouped).2⟩
      exact ⟨v, grouped, job, present, congrArg diagramId same⟩
  · rintro ⟨w, grouped, job, present, rfl⟩
    obtain ⟨entry, listed, rfl⟩ := List.mem_map.mp present
    exact ⟨_, ⟨w, grouped, entry, listed, rfl⟩, .inl rfl⟩

end Apart

/-! ## Lines -/

theorem size_groups (apart : Apart ws) : (ofWorkflows ws).groups.size = (roots ws).length := by
  rw [OrderedMap.size, apart.entries_groups, List.length_map]

/-- The frames are those of the texts before the first slashes, if there are several of them. -/
theorem diagramLines_ofWorkflows (apart : Apart ws) (style : DiagramStyle) :
    (ofWorkflows ws).diagramLines style =
      style.opening :: ((roots ws).flatMap (fun root =>
        if 1 < (roots ws).length then (ofWorkflows ws).frameLines style (root, members ws root)
        else ((ofWorkflows ws).groupLines style (members ws root)).map ("    " ++ ·)) ++
      style.closing) := by
  rw [diagramLines_of_no_calls (calls_ofWorkflows ws), ← size_groups apart]
  by_cases framed : (ofWorkflows ws).groups.size > 1
  · rw [bodyLines_framed framed, apart.entries_groups, List.flatMap_map]
    simp only [if_pos framed]
  · rw [bodyLines_unframed framed, apart.entries_groups, List.flatMap_map]
    simp only [indentation, if_neg framed]

/-! ## Frames -/

/-- A character that stands in no name of a workflow or a job. -/
def Lacks (ws : List (Workflow × Option Location)) (c : Char) : Prop :=
  ∀ w ∈ ws, c ∉ w.1.name.toList ∧ ∀ job ∈ w.1.jobs.keys, c ∉ job.toList

instance (c : Char) : Decidable (Lacks ws c) :=
  inferInstanceAs <| Decidable <|
    ∀ w ∈ ws, c ∉ w.1.name.toList ∧ ∀ job ∈ w.1.jobs.keys, c ∉ job.toList

theorem Lacks.not_mem {c : Char} (lacks : Lacks ws c) (apart : Apart ws) (other : c ≠ '/') :
    ∀ id ∈ (ofWorkflows ws).nodes.keys, c ∉ id.toList := by
  intro id known
  obtain ⟨w, listed, job, present, rfl⟩ := apart.mem_keys_iff.mp known
  obtain ⟨name, jobs⟩ := lacks w listed
  rw [Workflow.toList_nodeId, Workflow.groupName_eq (apart.named w listed)]
  simp [name, jobs job present, other]

theorem reads_dot_ofWorkflows (apart : Apart ws) (single : Lacks ws '\n') :
    dotFrames.Reads (ofWorkflows ws) dotStyle :=
  reads_dotFrames (grown_ofWorkflows ws).keyed (single.not_mem apart (by decide))

theorem reads_mermaid_ofWorkflows (apart : Apart ws) (single : Lacks ws '\n')
    (bracket : Lacks ws '[') : mermaidFrames.Reads (ofWorkflows ws) mermaidStyle := by
  have nested : ∀ id ∈ (ofWorkflows ws).nodes.keys, '/' ∈ id.toList := by
    intro id known
    obtain ⟨w, -, job, -, rfl⟩ := apart.mem_keys_iff.mp known
    simp [Workflow.toList_nodeId]
  refine reads_mermaidFrames (grown_ofWorkflows ws).keyed (calls_ofWorkflows ws)
    (fun id known => ⟨?_, ?_, ?_⟩) nested
  · rintro rfl
    exact absurd (nested "" known) (by simp)
  · exact single.not_mem apart (by decide) id known
  · exact bracket.not_mem apart (by decide) id known

/-- A frame shows exactly the jobs of some workflows. -/
def Shows (ws : List (Workflow × Option Location)) (frame : String × List String) : Prop :=
  ∀ id, id ∈ frame.2 ↔ ∃ w ∈ ws, ∃ job ∈ w.1.jobs.keys, id = diagramId (w.1.nodeId job)

/-- There is one frame for each text before a first slash, and it shows exactly the jobs of the
workflows with that text. If all workflows agree there, then there is no frame. -/
structure FramedByRoot (ws : List (Workflow × Option Location))
    (frames : List (String × List String)) : Prop where
  several : 1 < (roots ws).length → List.Forall₂
    (fun root frame => frame.1 = diagramId root ∧ Shows (under ws root) frame) (roots ws) frames
  single : (roots ws).length ≤ 1 → frames = []

/-- There is one frame for each workflow, and it shows exactly the jobs of that workflow. -/
def FramesEach (ws : List (Workflow × Option Location)) (frames : List (String × List String)) :
    Prop :=
  List.Forall₂ (fun w frame => Shows [w] frame) ws frames

/-- Moreover each frame has an id of its own and shows no job of another workflow. -/
structure FramesApart (ws : List (Workflow × Option Location))
    (frames : List (String × List String)) : Prop where
  each : FramesEach ws frames
  distinct : (frames.map Prod.fst).Nodup
  disjoint : frames.Pairwise fun a b => a.2.Disjoint b.2

/-- Workflows that a diagram tells apart. Neither their names up to the first slash nor any two of
their jobs look alike. -/
@[mk_iff]
structure Discernible (v w : Workflow) : Prop where
  roots : ¬LookAlike v.root w.root
  jobs : ∀ a ∈ v.jobs.keys, ∀ b ∈ w.jobs.keys, ¬LookAlike (v.nodeId a) (w.nodeId b)

instance : DecidableRel Discernible := fun v w => decidable_of_iff' _ (discernible_iff v w)

variable {frames : List (String × List String)}

theorem framedByRoot_of_reads {style : DiagramStyle} {r : FrameReading} (apart : Apart ws)
    (reads : r.Reads (ofWorkflows ws) style) :
    FramedByRoot ws (r.read ((ofWorkflows ws).draw style)) where
  several := by
    rw [← size_groups apart]
    intro framed
    rw [reads.read_framed (grown_ofWorkflows ws).keyed (calls_ofWorkflows ws) framed,
      apart.entries_groups, List.map_map, List.forall₂_map_right_iff, List.forall₂_same]
    exact fun root _ => ⟨rfl, fun id => apart.mem_mentionedIds_iff⟩
  single := by
    rw [← size_groups apart]
    intro few
    exact reads.read_unframed (grown_ofWorkflows ws).keyed (calls_ofWorkflows ws) (by omega)

theorem FramedByRoot.map_fst (framed : FramedByRoot ws frames) (many : 1 < (roots ws).length) :
    frames.map Prod.fst = (roots ws).map diagramId := by
  rw [← List.forall₂_eq_eq_eq, List.forall₂_map_left_iff, List.forall₂_map_right_iff]
  exact (framed.several many).flip.imp fun _ _ shown => shown.1

theorem FramedByRoot.several_roots (framed : FramedByRoot ws frames) (each : FramesEach ws frames)
    (several : 2 ≤ ws.length) : 1 < (roots ws).length := by
  by_contra few
  have count := each.length_eq
  rw [framed.single (by omega), List.length_nil] at count
  omega

/-- Each workflow has a frame for itself exactly if no two names agree up to their first slashes. -/
theorem FramedByRoot.framesEach_iff (framed : FramedByRoot ws frames) (several : 2 ≤ ws.length) :
    FramesEach ws frames ↔ (ws.map (·.1.root)).Nodup := by
  constructor
  · intro each
    refine nodup_of_length_dedupFirst ?_
    change (ws.map (·.1.root)).length ≤ (roots ws).length
    rw [List.length_map, each.length_eq,
      (framed.several (framed.several_roots each several)).length_eq]
  · intro distinct
    have all : roots ws = ws.map (·.1.root) := dedupFirst_of_nodup distinct
    have shown := framed.several (by rw [all, List.length_map]; omega)
    rw [all, List.forall₂_map_left_iff] at shown
    have listed := (List.forall₂_and_left _ _).mpr ⟨fun w (member : w ∈ ws) => member, shown⟩
    refine listed.imp fun w frame ⟨member, _, shows_under⟩ id => (shows_under id).trans ?_
    have only : ∀ v, v ∈ under ws w.1.root ↔ v = w := by
      intro v
      rw [under, List.mem_filter, decide_eq_true_eq]
      constructor
      · exact fun ⟨inside, same⟩ => List.inj_on_of_nodup_map distinct inside member same
      · rintro rfl
        exact ⟨member, rfl⟩
    simp only [only, List.mem_singleton]

theorem disjoint_iff {v w : Workflow × Option Location} {a b : String × List String}
    (left : Shows [v] a) (right : Shows [w] b) : a.2.Disjoint b.2 ↔
      ∀ x ∈ v.1.jobs.keys, ∀ y ∈ w.1.jobs.keys, ¬LookAlike (v.1.nodeId x) (w.1.nodeId y) := by
  simp only [List.disjoint_left, left _, right _, List.mem_singleton, exists_eq_left,
    ← diagramId_eq_iff]
  constructor
  · exact fun apart x hx y hy same => apart ⟨x, hx, rfl⟩ ⟨y, hy, same⟩
  · rintro apart id ⟨x, hx, rfl⟩ ⟨y, hy, same⟩
    exact apart x hx y hy same

/-- Corresponding lists are related pairwise alike. -/
theorem pairwise_iff_of_forall₂ {α β : Type} {R : α → β → Prop} {P : α → α → Prop}
    {Q : β → β → Prop} (same : ∀ a b c d, R a b → R c d → (P a c ↔ Q b d)) {xs : List α}
    {ys : List β} (related : List.Forall₂ R xs ys) : xs.Pairwise P ↔ ys.Pairwise Q := by
  obtain ⟨length, get⟩ := List.forall₂_iff_get.mp related
  rw [List.pairwise_iff_getElem, List.pairwise_iff_getElem]
  constructor
  · intro pairs i j hi hj less
    exact (same _ _ _ _ (get i (length ▸ hi) hi) (get j (length ▸ hj) hj)).mp (pairs i j _ _ less)
  · intro pairs i j hi hj less
    exact (same _ _ _ _ (get i hi (length ▸ hi)) (get j hj (length ▸ hj))).mpr (pairs i j _ _ less)

theorem FramesEach.pairwise_disjoint_iff (each : FramesEach ws frames) :
    (frames.Pairwise fun a b => a.2.Disjoint b.2) ↔ ws.Pairwise fun v w =>
      ∀ x ∈ v.1.jobs.keys, ∀ y ∈ w.1.jobs.keys, ¬LookAlike (v.1.nodeId x) (w.1.nodeId y) := by
  refine (pairwise_iff_of_forall₂ (fun v a w b left right => ?_) each).symm
  exact (disjoint_iff left right).symm

theorem pairwise_discernible_iff : (ws.map Prod.fst).Pairwise Discernible ↔
    ((ws.map (·.1.root)).map diagramId).Nodup ∧ ws.Pairwise fun v w =>
      ∀ a ∈ v.1.jobs.keys, ∀ b ∈ w.1.jobs.keys, ¬LookAlike (v.1.nodeId a) (w.1.nodeId b) := by
  rw [nodup_diagramIds_iff, List.pairwise_map, List.pairwise_map, ← List.pairwise_and_iff]
  exact List.Pairwise.iff fun _ _ => discernible_iff _ _

/-- The frames are apart exactly if a diagram tells all workflows apart. -/
theorem FramedByRoot.framesApart_iff (framed : FramedByRoot ws frames) (several : 2 ≤ ws.length) :
    FramesApart ws frames ↔ (ws.map Prod.fst).Pairwise Discernible := by
  have ids : FramesEach ws frames → (ws.map (·.1.root)).Nodup →
      frames.map Prod.fst = (ws.map (·.1.root)).map diagramId := by
    intro each distinct
    rw [framed.map_fst (framed.several_roots each several), roots, dedupFirst_of_nodup distinct]
  rw [pairwise_discernible_iff]
  constructor
  · intro ⟨each, distinct, disjoint⟩
    rw [← ids each ((framed.framesEach_iff several).mp each)]
    exact ⟨distinct, each.pairwise_disjoint_iff.mp disjoint⟩
  · rintro ⟨distinct, apart⟩
    have nodup : (ws.map (·.1.root)).Nodup := distinct.of_map diagramId
    have each := (framed.framesEach_iff several).mpr nodup
    exact ⟨each, by rwa [ids each nodup], each.pairwise_disjoint_iff.mpr apart⟩

/-- No job of several workflows is lost. A diagram of them has a frame for each text before the
first slash of a name, if there are several such texts, in its lines and as it is read again. So
each workflow has a frame for itself exactly if no two names agree up to their first slashes, and
the frames are apart exactly if the diagram tells all workflows apart. -/
theorem frames_of_workflows (apart : Apart ws) :
    (ofWorkflows ws).nodes.entries = ws.flatMap (fun w => jobNodes w.1 w.2) ∧
    (∀ w ∈ ws, '/' ∉ w.1.name.toList → w.1.root = w.1.name) ∧
    (∀ style, (ofWorkflows ws).diagramLines style =
      style.opening :: ((roots ws).flatMap (fun root =>
        if 1 < (roots ws).length then (ofWorkflows ws).frameLines style (root, members ws root)
        else ((ofWorkflows ws).groupLines style (members ws root)).map ("    " ++ ·)) ++
      style.closing)) ∧
    (Lacks ws '\n' →
      FramedByRoot ws (dotFrames.read (ofWorkflows ws).toDot) ∧
      (2 ≤ ws.length →
        (FramesEach ws (dotFrames.read (ofWorkflows ws).toDot) ↔ (ws.map (·.1.root)).Nodup) ∧
        (FramesApart ws (dotFrames.read (ofWorkflows ws).toDot) ↔
          (ws.map Prod.fst).Pairwise Discernible))) ∧
    (Lacks ws '\n' → Lacks ws '[' →
      FramedByRoot ws (mermaidFrames.read (ofWorkflows ws).toMermaid) ∧
      (2 ≤ ws.length →
        (FramesEach ws (mermaidFrames.read (ofWorkflows ws).toMermaid) ↔
          (ws.map (·.1.root)).Nodup) ∧
        (FramesApart ws (mermaidFrames.read (ofWorkflows ws).toMermaid) ↔
          (ws.map Prod.fst).Pairwise Discernible))) := by
  refine ⟨apart.entries_nodes, fun w listed => Workflow.root_eq_name (apart.named w listed),
    diagramLines_ofWorkflows apart, fun single => ?_, fun single bracket => ?_⟩
  · have framed := framedByRoot_of_reads apart (reads_dot_ofWorkflows apart single)
    exact ⟨framed, fun several => ⟨framed.framesEach_iff several, framed.framesApart_iff several⟩⟩
  · have framed := framedByRoot_of_reads apart (reads_mermaid_ofWorkflows apart single bracket)
    exact ⟨framed, fun several => ⟨framed.framesEach_iff several, framed.framesApart_iff several⟩⟩

/-- Two workflows that share the text before the slash, and a third one. -/
def slashedWorkflows : List (Workflow × Option Location) :=
  [({ name := "CI/CD", jobs := .ofList [("build", {}), ("test", { needs := ["build"] })] }, none),
    ({ name := "CI/Nightly", jobs := .ofList [("scan", {})] }, none),
    ({ name := "Release", jobs := .ofList [("publish", {})] }, none)]

theorem apart_slashedWorkflows : Apart slashedWorkflows where
  named := by decide
  distinct := by decide
  inhabited := by decide
  bare := by decide

theorem apart_slashedWorkflows_tail : Apart slashedWorkflows.tail where
  named := by decide
  distinct := by decide
  inhabited := by decide
  bare := by decide

/-- Three workflows do not have a frame each, and the last two of them do. -/
theorem frames_of_workflows_slashedWorkflows :
    (¬FramesEach slashedWorkflows (dotFrames.read (ofWorkflows slashedWorkflows).toDot) ∧
      ¬FramesEach slashedWorkflows (mermaidFrames.read (ofWorkflows slashedWorkflows).toMermaid)) ∧
    FramesApart slashedWorkflows.tail
        (dotFrames.read (ofWorkflows slashedWorkflows.tail).toDot) ∧
      FramesApart slashedWorkflows.tail
        (mermaidFrames.read (ofWorkflows slashedWorkflows.tail).toMermaid) := by
  obtain ⟨-, -, -, dot, mermaid⟩ := frames_of_workflows apart_slashedWorkflows
  obtain ⟨-, -, -, dotTail, mermaidTail⟩ := frames_of_workflows apart_slashedWorkflows_tail
  obtain ⟨-, dot⟩ := dot (by decide)
  obtain ⟨-, mermaid⟩ := mermaid (by decide) (by decide)
  obtain ⟨-, dotTail⟩ := dotTail (by decide)
  obtain ⟨-, mermaidTail⟩ := mermaidTail (by decide) (by decide)
  have alike : ¬(slashedWorkflows.map (·.1.root)).Nodup := by decide +kernel
  have discernible : (slashedWorkflows.tail.map Prod.fst).Pairwise Discernible := by decide +kernel
  exact ⟨⟨alike ∘ (dot (by decide)).1.mp, alike ∘ (mermaid (by decide)).1.mp⟩,
    (dotTail (by decide)).2.mpr discernible, (mermaidTail (by decide)).2.mpr discernible⟩

-- Two workflows with one text before the slashes, and no frame.
example : ((empty.addWorkflow { name := "CI/CD", jobs := .ofList [("build", {})] } none).addWorkflow
      { name := "CI/Nightly", jobs := .ofList [("scan", {})] } none).toMermaid =
    "graph TD\n    CI_CD_build[build]\n    CI_Nightly_scan[scan]" := by decide +kernel

end Graph

end WorkflowAudit
