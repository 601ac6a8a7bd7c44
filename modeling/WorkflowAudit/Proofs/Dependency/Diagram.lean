import Mathlib.Data.List.Flatten
import Mathlib.Data.List.Forall2
import WorkflowAudit.Dependency.Diagram
import WorkflowAudit.Proofs.Data.OrderedMap
import WorkflowAudit.Proofs.Dependency.Graph
import WorkflowAudit.Proofs.Text.Line

/-!
# What diagrams show

A diagram has one line for each edge and for each node that is shown, whatever the groups are.
The ids in it are names with dashes, blanks and slashes changed into underscores. Names that
agree up to these characters get one id, and in the diagram such nodes are one node.
-/

namespace WorkflowAudit.Graph

open Text

variable {g : Graph}

/-! ## Lines -/

/-- What stands before the lines of nodes and edges. -/
def indentation (g : Graph) : String := if g.groups.size > 1 then "        " else "    "

/-- The frames around the groups, without what is in them. -/
def frames (g : Graph) (style : DiagramStyle) : List String :=
  if g.groups.size > 1 then
    g.groups.keys.flatMap fun group => style.frameOpening group ++ [style.frameClosing]
  else []

/-- The nodes that get a line of their own. -/
def shownNodes (g : Graph) (style : DiagramStyle) : List DependencyNode :=
  g.nodes.values.filter fun node => style.showsDependents || (g.knownDependencies node).isEmpty

/-- All lines of a diagram, those of the nodes together and those of the edges together. -/
def sortedLines (g : Graph) (style : DiagramStyle) : List String :=
  style.opening :: g.frames style ++
    (g.shownNodes style).map (fun node => g.indentation ++ style.node node.id) ++
    g.edges.map (fun e => g.indentation ++ style.edge e.source e.target) ++
    g.calls.flatMap (fun (caller, callee) => style.call caller callee) ++ style.closing

/-- The lines of a node and of the edges to it. -/
def ownLines (g : Graph) (style : DiagramStyle) (node : DependencyNode) : List String :=
  (if style.showsDependents || (g.knownDependencies node).isEmpty then [style.node node.id]
    else []) ++
  (g.knownDependencies node).map fun dep => style.edge dep node.id

theorem perm_groupLines (style : DiagramStyle) (nodes : List DependencyNode) :
    (g.groupLines style nodes).Perm (nodes.flatMap (g.ownLines style)) := by
  refine List.Perm.trans (.of_eq ?_) (List.flatMap_append_perm nodes _ _)
  rw [groupLines]
  congr 1
  induction nodes with
  | nil => rfl
  | cons node nodes ih =>
      rw [List.flatMap_cons, ← ih, List.filter_cons]
      split <;> rfl

theorem perm_groups (style : DiagramStyle) :
    (g.groups.entries.flatMap fun e => (g.groupLines style e.2).map (g.indentation ++ ·)).Perm
      ((g.shownNodes style).map (fun node => g.indentation ++ style.node node.id) ++
        g.edges.map (fun e => g.indentation ++ style.edge e.source e.target)) := by
  have lines : (g.groups.entries.flatMap fun e => g.groupLines style e.2).Perm
      (g.groupLines style g.nodes.values) := by
    refine (List.Perm.flatMap_left _ fun e _ => perm_groupLines style e.2).trans ?_
    refine List.Perm.trans ?_ (perm_groupLines style g.nodes.values).symm
    have all := OrderedMap.perm_flatMap_grouped (fun e : String × DependencyNode => groupOf e.1)
      Prod.snd (g.ownLines style) g.nodes.entries
    exact all.trans (.of_eq (List.flatMap_map _ _ _).symm)
  have indented := lines.map (g.indentation ++ ·)
  rw [List.map_flatMap] at indented
  refine indented.trans (.of_eq ?_)
  simp only [groupLines, edges, List.map_append, List.map_map, List.map_flatMap, shownNodes]
  rfl

/-- The lines of a diagram are those of its nodes, its edges, its frames and its calls. -/
theorem perm_diagramLines (style : DiagramStyle) :
    (g.diagramLines style).Perm (g.sortedLines style) := by
  have body : (g.groups.entries.flatMap fun e =>
      if g.groups.size > 1 then
        style.frameOpening e.1 ++ (g.groupLines style e.2).map ("        " ++ ·) ++
          [style.frameClosing]
      else (g.groupLines style e.2).map ("    " ++ ·)).Perm
      (g.frames style ++
        (g.groups.entries.flatMap fun e => (g.groupLines style e.2).map (g.indentation ++ ·))) := by
    by_cases framed : g.groups.size > 1
    · simp only [framed, if_true, frames, indentation, OrderedMap.keys, List.flatMap_map]
      refine List.Perm.trans (List.Perm.flatMap_left _ fun e _ => ?_)
        (List.flatMap_append_perm _ _ _).symm
      rw [List.append_assoc, List.append_assoc]
      exact List.perm_append_comm.append_left _
    · simp only [framed, if_false, frames, indentation, List.nil_append]
      exact .refl _
  have all := body.trans ((perm_groups style).append_left _)
  rw [← List.append_assoc] at all
  exact ((all.cons style.opening).append_right _).append_right _

/-! ## Names in diagrams -/

/-- The ids of the ends of an edge. -/
def drawn (e : Edge) : String × String := (diagramId e.source, diagramId e.target)

/-- The characters that are written as underscores. -/
def underscored : List Char := ['-', ' ', '/', '_']

/-- Whether names agree up to the characters that are written as underscores. -/
def LookAlike (a b : String) : Prop :=
  List.Forall₂ (fun c d => c = d ∨ c ∈ underscored ∧ d ∈ underscored) a.toList b.toList

theorem diagramId_eq_iff {a b : String} : diagramId a = diagramId b ↔ LookAlike a b := by
  rw [diagramId, diagramId, Text.replaceChars, Text.replaceChars, String.ofList_inj,
    ← List.forall₂_eq_eq_eq, List.forall₂_map_left_iff, List.forall₂_map_right_iff, LookAlike]
  refine iff_of_eq (congrFun₂ (congrArg List.Forall₂ ?_) _ _)
  funext c d
  simp only [underscored, List.contains_iff_mem, List.mem_cons, List.not_mem_nil, or_false,
    eq_iff_iff]
  grind

instance : DecidableRel LookAlike := fun _ _ => decidable_of_iff _ diagramId_eq_iff

theorem mem_of_mem_diagramId {name : String} {c : Char} (member : c ∈ (diagramId name).toList) :
    c = '_' ∨ c ∈ name.toList := by
  rw [diagramId, Text.replaceChars, String.toList_ofList] at member
  obtain ⟨d, hd, rfl⟩ := List.mem_map.mp member
  split
  · exact .inl rfl
  · exact .inr hd

theorem not_mem_diagramId {name : String} {c : Char} (replaced : c ∈ ['-', ' ', '/']) :
    c ∉ (diagramId name).toList := by
  intro member
  rw [diagramId, Text.replaceChars, String.toList_ofList] at member
  obtain ⟨d, -, rfl⟩ := List.mem_map.mp member
  split at replaced
  · exact absurd replaced (by decide)
  · rename_i kept
    exact kept (List.contains_iff_mem.mpr replaced)

theorem mem_of_mem_label {id : String} {c : Char} (member : c ∈ (label id).toList) :
    c ∈ id.toList := by
  rw [label, Text.afterLast, String.toList_ofList, List.mem_reverse] at member
  exact List.mem_reverse.mp ((List.takeWhile_sublist _).subset member)

theorem mem_of_mem_groupOf {id : String} {c : Char} (member : c ∈ (groupOf id).toList) :
    c ∈ id.toList ∨ c ∈ ungrouped.toList := by
  unfold groupOf Text.cutAt? at member
  split at member
  · exact .inr member
  · rw [Option.map_some, Option.getD_some, String.toList_ofList] at member
    exact .inl ((List.takeWhile_sublist _).subset member)

theorem exists_of_mem_groups {group : String} (member : group ∈ g.groups.keys) :
    ∃ id ∈ g.nodes.keys, groupOf id = group := by
  have keys : g.groups.keys = dedupFirst (g.nodes.entries.map fun e => groupOf e.1) :=
    OrderedMap.keys_grouped (fun e : String × DependencyNode => groupOf e.1) Prod.snd _
  rw [keys, mem_dedupFirst] at member
  obtain ⟨e, he, rfl⟩ := List.mem_map.mp member
  exact ⟨e.1, List.mem_map_of_mem he, rfl⟩

theorem ends_mem_keys (keyed : Keyed g.nodes) {e : Edge} (member : e ∈ g.edges) :
    e.source ∈ g.nodes.keys ∧ e.target ∈ g.nodes.keys := by
  obtain ⟨node, listed, target, -, source⟩ := mem_edges_iff.mp member
  refine ⟨source, ?_⟩
  rw [target, ← keyed.map_id_values]
  exact List.mem_map_of_mem listed

theorem not_mem_group {c : Char} {group : String} (other : c ∉ ungrouped.toList)
    (absent : ∀ id ∈ g.nodes.keys, c ∉ id.toList) (member : group ∈ g.groups.keys) :
    c ∉ group.toList := by
  obtain ⟨id, listed, rfl⟩ := exists_of_mem_groups member
  intro member
  exact (mem_of_mem_groupOf member).elim (absent id listed) other

/-! ### Names on one line -/

theorem feed_not_mem_diagramId {name : String} (single : '\n' ∉ name.toList) :
    '\n' ∉ (diagramId name).toList := by
  intro member
  exact (mem_of_mem_diagramId member).elim (by decide) single

theorem feed_not_mem_label {id : String} (single : '\n' ∉ id.toList) : '\n' ∉ (label id).toList :=
  fun member => single (mem_of_mem_label member)

theorem feed_not_mem_drawn (keyed : Keyed g.nodes) (single : ∀ id ∈ g.nodes.keys, '\n' ∉ id.toList)
    {e : Edge} (member : e ∈ g.edges) :
    '\n' ∉ (diagramId e.source).toList ∧ '\n' ∉ (diagramId e.target).toList := by
  obtain ⟨source, target⟩ := ends_mem_keys keyed member
  exact ⟨feed_not_mem_diagramId (single _ source), feed_not_mem_diagramId (single _ target)⟩

/-! ## Diagrams read back -/

theorem blank_indentation : ∀ c ∈ g.indentation.toList, c = ' ' := by
  unfold indentation
  split <;> simp

/-- Whether no line of a diagram behind the opening is broken by a line feed in a name. -/
structure SingleLines (g : Graph) (style : DiagramStyle) : Prop where
  frameOpening : ∀ group ∈ g.groups.keys, ∀ line ∈ style.frameOpening group, '\n' ∉ line.toList
  frameClosing : '\n' ∉ style.frameClosing.toList
  node : ∀ id ∈ g.nodes.keys, '\n' ∉ (style.node id).toList
  edge : ∀ e ∈ g.edges, '\n' ∉ (style.edge e.source e.target).toList
  call : ∀ call ∈ g.calls, ∀ line ∈ style.call call.1 call.2, '\n' ∉ line.toList
  closing : ∀ line ∈ style.closing, '\n' ∉ line.toList

/-- What a reading finds in the lines of a diagram. -/
structure Finds {β : Type u} (g : Graph) (style : DiagramStyle) (read? : List Char → Option β)
    (node : String → Option β) (edge : Edge → Option β) : Prop where
  opening : readLines read? style.opening = []
  frameOpening : ∀ group, ∀ line ∈ style.frameOpening group, read? line.toList = none
  frameClosing : read? style.frameClosing.toList = none
  node : ∀ id ∈ g.nodes.keys, read? (g.indentation ++ style.node id).toList = node id
  edge : ∀ e ∈ g.edges,
    read? (g.indentation ++ style.edge e.source e.target).toList = edge e
  call : ∀ caller callee, ∀ line ∈ style.call caller callee, read? line.toList = none
  closing : ∀ line ∈ style.closing, read? line.toList = none

section Finds

variable {β : Type u} {read? : List Char → Option β} {style : DiagramStyle}
  {node : String → Option β} {edge : Edge → Option β}

theorem feed_not_mem_indented {line : String} (single : '\n' ∉ line.toList) :
    '\n' ∉ (g.indentation ++ line).toList := by
  have blank : '\n' ∉ g.indentation.toList := fun member =>
    absurd (blank_indentation _ member) (by decide)
  simp [blank, single]

theorem readLines_eq_nil {line : String} (single : '\n' ∉ line.toList)
    (none : read? line.toList = none) : readLines read? line = [] := by
  rw [readLines_of_line single, none, Option.toList_none]

/-- In the text of a diagram a reading finds what it finds in the nodes and the edges. -/
theorem Finds.perm_readLines (finds : Finds g style read? node edge) (keyed : Keyed g.nodes)
    (single : SingleLines g style) : (readLines read? (g.draw style)).Perm
      ((g.shownNodes style).filterMap (node ·.id) ++ g.edges.filterMap edge) := by
  have some : g.diagramLines style ≠ [] := by simp [diagramLines]
  rw [draw, readLines_intercalate some]
  refine ((perm_diagramLines style).flatMap_right _).trans (.of_eq ?_)
  have frames : (g.frames style).flatMap (readLines read?) = [] := by
    refine List.flatMap_eq_nil_iff.mpr fun line member => ?_
    unfold frames at member
    split at member
    · obtain ⟨group, listed, member⟩ := List.mem_flatMap.mp member
      rcases List.mem_append.mp member with member | member
      · exact readLines_eq_nil (single.frameOpening group listed line member)
          (finds.frameOpening group line member)
      · obtain rfl := List.mem_singleton.mp member
        exact readLines_eq_nil single.frameClosing finds.frameClosing
    · cases member
  have calls : (g.calls.flatMap fun (caller, callee) => style.call caller callee).flatMap
      (readLines read?) = [] := by
    refine List.flatMap_eq_nil_iff.mpr fun line member => ?_
    obtain ⟨call, listed, member⟩ := List.mem_flatMap.mp member
    exact readLines_eq_nil (single.call call listed line member) (finds.call _ _ line member)
  have closing : style.closing.flatMap (readLines read?) = [] :=
    List.flatMap_eq_nil_iff.mpr fun line member =>
      readLines_eq_nil (single.closing line member) (finds.closing line member)
  have nodes : ((g.shownNodes style).map fun node => g.indentation ++ style.node node.id).flatMap
      (readLines read?) = (g.shownNodes style).filterMap (node ·.id) := by
    rw [List.flatMap_map, List.filterMap_eq_flatMap_toList]
    refine List.flatMap_congr fun node member => ?_
    have known : node.id ∈ g.nodes.keys := by
      rw [← keyed.map_id_values]
      exact List.mem_map_of_mem (List.mem_of_mem_filter member)
    rw [readLines_of_line (feed_not_mem_indented (single.node _ known)), finds.node _ known]
  have edges : (g.edges.map fun e => g.indentation ++ style.edge e.source e.target).flatMap
      (readLines read?) = g.edges.filterMap edge := by
    rw [List.flatMap_map, List.filterMap_eq_flatMap_toList]
    refine List.flatMap_congr fun e member => ?_
    rw [readLines_of_line (feed_not_mem_indented (single.edge e member)), finds.edge e member]
  simp only [sortedLines, List.flatMap_append, List.flatMap_cons, finds.opening, frames, calls,
    closing, nodes, edges, List.nil_append, List.append_nil]

end Finds

end WorkflowAudit.Graph
