import WorkflowAudit.Proofs.Dependency.Drawing

/-!
# Frames of diagrams

The frames of a diagram are read from its lines: a line opens a frame, a later one closes it, and
the lines between them mention nodes. In a diagram with several groups this gives the groups, each
under its id, and in a diagram with one group there is no frame.
-/

namespace WorkflowAudit.Graph

open Text

/-! ## Reading -/

/-- How frames are read in the lines of a diagram. -/
structure FrameReading where
  /-- The id of the frame that a line opens. -/
  opened? : List Char → Option String
  closes : List Char → Bool
  /-- The id and the label of the node that a line shows. -/
  node? : List Char → Option (String × String)
  /-- The ids of the ends of the edge that a line shows. -/
  edge? : List Char → Option (String × String)

namespace FrameReading

variable {r : FrameReading}

/-- The ids of the nodes that a line mentions. -/
def mentioned (r : FrameReading) (line : List Char) : List String :=
  (r.node? line).toList.map Prod.fst ++ (r.edge? line).toList.flatMap fun e => [e.1, e.2]

/-- The frames in some lines, the first of which may stand in a frame already. Each frame comes with
the ids that its lines mention. -/
def scan (r : FrameReading) :
    Option (String × List String) → List (List Char) → List (String × List String)
  | inside, [] => inside.toList
  | none, line :: lines => r.scan ((r.opened? line).map fun id => (id, [])) lines
  | some (id, ids), line :: lines =>
    if r.closes line then (id, ids) :: r.scan none lines
    else r.scan (some (id, ids ++ r.mentioned line)) lines

/-- The frames in a text. -/
def read (r : FrameReading) (text : String) : List (String × List String) :=
  r.scan none (text.toList.splitOn '\n')

theorem scan_append_of_closed {lines : List (List Char)}
    (closed : ∀ line ∈ lines, r.opened? line = none) (rest : List (List Char)) :
    r.scan none (lines ++ rest) = r.scan none rest := by
  induction lines with
  | nil => rfl
  | cons line lines ih =>
      rw [List.cons_append, scan, closed line List.mem_cons_self, Option.map_none]
      exact ih fun other member => closed other (List.mem_cons_of_mem line member)

theorem scan_closed {lines : List (List Char)} (closed : ∀ line ∈ lines, r.opened? line = none) :
    r.scan none lines = [] := by
  rw [← List.append_nil lines, scan_append_of_closed closed, scan, Option.toList_none]

theorem scan_inside {lines : List (List Char)} (inside : ∀ line ∈ lines, r.closes line = false)
    (frame : String × List String) (rest : List (List Char)) :
    r.scan (some frame) (lines ++ rest) =
      r.scan (some (frame.1, frame.2 ++ lines.flatMap r.mentioned)) rest := by
  induction lines generalizing frame with
  | nil => simp
  | cons line lines ih =>
      rw [List.cons_append, scan, inside line List.mem_cons_self, if_neg Bool.false_ne_true,
        ih (fun other member => inside other (List.mem_cons_of_mem line member)),
        List.flatMap_cons, List.append_assoc]

/-- A frame that is opened and closed. -/
theorem scan_frame {first last : List Char} {lines : List (List Char)} {id : String}
    (opened : r.opened? first = some id) (inside : ∀ line ∈ lines, r.closes line = false)
    (closes : r.closes last = true) (rest : List (List Char)) :
    r.scan none (first :: lines ++ last :: rest) =
      (id, lines.flatMap r.mentioned) :: r.scan none rest := by
  rw [List.cons_append, scan, opened, Option.map_some, scan_inside inside, scan, if_pos closes,
    List.nil_append]

end FrameReading

/-! ## Frames of groups -/

variable {g : Graph} {style : DiagramStyle} {r : FrameReading} {nodes : List DependencyNode}

/-- The ids that the lines of some nodes mention. -/
def mentionedIds (g : Graph) (style : DiagramStyle) (nodes : List DependencyNode) : List String :=
  (nodes.filter fun node => style.showsDependents || (g.knownDependencies node).isEmpty).map
    (diagramId ·.id) ++
  nodes.flatMap fun node => (g.knownDependencies node).flatMap fun dep =>
    [diagramId dep, diagramId node.id]

theorem mem_mentionedIds_iff {id : String} : id ∈ g.mentionedIds style nodes ↔
    ∃ node ∈ nodes, id = diagramId node.id ∨
      ∃ dep ∈ g.knownDependencies node, id = diagramId dep := by
  simp only [mentionedIds, List.mem_append, List.mem_map, List.mem_filter, List.mem_flatMap,
    List.mem_pair, Bool.or_eq_true, List.isEmpty_iff]
  constructor
  · rintro (⟨node, ⟨member, -⟩, rfl⟩ | ⟨node, member, dep, known, rfl | rfl⟩)
    · exact ⟨node, member, .inl rfl⟩
    · exact ⟨node, member, .inr ⟨dep, known, rfl⟩⟩
    · exact ⟨node, member, .inl rfl⟩
  · rintro ⟨node, member, rfl | ⟨dep, known, rfl⟩⟩
    · cases needs : g.knownDependencies node with
      | nil => exact .inl ⟨node, ⟨member, .inr needs⟩, rfl⟩
      | cons dep deps =>
          exact .inr ⟨node, member, dep, needs ▸ List.mem_cons_self, .inr rfl⟩
    · exact .inr ⟨node, member, dep, known, .inl rfl⟩

theorem mem_values_of_mem_groups {group : String × List DependencyNode}
    (member : group ∈ g.groups.entries) {node : DependencyNode} (inside : node ∈ group.2) :
    node ∈ g.nodes.values := by
  have entries : g.groups.entries = _ :=
    OrderedMap.entries_grouped (fun e : String × DependencyNode => groupOf e.1) Prod.snd _
  rw [entries] at member
  obtain ⟨_, -, rfl⟩ := List.mem_map.mp member
  obtain ⟨e, he, rfl⟩ := List.mem_map.mp inside
  exact List.mem_map_of_mem (List.mem_of_mem_filter he)

theorem mem_groupLines {line : String} (member : line ∈ g.groupLines style nodes) :
    (∃ node ∈ nodes, line = style.node node.id) ∨
      ∃ node ∈ nodes, ∃ dep ∈ g.knownDependencies node, line = style.edge dep node.id := by
  rcases List.mem_append.mp member with shown | edge
  · obtain ⟨node, inside, rfl⟩ := List.mem_map.mp shown
    exact .inl ⟨node, List.mem_of_mem_filter inside, rfl⟩
  · obtain ⟨node, inside, edge⟩ := List.mem_flatMap.mp edge
    obtain ⟨dep, known, rfl⟩ := List.mem_map.mp edge
    exact .inr ⟨node, inside, dep, known, rfl⟩

/-- The lines between the opening and the calls. -/
def bodyLines (g : Graph) (style : DiagramStyle) : List String :=
  g.groups.entries.flatMap fun (group, nodes) =>
    if g.groups.size > 1 then
      style.frameOpening group ++ (g.groupLines style nodes).map ("        " ++ ·) ++
        [style.frameClosing]
    else (g.groupLines style nodes).map ("    " ++ ·)

/-- A group in its frame. -/
def frameLines (g : Graph) (style : DiagramStyle) (group : String × List DependencyNode) :
    List String :=
  style.frameOpening group.1 ++ (g.groupLines style group.2).map (g.indentation ++ ·) ++
    [style.frameClosing]

theorem bodyLines_framed (framed : g.groups.size > 1) :
    g.bodyLines style = g.groups.entries.flatMap (g.frameLines style) :=
  List.flatMap_congr fun group _ => by simp only [frameLines, indentation, if_pos framed]

theorem bodyLines_unframed (unframed : ¬g.groups.size > 1) : g.bodyLines style =
    g.groups.entries.flatMap fun group =>
      (g.groupLines style group.2).map (g.indentation ++ ·) := by
  simp only [bodyLines, indentation, if_neg unframed]

theorem diagramLines_of_no_calls (calls : g.calls = []) :
    g.diagramLines style = style.opening :: (g.bodyLines style ++ style.closing) := by
  simp only [diagramLines, bodyLines, calls, List.flatMap_nil, List.append_nil, List.cons_append]

/-- What holds of the lines of all nodes and edges holds of the lines of each group. -/
theorem forall_groupLines (keyed : Keyed g.nodes) {holds : String → Prop}
    (node : ∀ id ∈ g.nodes.keys, holds (style.node id))
    (edge : ∀ e ∈ g.edges, holds (style.edge e.source e.target)) :
    ∀ group ∈ g.groups.entries, ∀ line ∈ g.groupLines style group.2, holds line := by
  intro group listed line member
  rcases mem_groupLines member with ⟨n, inside, rfl⟩ | ⟨n, inside, dep, known, rfl⟩
  · refine node n.id ?_
    rw [← keyed.map_id_values]
    exact List.mem_map_of_mem (mem_values_of_mem_groups listed inside)
  · refine edge ⟨dep, n.id⟩ (List.mem_flatMap.mpr ⟨n, mem_values_of_mem_groups listed inside, ?_⟩)
    exact List.mem_map_of_mem known

theorem SingleLines.body (single : SingleLines g style) (keyed : Keyed g.nodes) :
    ∀ line ∈ g.bodyLines style, '\n' ∉ line.toList := by
  have groupLines : ∀ group ∈ g.groups.entries, ∀ line ∈ g.groupLines style group.2,
      '\n' ∉ (g.indentation ++ line).toList :=
    forall_groupLines keyed (fun id known => feed_not_mem_indented (single.node id known))
      fun e known => feed_not_mem_indented (single.edge e known)
  intro line member
  by_cases framed : g.groups.size > 1
  · rw [bodyLines_framed framed] at member
    obtain ⟨group, listed, member⟩ := List.mem_flatMap.mp member
    rcases List.mem_append.mp member with member | last
    · rcases List.mem_append.mp member with title | member
      · exact single.frameOpening group.1 (List.mem_map_of_mem listed) line title
      · obtain ⟨inside, known, rfl⟩ := List.mem_map.mp member
        exact groupLines group listed inside known
    · rw [List.mem_singleton.mp last]
      exact single.frameClosing
  · rw [bodyLines_unframed framed] at member
    obtain ⟨group, listed, member⟩ := List.mem_flatMap.mp member
    obtain ⟨inside, known, rfl⟩ := List.mem_map.mp member
    exact groupLines group listed inside known

/-- How a reading meets the lines of a diagram. -/
structure FrameReading.Reads (r : FrameReading) (g : Graph) (style : DiagramStyle) : Prop where
  single : SingleLines g style
  nodes : Finds g style r.node? (fun id => some (diagramId id, label id)) fun _ => none
  edges : Finds g style r.edge? (fun _ => none) fun e => some (drawn e)
  opening : ∀ line ∈ style.opening.toList.splitOn '\n', r.opened? line = none
  title : ∀ group ∈ g.groups.keys, ∃ first more, style.frameOpening group = first :: more ∧
    r.opened? first.toList = some (diagramId group) ∧ ∀ line ∈ more, r.closes line.toList = false
  inside : g.groups.size > 1 → ∀ line, r.closes (g.indentation ++ line).toList = false
  frameClosing : r.closes style.frameClosing.toList = true
  closing : ∀ line ∈ style.closing, r.opened? line.toList = none
  /-- Without frames the lines of nodes and edges open none. -/
  node : ¬g.groups.size > 1 → ∀ id ∈ g.nodes.keys,
    r.opened? (g.indentation ++ style.node id).toList = none
  edge : ¬g.groups.size > 1 → ∀ e ∈ g.edges,
    r.opened? (g.indentation ++ style.edge e.source e.target).toList = none

namespace FrameReading.Reads

theorem lines_draw (reads : r.Reads g style) (keyed : Keyed g.nodes) (calls : g.calls = []) :
    (g.draw style).toList.splitOn '\n' = style.opening.toList.splitOn '\n' ++
      (g.bodyLines style ++ style.closing).map String.toList := by
  have split : ∀ line ∈ g.bodyLines style ++ style.closing,
      line.toList.splitOn '\n' = [line.toList] := by
    intro line member
    refine List.splitOn_eq_singleton ?_
    rcases List.mem_append.mp member with body | closing
    · exact reads.single.body keyed line body
    · exact reads.single.closing line closing
  rw [draw, diagramLines_of_no_calls calls, splitOn_intercalate (List.cons_ne_nil _ _),
    List.flatMap_cons, List.flatMap_congr split, ← List.map_eq_flatMap]

theorem mentioned_node (reads : r.Reads g style) {id : String} (known : id ∈ g.nodes.keys) :
    r.mentioned (g.indentation ++ style.node id).toList = [diagramId id] := by
  rw [mentioned, reads.nodes.node id known, reads.edges.node id known]
  rfl

theorem mentioned_edge (reads : r.Reads g style) {e : Edge} (known : e ∈ g.edges) :
    r.mentioned (g.indentation ++ style.edge e.source e.target).toList =
      [diagramId e.source, diagramId e.target] := by
  rw [mentioned, reads.nodes.edge e known, reads.edges.edge e known]
  rfl

theorem mentioned_title (reads : r.Reads g style) {group line : String}
    (title : line ∈ style.frameOpening group) : r.mentioned line.toList = [] := by
  rw [mentioned, reads.nodes.frameOpening group line title,
    reads.edges.frameOpening group line title]
  rfl

theorem mentioned_groupLines (reads : r.Reads g style) (keyed : Keyed g.nodes)
    {group : String × List DependencyNode} (listed : group ∈ g.groups.entries) :
    ((g.groupLines style group.2).map (g.indentation ++ ·)).flatMap (r.mentioned ·.toList) =
      g.mentionedIds style group.2 := by
  have values : ∀ node ∈ group.2, node ∈ g.nodes.values := fun _ => mem_values_of_mem_groups listed
  rw [groupLines, mentionedIds, List.flatMap_map, List.flatMap_append, List.flatMap_map,
    List.map_eq_flatMap, List.flatMap_assoc]
  congr 1
  · refine List.flatMap_congr fun node shown => reads.mentioned_node ?_
    rw [← keyed.map_id_values]
    exact List.mem_map_of_mem (values node (List.mem_of_mem_filter shown))
  · refine List.flatMap_congr fun node inside => ?_
    rw [List.flatMap_map]
    refine List.flatMap_congr fun dep known => reads.mentioned_edge (e := ⟨dep, node.id⟩) ?_
    exact List.mem_flatMap.mpr ⟨node, values node inside, List.mem_map_of_mem known⟩

theorem scan_frameLines (reads : r.Reads g style) (keyed : Keyed g.nodes)
    (framed : g.groups.size > 1) {group : String × List DependencyNode}
    (listed : group ∈ g.groups.entries) (rest : List (List Char)) :
    r.scan none ((g.frameLines style group).map String.toList ++ rest) =
      (diagramId group.1, g.mentionedIds style group.2) :: r.scan none rest := by
  obtain ⟨first, more, title, opened, apart⟩ := reads.title group.1 (List.mem_map_of_mem listed)
  let content := more ++ (g.groupLines style group.2).map (g.indentation ++ ·)
  have inside : ∀ line ∈ content.map String.toList, r.closes line = false := by
    intro line member
    obtain ⟨written, within, rfl⟩ := List.mem_map.mp member
    rcases List.mem_append.mp within with rest | indented
    · exact apart written rest
    · obtain ⟨plain, -, rfl⟩ := List.mem_map.mp indented
      exact reads.inside framed plain
  have mentions : (content.map String.toList).flatMap r.mentioned =
      g.mentionedIds style group.2 := by
    have none : more.flatMap (r.mentioned ·.toList) = [] :=
      List.flatMap_eq_nil_iff.mpr fun line member =>
        reads.mentioned_title (title ▸ List.mem_cons_of_mem first member)
    rw [List.flatMap_map, List.flatMap_append, none, reads.mentioned_groupLines keyed listed,
      List.nil_append]
  have lines : (g.frameLines style group).map String.toList ++ rest =
      first.toList :: content.map String.toList ++ style.frameClosing.toList :: rest := by
    simp [frameLines, title, content]
  rw [lines, scan_frame opened inside reads.frameClosing, mentions]

/-- In a diagram with several groups each of them is a frame. -/
theorem read_framed (reads : r.Reads g style) (keyed : Keyed g.nodes) (calls : g.calls = [])
    (framed : g.groups.size > 1) : r.read (g.draw style) =
      g.groups.entries.map fun group => (diagramId group.1, g.mentionedIds style group.2) := by
  have frames : ∀ groups ⊆ g.groups.entries,
      r.scan none ((groups.flatMap (g.frameLines style)).map String.toList ++
          style.closing.map String.toList) =
        groups.map fun group => (diagramId group.1, g.mentionedIds style group.2) := by
    intro groups inside
    induction groups with
    | nil =>
        refine scan_closed fun line member => ?_
        obtain ⟨closing, listed, rfl⟩ := List.mem_map.mp member
        exact reads.closing closing listed
    | cons group groups ih =>
        obtain ⟨listed, inside⟩ := List.cons_subset.mp inside
        rw [List.flatMap_cons, List.map_append, List.append_assoc,
          reads.scan_frameLines keyed framed listed, ih inside, List.map_cons]
  rw [read, reads.lines_draw keyed calls, scan_append_of_closed reads.opening,
    bodyLines_framed framed, List.map_append]
  exact frames _ (List.Subset.refl _)

/-- In a diagram with one group there is no frame. -/
theorem read_unframed (reads : r.Reads g style) (keyed : Keyed g.nodes) (calls : g.calls = [])
    (unframed : ¬g.groups.size > 1) : r.read (g.draw style) = [] := by
  have groupLines : ∀ group ∈ g.groups.entries, ∀ line ∈ g.groupLines style group.2,
      r.opened? (g.indentation ++ line).toList = none :=
    forall_groupLines keyed (reads.node unframed) (reads.edge unframed)
  rw [read, reads.lines_draw keyed calls, scan_append_of_closed reads.opening,
    bodyLines_unframed unframed]
  refine scan_closed fun line member => ?_
  obtain ⟨written, listed, rfl⟩ := List.mem_map.mp member
  rcases List.mem_append.mp listed with body | closing
  · obtain ⟨group, inside, body⟩ := List.mem_flatMap.mp body
    obtain ⟨plain, known, rfl⟩ := List.mem_map.mp body
    exact groupLines group inside plain known
  · exact reads.closing written closing

end FrameReading.Reads

/-! ## Frames in DOT -/

def dotFrames : FrameReading where
  opened? := between? "    subgraph cluster_" " \x7b"
  closes line := line = "    \x7d".toList
  node? := dotNode?
  edge? := dotEdge?

theorem reads_dotFrames (keyed : Keyed g.nodes) (single : ∀ id ∈ g.nodes.keys, '\n' ∉ id.toList) :
    dotFrames.Reads g dotStyle where
  single := singleLines_dot keyed single
  nodes := finds_dotNode
  edges := finds_dotEdge
  opening := by decide +kernel
  title group _ := by
    refine ⟨_, _, dotStyle_frameOpening group, ?_, fun line label => ?_⟩
    · rw [dotFrames, between?_eq_some_iff]
      simp
    · obtain rfl := List.mem_singleton.mp label
      simp [dotFrames]
  inside framed line := by simp [dotFrames, indentation, framed]
  frameClosing := rfl
  closing := by decide +kernel
  node unframed id _ := by
    rw [Option.eq_none_iff_forall_ne_some]
    intro title found
    rw [String.toList_append, toList_dotNode, dotFrames, between?_eq_some_iff] at found
    simp [indentation, unframed] at found
  edge unframed e _ := by
    rw [Option.eq_none_iff_forall_ne_some]
    intro title found
    rw [String.toList_append, toList_dotEdge, dotFrames, between?_eq_some_iff] at found
    simp [indentation, unframed] at found

/-! ## Frames in Mermaid -/

def mermaidFrames : FrameReading where
  opened? line := (between? "    subgraph " "]" line).map fun inside =>
    String.ofList (inside.toList.takeWhile (· ≠ '['))
  closes line := line = "    end".toList
  node? := mermaidNode?
  edge? := mermaidEdge?

theorem mermaidFrames_opened? (line : List Char) : mermaidFrames.opened? line =
    (between? "    subgraph " "]" line).map fun inside =>
      String.ofList (inside.toList.takeWhile (· ≠ '[')) := rfl

/-- What begins with a word that has an underscore opens no frame. -/
theorem ne_subgraph {word rest other : List Char} (underscore : '_' ∈ word) (bare : ' ' ∉ word) :
    word ++ rest ≠ "subgraph".toList ++ ' ' :: other := by
  intro same
  rcases List.append_eq_append_iff.mp same with ⟨more, spelled, -⟩ | ⟨more, spelled, behind⟩
  · have : '_' ∈ "subgraph".toList := spelled ▸ List.mem_append_left more underscore
    exact absurd this (by decide)
  · cases more with
    | nil =>
        rw [spelled, List.append_nil] at underscore
        exact absurd underscore (by decide)
    | cons c more =>
        obtain ⟨rfl, -⟩ := List.cons.inj behind
        exact bare (by simp [spelled])

theorem underscore_mem_diagramId {id : String} (nested : '/' ∈ id.toList) :
    '_' ∈ (diagramId id).toList := by
  rw [diagramId, Text.replaceChars, String.toList_ofList, List.mem_map]
  exact ⟨'/', nested, rfl⟩

theorem opened?_mermaidFrames_eq_none (unframed : ¬g.groups.size > 1) {id : String}
    (nested : '/' ∈ id.toList) (rest : List Char) :
    mermaidFrames.opened? (g.indentation.toList ++ ((diagramId id).toList ++ rest)) = none := by
  rw [mermaidFrames_opened?, Option.map_eq_none_iff, Option.eq_none_iff_forall_ne_some]
  intro inside found
  rw [between?_eq_some_iff] at found
  have word : (diagramId id).toList ++ rest =
      "subgraph".toList ++ ' ' :: (inside.toList ++ "]".toList) := by
    simpa [indentation, unframed] using found
  exact ne_subgraph (underscore_mem_diagramId nested) (not_mem_diagramId (by decide)) word

theorem reads_mermaidFrames (keyed : Keyed g.nodes) (calls : g.calls = [])
    (plain : ∀ id ∈ g.nodes.keys, Plain id) (nested : ∀ id ∈ g.nodes.keys, '/' ∈ id.toList) :
    mermaidFrames.Reads g mermaidStyle where
  single := singleLines_mermaid keyed (fun id member => (plain id member).single)
    (by simp [calls])
  nodes := finds_mermaidNode keyed plain
  edges := finds_mermaidEdge keyed plain
  opening := by decide +kernel
  title group member := by
    refine ⟨_, _, mermaidStyle_frameOpening group, ?_, fun _ none => nomatch none⟩
    have bracket : ∀ c ∈ (diagramId group).toList, decide (c ≠ '[') = true := by
      refine passes_of_not_mem fun inside => (mem_of_mem_diagramId inside).elim (by decide) ?_
      exact not_mem_group (by decide) (fun id listed => (plain id listed).bracket) member
    have inside : between? "    subgraph " "]"
        ("    subgraph " ++ diagramId group ++ "[" ++ group ++ "]").toList =
          some (diagramId group ++ "[" ++ group) := by
      rw [between?_eq_some_iff]
      simp
    rw [mermaidFrames_opened?, inside, Option.map_some, String.toList_append, String.toList_append,
      List.append_assoc, List.takeWhile_append_of_pos bracket]
    simp
  inside framed line := by simp [mermaidFrames, indentation, framed]
  frameClosing := rfl
  closing := by decide +kernel
  node unframed id member := by
    rw [String.toList_append, toList_mermaidNode]
    exact opened?_mermaidFrames_eq_none unframed (nested id member) _
  edge unframed e member := by
    rw [String.toList_append, toList_mermaidEdge]
    exact opened?_mermaidFrames_eq_none unframed (nested _ (ends_mem_keys keyed member).1) _

end WorkflowAudit.Graph
