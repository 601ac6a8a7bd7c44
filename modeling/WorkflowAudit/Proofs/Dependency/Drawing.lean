import WorkflowAudit.Proofs.Dependency.Diagram

/-!
# Diagrams in DOT and Mermaid

From the text of a diagram the edges of the graph can be read back, and the nodes that are shown,
under their ids. So the text is faithful where ids are, that is where no two names of nodes agree
up to the characters that are written as underscores.
-/

namespace WorkflowAudit.Graph

open Text

variable {g : Graph}

/-! ## DOT -/

section Dot

/-- The id and the label of a node in the language of DOT. -/
def dotNode? : List Char → Option (String × String) := readLine? "\"" ' ' " [label=\"" "\"];"

/-- The ids of the ends of an edge in the language of DOT. -/
def dotEdge? : List Char → Option (String × String) := readLine? "\"" ' ' " -> \"" "\";"

variable {opening closing : String}

theorem dotStyle_frameOpening (group : String) : dotStyle.frameOpening group =
    ["    subgraph cluster_" ++ diagramId group ++ " \x7b",
      "        label=" ++ ("\"" ++ group ++ "\"") ++ ";"] := rfl

theorem toList_dotNode (id : String) : (dotStyle.node id).toList =
    ('"' :: (diagramId id).toList ++ ['"']) ++
      ' ' :: ("[label=\"".toList ++ ((label id).toList ++ "\"];".toList)) := by
  have parts : dotStyle.node id =
      "\"" ++ diagramId id ++ "\"" ++ " [label=" ++ ("\"" ++ label id ++ "\"") ++ "];" := rfl
  simp [parts]

theorem toList_dotEdge (source target : String) : (dotStyle.edge source target).toList =
    ('"' :: (diagramId source).toList ++ ['"']) ++
      ' ' :: ("-> \"".toList ++ ((diagramId target).toList ++ "\";".toList)) := by
  have parts : dotStyle.edge source target =
      "\"" ++ diagramId source ++ "\"" ++ " -> " ++ ("\"" ++ diagramId target ++ "\"") ++ ";" := rfl
  simp [parts]

theorem singleLines_dot (keyed : Keyed g.nodes) (single : ∀ id ∈ g.nodes.keys, '\n' ∉ id.toList) :
    SingleLines g dotStyle where
  frameOpening group member line listed := by
    have inside := not_mem_group (by decide) single member
    rw [dotStyle_frameOpening, List.mem_pair] at listed
    rcases listed with rfl | rfl
    · simpa using feed_not_mem_diagramId inside
    · simpa using inside
  frameClosing := by decide
  node id member := by
    have inside := single id member
    rw [toList_dotNode]
    simpa using ⟨feed_not_mem_diagramId inside, feed_not_mem_label inside⟩
  edge e member := by
    rw [toList_dotEdge]
    simpa using feed_not_mem_drawn keyed single member
  call _ _ _ none := nomatch none
  closing line listed := by
    obtain rfl := List.mem_singleton.mp listed
    decide

/-- Behind the id of a node or of an edge a reading decides. -/
theorem readLine?_dot {id other name : String} {rest : List Char} :
    readLine? "\"" ' ' opening closing
      (g.indentation.toList ++ (('"' :: (diagramId name).toList ++ ['"']) ++ ' ' :: rest)) =
        some (id, other) ↔
      id = diagramId name ∧ between? opening closing (' ' :: rest) = some other := by
  have inside : ' ' ∉ '"' :: (diagramId name).toList ++ ['"'] := by
    simpa using not_mem_diagramId (by decide)
  have same : '"' :: (diagramId name).toList ++ ['"'] = "\"".toList ++ (id.toList ++ "\"".toList) ↔
      id = diagramId name := by
    simp [String.toList_inj, eq_comm]
  rw [readLine?_append blank_indentation (by simp) inside, between?_eq_some_iff, same]

/-- Frames say nothing of nodes and edges. -/
theorem finds_dot {node : String → Option (String × String)}
    {edge : Edge → Option (String × String)}
    (hopening : readLines (readLine? "\"" ' ' opening closing) dotStyle.opening = [])
    (hnode : ∀ id, readLine? "\"" ' ' opening closing
      (g.indentation ++ dotStyle.node id).toList = node id)
    (hedge : ∀ e : Edge, readLine? "\"" ' ' opening closing
      (g.indentation ++ dotStyle.edge e.source e.target).toList = edge e) :
    Finds g dotStyle (readLine? "\"" ' ' opening closing) node edge where
  opening := hopening
  frameOpening group line listed := by
    rw [dotStyle_frameOpening, List.mem_pair] at listed
    rcases listed with rfl | rfl <;> exact readLine?_unquoted (by simp)
  frameClosing := readLine?_unquoted (by decide)
  node id _ := hnode id
  edge e _ := hedge e
  call _ _ _ none := nomatch none
  closing line listed := by
    obtain rfl := List.mem_singleton.mp listed
    exact readLine?_unquoted (by decide)

theorem finds_dotNode :
    Finds g dotStyle dotNode? (fun id => some (diagramId id, label id)) fun _ => none := by
  refine finds_dot (by decide +kernel) (fun id => ?_) fun e => ?_
  · rw [String.toList_append, toList_dotNode, readLine?_dot]
    exact ⟨rfl, between?_eq_some_iff.mpr rfl⟩
  · rw [Option.eq_none_iff_forall_ne_some]
    rintro ⟨id, other⟩ found
    rw [String.toList_append, toList_dotEdge, readLine?_dot, between?_eq_some_iff] at found
    simp at found

theorem finds_dotEdge :
    Finds g dotStyle dotEdge? (fun _ => none) fun e => some (drawn e) := by
  refine finds_dot (by decide +kernel) (fun id => ?_) fun e => ?_
  · rw [Option.eq_none_iff_forall_ne_some]
    rintro ⟨id, other⟩ found
    rw [String.toList_append, toList_dotNode, readLine?_dot, between?_eq_some_iff] at found
    simp at found
  · rw [String.toList_append, toList_dotEdge, readLine?_dot]
    exact ⟨rfl, between?_eq_some_iff.mpr rfl⟩

section Text

variable (keyed : Keyed g.nodes) (single : ∀ id ∈ g.nodes.keys, '\n' ∉ id.toList)

include keyed single

theorem perm_dotNodes : (readLines dotNode? g.toDot).Perm
    (g.nodes.keys.map fun id => (diagramId id, label id)) := by
  have all : g.shownNodes dotStyle = g.nodes.values := List.filter_eq_self.mpr fun _ _ => rfl
  have found := finds_dotNode.perm_readLines keyed (singleLines_dot keyed single)
  rw [all] at found
  rw [← keyed.map_id_values, List.map_map]
  simpa [toDot, Function.comp_def] using found

theorem perm_dotEdges : (readLines dotEdge? g.toDot).Perm (g.edges.map drawn) := by
  have found := finds_dotEdge.perm_readLines keyed (singleLines_dot keyed single)
  simpa [toDot] using found

end Text

end Dot

/-! ## Mermaid -/

section Mermaid

/-- The id and the label of a node in a Mermaid flowchart. -/
def mermaidNode? : List Char → Option (String × String) := readBare? '[' ' ' "[" "]"

/-- The ids of the ends of an edge in a Mermaid flowchart. -/
def mermaidEdge? : List Char → Option (String × String) := readBare? ' ' '[' " --> " ""

/-- A name that can be told from its label in a flowchart. -/
structure Plain (name : String) : Prop where
  nonempty : name ≠ ""
  single : '\n' ∉ name.toList
  bracket : '[' ∉ name.toList

theorem mermaidStyle_frameOpening (group : String) : mermaidStyle.frameOpening group =
    ["    subgraph " ++ diagramId group ++ "[" ++ group ++ "]"] := rfl

theorem mermaidStyle_call (caller callee : String) : mermaidStyle.call caller callee =
    ["    " ++ diagramId caller ++ "([" ++ caller ++ "]) -.-> " ++ diagramId callee ++ "([" ++
      callee ++ "])"] := rfl

theorem toList_mermaidFrame (group : String) :
    ("    subgraph " ++ diagramId group ++ "[" ++ group ++ "]").toList =
      "    ".toList ++ ("subgraph".toList ++ ' ' :: ((diagramId group).toList ++
        '[' :: (group.toList ++ [']']))) := by
  simp

theorem toList_mermaidNode (id : String) : (mermaidStyle.node id).toList =
    (diagramId id).toList ++ '[' :: ((label id).toList ++ [']']) := by
  have parts : mermaidStyle.node id = diagramId id ++ "[" ++ label id ++ "]" := rfl
  simp [parts]

theorem toList_mermaidEdge (source target : String) : (mermaidStyle.edge source target).toList =
    (diagramId source).toList ++ ' ' :: ("--> ".toList ++ (diagramId target).toList) := by
  have parts : mermaidStyle.edge source target = diagramId source ++ " --> " ++ diagramId target :=
    rfl
  simp [parts]

theorem toList_mermaidCall (caller callee : String) :
    ("    " ++ diagramId caller ++ "([" ++ caller ++ "]) -.-> " ++ diagramId callee ++ "([" ++
      callee ++ "])").toList =
      "    ".toList ++ (((diagramId caller).toList ++ ['(']) ++ '[' :: (caller.toList ++
        ("]) -.-> ".toList ++ ((diagramId callee).toList ++ ("([".toList ++ (callee.toList ++
          "])".toList)))))) := by
  simp

theorem singleLines_mermaid (keyed : Keyed g.nodes)
    (single : ∀ id ∈ g.nodes.keys, '\n' ∉ id.toList)
    (calls : ∀ call ∈ g.calls, '\n' ∉ call.1.toList ∧ '\n' ∉ call.2.toList) :
    SingleLines g mermaidStyle where
  frameOpening group member line listed := by
    have inside := not_mem_group (by decide) single member
    obtain rfl := List.mem_singleton.mp (mermaidStyle_frameOpening group ▸ listed)
    simpa using ⟨feed_not_mem_diagramId inside, inside⟩
  frameClosing := by decide
  node id member := by
    have inside := single id member
    rw [toList_mermaidNode]
    simpa using ⟨feed_not_mem_diagramId inside, feed_not_mem_label inside⟩
  edge e member := by
    rw [toList_mermaidEdge]
    simpa using feed_not_mem_drawn keyed single member
  call call member line listed := by
    obtain ⟨caller, callee⟩ := calls call member
    obtain rfl := List.mem_singleton.mp (mermaidStyle_call call.1 call.2 ▸ listed)
    simpa using ⟨feed_not_mem_diagramId caller, caller, feed_not_mem_diagramId callee, callee⟩
  closing _ none := nomatch none

theorem start_ne_blank {w rest : List Char} (nonempty : w ≠ []) (bare : ' ' ∉ w) :
    ∀ c ∈ (w ++ rest).head?, c ≠ ' ' := by
  obtain ⟨c, cs, rfl⟩ := List.exists_cons_of_ne_nil nonempty
  simp only [List.cons_append, List.head?_cons, Option.mem_some_iff]
  rintro c rfl rfl
  exact bare List.mem_cons_self

namespace Plain

variable {name : String} (plain : Plain name)

include plain

theorem diagramId_ne_nil : (diagramId name).toList ≠ [] := by
  simpa [diagramId, Text.replaceChars] using plain.nonempty

theorem bracket_not_mem : '[' ∉ (diagramId name).toList := by
  intro member
  exact (mem_of_mem_diagramId member).elim (by decide) plain.bracket

end Plain

theorem finds_mermaidNode (keyed : Keyed g.nodes) (plain : ∀ id ∈ g.nodes.keys, Plain id) :
    Finds g mermaidStyle mermaidNode? (fun id => some (diagramId id, label id)) fun _ => none where
  opening := by decide +kernel
  frameOpening group line listed := by
    obtain rfl := List.mem_singleton.mp (mermaidStyle_frameOpening group ▸ listed)
    rw [toList_mermaidFrame]
    exact readBare?_append (by simp) (by simp) (by decide) (by decide)
  frameClosing := by decide +kernel
  node id member := by
    have bare : ' ' ∉ (diagramId id).toList := not_mem_diagramId (by decide)
    rw [String.toList_append, toList_mermaidNode]
    refine readBare?_eq_some ((readLine?_append blank_indentation
      (start_ne_blank (plain id member).diagramId_ne_nil bare)
      (plain id member).bracket_not_mem).mpr ⟨?_, ?_⟩) bare
    · rw [between?_eq_some_iff]
      simp
    · rw [between?_eq_some_iff]
      simp
  edge e member := by
    have source := plain _ (ends_mem_keys keyed member).1
    rw [String.toList_append, toList_mermaidEdge]
    exact readBare?_append blank_indentation
      (start_ne_blank source.diagramId_ne_nil (not_mem_diagramId (by decide)))
      source.bracket_not_mem (by decide)
  call caller callee line listed := by
    obtain rfl := List.mem_singleton.mp (mermaidStyle_call caller callee ▸ listed)
    -- A call ends with a bracket of another kind than the label of a node.
    have unclosed : ¬"]".toList <:+ ("    " ++ diagramId caller ++ "([" ++ caller ++ "]) -.-> " ++
        diagramId callee ++ "([" ++ callee ++ "])").toList := by
      rintro ⟨front, same⟩
      have last := congrArg List.getLast? same
      rw [String.toList_append, List.getLast?_append, List.getLast?_append] at last
      simp at last
    rw [mermaidNode?, readBare?, readLine?_unclosed unclosed, Option.filter_none]
  closing _ none := nomatch none

theorem finds_mermaidEdge (keyed : Keyed g.nodes) (plain : ∀ id ∈ g.nodes.keys, Plain id) :
    Finds g mermaidStyle mermaidEdge? (fun _ => none) fun e => some (drawn e) where
  opening := by decide +kernel
  frameOpening group line listed := by
    obtain rfl := List.mem_singleton.mp (mermaidStyle_frameOpening group ▸ listed)
    have none : readLine? "" ' ' " --> " ""
        ("    subgraph " ++ diagramId group ++ "[" ++ group ++ "]").toList = none := by
      rw [Option.eq_none_iff_forall_ne_some, toList_mermaidFrame]
      rintro ⟨id, other⟩ found
      rw [readLine?_append (by simp) (by simp) (by decide), between?_eq_some_iff,
        between?_eq_some_iff] at found
      -- An arrow begins with a dash, which the id of a group does not have.
      have dash : '-' ∉ (diagramId group).toList := not_mem_diagramId (by decide)
      cases written : (diagramId group).toList with
      | nil => simp [written] at found
      | cons c cs =>
          rw [written] at found dash
          have spelled : c = '-' ∧ cs ++ '[' :: (group.toList ++ [']']) =
              "-> ".toList ++ other.toList := by
            simpa using found.2
          exact dash (spelled.1 ▸ List.mem_cons_self)
    rw [mermaidEdge?, readBare?, none, Option.filter_none]
  frameClosing := by decide +kernel
  node id member := by
    have bare : ' ' ∉ (diagramId id).toList := not_mem_diagramId (by decide)
    rw [String.toList_append, toList_mermaidNode]
    exact readBare?_append blank_indentation
      (start_ne_blank (plain id member).diagramId_ne_nil bare) bare (by decide)
  edge e member := by
    have source := plain _ (ends_mem_keys keyed member).1
    have bare : ' ' ∉ (diagramId e.source).toList := not_mem_diagramId (by decide)
    rw [String.toList_append, toList_mermaidEdge]
    refine readBare?_eq_some ((readLine?_append blank_indentation
      (start_ne_blank source.diagramId_ne_nil bare) bare).mpr ⟨?_, ?_⟩) source.bracket_not_mem
    · rw [between?_eq_some_iff]
      simp
    · rw [between?_eq_some_iff]
      simp
  call caller callee line listed := by
    have bare : ' ' ∉ (diagramId caller).toList ++ ['('] := by
      simpa using not_mem_diagramId (by decide)
    obtain rfl := List.mem_singleton.mp (mermaidStyle_call caller callee ▸ listed)
    rw [toList_mermaidCall]
    exact readBare?_append (by simp) (start_ne_blank (by simp) bare) bare (by decide)
  closing _ none := nomatch none

section Text

variable (keyed : Keyed g.nodes) (plain : ∀ id ∈ g.nodes.keys, Plain id)
  (calls : ∀ call ∈ g.calls, '\n' ∉ call.1.toList ∧ '\n' ∉ call.2.toList)

include keyed plain calls

theorem perm_mermaidNodes : (readLines mermaidNode? g.toMermaid).Perm
    ((g.shownNodes mermaidStyle).map fun node => (diagramId node.id, label node.id)) := by
  have found := (finds_mermaidNode keyed plain).perm_readLines keyed
    (singleLines_mermaid keyed (fun id member => (plain id member).single) calls)
  simpa [toMermaid] using found

theorem perm_mermaidEdges : (readLines mermaidEdge? g.toMermaid).Perm (g.edges.map drawn) := by
  have found := (finds_mermaidEdge keyed plain).perm_readLines keyed
    (singleLines_mermaid keyed (fun id member => (plain id member).single) calls)
  simpa [toMermaid] using found

end Text

end Mermaid

/-! ## Faithful diagrams -/

theorem nodup_diagramIds_iff {names : List String} :
    (names.map diagramId).Nodup ↔ names.Pairwise fun a b => ¬LookAlike a b := by
  rw [List.Nodup, List.pairwise_map]
  simp only [ne_eq, diagramId_eq_iff]

theorem eq_of_diagramId_eq {a b : String} (distinct : (g.nodes.keys.map diagramId).Nodup)
    (ha : a ∈ g.nodes.keys) (hb : b ∈ g.nodes.keys) (same : diagramId a = diagramId b) : a = b :=
  List.inj_on_of_nodup_map distinct ha hb same

theorem nodup_drawn (keyed : Keyed g.nodes) (distinct : (g.nodes.keys.map diagramId).Nodup) :
    (g.edges.map drawn).Nodup := by
  refine (nodup_edges keyed).map_on fun e he f hf same => ?_
  have sources := eq_of_diagramId_eq distinct (ends_mem_keys keyed he).1 (ends_mem_keys keyed hf).1
    (congrArg Prod.fst same)
  have targets := eq_of_diagramId_eq distinct (ends_mem_keys keyed he).2 (ends_mem_keys keyed hf).2
    (congrArg Prod.snd same)
  obtain ⟨source, target⟩ := e
  rw [Edge.mk.injEq]
  exact ⟨sources, targets⟩

/-- Whatever the groups, a diagram has one line for each edge and for each node that it shows, and
ids can be read back from them if no name breaks a line. Two names get one id if and only if they
agree up to dashes, blanks, slashes and underscores. Where no two nodes have such names, the
diagram keeps all nodes and all edges apart. -/
theorem diagrams_of_grown (grown : Grown g) :
    (∀ style, (g.diagramLines style).Perm (g.sortedLines style)) ∧
    ((∀ id ∈ g.nodes.keys, '\n' ∉ id.toList) →
      (readLines dotNode? g.toDot).Perm (g.nodes.keys.map fun id => (diagramId id, label id)) ∧
      (readLines dotEdge? g.toDot).Perm (g.edges.map drawn)) ∧
    ((∀ id ∈ g.nodes.keys, Plain id) →
      (∀ call ∈ g.calls, '\n' ∉ call.1.toList ∧ '\n' ∉ call.2.toList) →
      (readLines mermaidNode? g.toMermaid).Perm
        ((g.shownNodes mermaidStyle).map fun node => (diagramId node.id, label node.id)) ∧
      (readLines mermaidEdge? g.toMermaid).Perm (g.edges.map drawn)) ∧
    (∀ a b, diagramId a = diagramId b ↔ LookAlike a b) ∧
    ((g.nodes.keys.map diagramId).Nodup ↔ g.nodes.keys.Pairwise fun a b => ¬LookAlike a b) ∧
    ((g.nodes.keys.map diagramId).Nodup → (g.edges.map drawn).Nodup ∧
      ∀ e ∈ g.edges, diagramId e.source = diagramId e.target → e.source = e.target) := by
  have keyed := grown.keyed
  refine ⟨perm_diagramLines, fun single => ?_, fun plain calls => ?_, fun _ _ => diagramId_eq_iff,
    nodup_diagramIds_iff, fun distinct => ⟨nodup_drawn keyed distinct, fun e member => ?_⟩⟩
  · exact ⟨perm_dotNodes keyed single, perm_dotEdges keyed single⟩
  · exact ⟨perm_mermaidNodes keyed plain calls, perm_mermaidEdges keyed plain calls⟩
  · obtain ⟨source, target⟩ := ends_mem_keys keyed member
    exact eq_of_diagramId_eq distinct source target

/-- Jobs of two groups, with a dash, a blank and slashes in their names. -/
def groupedJobs : Graph :=
  ofDependencies (.ofList [("ci/build", []), ("ci/unit tests", ["ci/build"]),
    ("deploy-all", ["lint", "ci/unit tests", "ci/build"])])

theorem diagrams_of_grown_groupedJobs :
    (readLines dotNode? groupedJobs.toDot).Perm
      [("ci_build", "build"), ("ci_unit_tests", "unit tests"), ("deploy_all", "deploy-all")] ∧
    (readLines mermaidNode? groupedJobs.toMermaid).Perm [("ci_build", "build")] ∧
    (readLines mermaidEdge? groupedJobs.toMermaid).Perm
      [("ci_build", "ci_unit_tests"), ("ci_unit_tests", "deploy_all"),
        ("ci_build", "deploy_all")] ∧
    (groupedJobs.edges.map drawn).Nodup := by
  have grown : Grown groupedJobs := .ofDependencies _
  have keys : groupedJobs.nodes.keys = ["ci/build", "ci/unit tests", "deploy-all"] := by
    decide +kernel
  have plain : ∀ id ∈ groupedJobs.nodes.keys, Plain id := by
    have all : ∀ id ∈ groupedJobs.nodes.keys, id ≠ "" ∧ '\n' ∉ id.toList ∧ '[' ∉ id.toList := by
      rw [keys]
      decide
    exact fun id member => ⟨(all id member).1, (all id member).2.1, (all id member).2.2⟩
  have distinct : (groupedJobs.nodes.keys.map diagramId).Nodup := by
    rw [keys]
    decide
  have edges : groupedJobs.edges.map drawn = [("ci_build", "ci_unit_tests"),
      ("ci_unit_tests", "deploy_all"), ("ci_build", "deploy_all")] := by decide +kernel
  obtain ⟨-, dot, mermaid, -, -, apart⟩ := diagrams_of_grown grown
  obtain ⟨dotNodes, -⟩ := dot fun id member => (plain id member).single
  obtain ⟨mermaidNodes, mermaidEdges⟩ := mermaid plain fun _ none => nomatch none
  have shown : (groupedJobs.shownNodes mermaidStyle).map (fun n => (diagramId n.id, label n.id)) =
      [("ci_build", "build")] := by decide +kernel
  rw [keys] at dotNodes
  exact ⟨dotNodes, shown ▸ mermaidNodes, edges ▸ mermaidEdges, (apart distinct).1⟩

-- Two names with one id: the edge between the jobs is drawn from a node to itself.
example : (ofDependencies (.ofList [("a-b", []), ("a_b", ["a-b"])])).toMermaid =
    "graph TD\n    a_b[a-b]\n    a_b --> a_b" := by decide +kernel

end WorkflowAudit.Graph
