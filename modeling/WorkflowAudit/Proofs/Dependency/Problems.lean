import WorkflowAudit.Dependency.Check
import WorkflowAudit.Proofs.Dependency.Cycles

/-! # The problems of a dependency map

Each dangling need and each need of oneself is reported once, in the order of the map. Cycles are
reported without those through a single name. This hides no longer cycle: a walk that is left out
accounts only for the step from its name to itself, and the last steps of all reported walks
together meet every cycle.
-/

namespace WorkflowAudit.DependencyMap

variable {m : DependencyMap}

/-- `name` lists `need`, both are keys of the map, and they are different. -/
def ListsOther (m : DependencyMap) (name need : String) : Prop := m.Lists name need ∧ name ≠ need

/-- Every need is a key. -/
def IsClosed (m : DependencyMap) : Prop :=
  ∀ node needs, (node, needs) ∈ m.entries → ∀ need ∈ needs, need ∈ m.keys

/-- No name is among its own needs. -/
def IsFreeOfSelfNeeds (m : DependencyMap) : Prop :=
  ∀ node needs, (node, needs) ∈ m.entries → node ∉ needs

/-- The order in which problems of one kind are reported: by the place of the node in the map, and
at one node by the first mention of the need. -/
def ReportedBefore (m : DependencyMap) : CompositionError → CompositionError → Prop
  | .missingDependency node need, .missingDependency other later =>
    m.keys.idxOf node < m.keys.idxOf other ∨
      node = other ∧ (m.needs node).idxOf need < (m.needs node).idxOf later
  | .selfDependency node, .selfDependency other => m.keys.idxOf node < m.keys.idxOf other
  | _, _ => False

theorem needs_of_entry {node : String} {needs : List String}
    (entry : (node, needs) ∈ m.entries) : m.needs node = needs := by
  simp only [DependencyMap.needs, OrderedMap.get?_eq_some_iff.mpr entry, Option.getD_some]

/-! ## Dangling needs and needs of oneself -/

theorem mem_danglingNeeds_iff {e : CompositionError} :
    e ∈ m.danglingNeeds ↔ ∃ node needs need, e = .missingDependency node need ∧
      (node, needs) ∈ m.entries ∧ need ∈ needs ∧ need ∉ m.keys := by
  simp only [danglingNeeds, List.mem_flatMap, Prod.exists, List.mem_map, List.mem_filter,
    mem_dedupFirst, Bool.not_eq_true', Bool.eq_false_iff, ne_eq, OrderedMap.contains_iff]
  constructor
  · rintro ⟨node, needs, entry, need, ⟨listed, dangling⟩, rfl⟩
    exact ⟨node, needs, need, rfl, entry, listed, dangling⟩
  · rintro ⟨node, needs, need, rfl, entry, listed, dangling⟩
    exact ⟨node, needs, entry, need, ⟨listed, dangling⟩, rfl⟩

theorem pairwise_danglingNeeds (m : DependencyMap) :
    m.danglingNeeds.Pairwise m.ReportedBefore := by
  refine List.pairwise_flatMap.mpr ⟨?_, ?_⟩
  · rintro ⟨node, needs⟩ entry
    have order := (pairwise_idxOf_dedupFirst needs).filter fun need => !m.contains need
    refine List.pairwise_map.mpr (order.imp fun less => .inr ⟨rfl, ?_⟩)
    rwa [needs_of_entry entry]
  · refine m.pairwise_idxOf_entries.imp fun less => ?_
    intro first here second there
    obtain ⟨_, _, rfl⟩ := List.mem_map.mp here
    obtain ⟨_, _, rfl⟩ := List.mem_map.mp there
    exact .inl less

theorem mem_selfNeeds_iff {e : CompositionError} :
    e ∈ m.selfNeeds ↔ ∃ node needs, e = .selfDependency node ∧
      (node, needs) ∈ m.entries ∧ node ∈ needs := by
  simp only [selfNeeds, List.mem_map, List.mem_filter, Prod.exists, List.contains_iff_mem]
  constructor
  · rintro ⟨node, needs, ⟨entry, itself⟩, rfl⟩
    exact ⟨node, needs, rfl, entry, itself⟩
  · rintro ⟨node, needs, rfl, entry, itself⟩
    exact ⟨node, needs, ⟨entry, itself⟩, rfl⟩

theorem pairwise_selfNeeds (m : DependencyMap) : m.selfNeeds.Pairwise m.ReportedBefore :=
  List.pairwise_map.mpr (m.pairwise_idxOf_entries.filter _)

/-! ## Longer cycles -/

/-- A simple cycle of more than one step goes through two names. -/
theorem IsSimpleCycle.exists_ne {r : String → String → Prop} {walk : List String}
    (cycle : IsSimpleCycle r walk) (long : 2 < walk.length) :
    ∃ a ∈ walk, ∃ b ∈ walk, a ≠ b := by
  match walk, cycle, long with
  | a :: b :: c :: rest, cycle, _ =>
      have distinct := cycle.distinct
      simp only [List.dropLast_cons_cons, List.nodup_cons, List.mem_cons, not_or] at distinct
      exact ⟨a, by simp, b, by simp, distinct.1.1⟩

/-- A walk of two names is a step from a name to itself. -/
theorem closes_of_short {walk : List String} (cycle : IsSimpleCycle m.Lists walk)
    (short : ¬ 2 < walk.length) {name need : String} (last : [name, need] <:+ walk) :
    name = need := by
  have whole : [name, need] = walk :=
    last.eq_of_length (by have := cycle.long; simp only [List.length_cons, List.length_nil]; omega)
  simpa [← whole] using cycle.closed

/-- When no walk through two names is reported, the reported walks close only steps from a name to
itself, and without these there is no cycle. -/
theorem longCycles_ne_nil_of_cyclic (cyclic : ¬ Acyclic m.ListsOther) : m.longCycles ≠ [] := by
  intro none
  refine cyclic ((acyclic_kept_cycles m).mono ?_)
  rintro name need ⟨edge, other⟩
  refine ⟨edge, ?_⟩
  rintro ⟨walk, reported, last⟩
  have short : ¬ 2 < walk.length := by
    have := List.filter_eq_nil_iff.mp (List.map_eq_nil_iff.mp none) walk reported
    simpa using this
  exact other (closes_of_short (isSimpleCycle_of_mem_cycles reported) short last)

theorem mem_longCycles {e : CompositionError} (reported : e ∈ m.longCycles) :
    ∃ walk, e = .circular walk ∧ IsSimpleCycle m.Lists walk ∧ ∃ a ∈ walk, ∃ b ∈ walk, a ≠ b := by
  obtain ⟨walk, member, rfl⟩ := List.mem_map.mp reported
  obtain ⟨member, long⟩ := List.mem_filter.mp member
  have cycle := isSimpleCycle_of_mem_cycles member
  exact ⟨walk, rfl, cycle, IsSimpleCycle.exists_ne cycle (by simpa using long)⟩

/-! ## All problems -/

theorem danglingNeeds_eq_nil_iff : m.danglingNeeds = [] ↔ m.IsClosed := by
  simp only [List.eq_nil_iff_forall_not_mem, mem_danglingNeeds_iff, IsClosed]
  constructor
  · intro none node needs entry need listed
    by_contra dangling
    exact none _ ⟨node, needs, need, rfl, entry, listed, dangling⟩
  · rintro closed _ ⟨node, needs, need, rfl, entry, listed, dangling⟩
    exact dangling (closed node needs entry need listed)

theorem selfNeeds_eq_nil_iff : m.selfNeeds = [] ↔ m.IsFreeOfSelfNeeds := by
  simp only [List.eq_nil_iff_forall_not_mem, mem_selfNeeds_iff, IsFreeOfSelfNeeds]
  constructor
  · intro none node needs entry itself
    exact none _ ⟨node, needs, rfl, entry, itself⟩
  · rintro free _ ⟨node, needs, rfl, entry, itself⟩
    exact free node needs entry itself

theorem validate_eq_ok_iff_problems : m.validate = .ok () ↔ m.problems = [] := by
  simp only [validate]
  cases m.problems <;> simp

/-- A map passes exactly when it is closed, no name needs itself and no cycle is left. -/
theorem validate_eq_ok_iff :
    m.validate = .ok () ↔ m.IsClosed ∧ m.IsFreeOfSelfNeeds ∧ Acyclic m.Lists := by
  rw [validate_eq_ok_iff_problems]
  simp only [problems, List.append_eq_nil_iff, danglingNeeds_eq_nil_iff, selfNeeds_eq_nil_iff,
    and_assoc]
  refine and_congr_right fun _ => and_congr_right fun free => ?_
  constructor
  · intro none
    have acyclic : Acyclic m.ListsOther := by
      by_contra cyclic
      exact longCycles_ne_nil_of_cyclic cyclic none
    refine acyclic.mono fun name need edge => ⟨edge, ?_⟩
    rintro rfl
    obtain ⟨⟨needs, entry, itself⟩, -⟩ := edge
    exact free name needs entry itself
  · intro acyclic
    simp [longCycles, cycles_eq_nil_iff.mpr acyclic]

/-- The problems of a map are, in this order: one for each node and each distinct need of it that
is no key; one for each node among its own needs; and closed walks through two names at least, of
which there is one whenever the names without their needs of themselves depend on each other in a
circle. So a map without problems is one that is closed, free of self needs and acyclic. -/
theorem problems_exact (m : DependencyMap) :
    ∃ dangling itself circular : List CompositionError,
      m.problems = dangling ++ itself ++ circular ∧
      (∀ e, e ∈ dangling ↔ ∃ node needs need, e = .missingDependency node need ∧
        (node, needs) ∈ m.entries ∧ need ∈ needs ∧ need ∉ m.keys) ∧
      dangling.Pairwise m.ReportedBefore ∧
      (∀ e, e ∈ itself ↔ ∃ node needs, e = .selfDependency node ∧
        (node, needs) ∈ m.entries ∧ node ∈ needs) ∧
      itself.Pairwise m.ReportedBefore ∧
      (∀ e ∈ circular, ∃ walk, e = .circular walk ∧ IsSimpleCycle m.Lists walk ∧
        ∃ a ∈ walk, ∃ b ∈ walk, a ≠ b) ∧
      (¬ Acyclic m.ListsOther → circular ≠ []) ∧
      (m.validate = .ok () ↔ m.IsClosed ∧ m.IsFreeOfSelfNeeds ∧ Acyclic m.Lists) :=
  ⟨m.danglingNeeds, m.selfNeeds, m.longCycles, rfl, fun _ => mem_danglingNeeds_iff,
    pairwise_danglingNeeds m, fun _ => mem_selfNeeds_iff, pairwise_selfNeeds m,
    fun _ => mem_longCycles, longCycles_ne_nil_of_cyclic, validate_eq_ok_iff⟩

end WorkflowAudit.DependencyMap
