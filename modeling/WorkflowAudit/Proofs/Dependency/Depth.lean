import Mathlib.Order.Bounds.Defs
import WorkflowAudit.Proofs.Dependency.Release

/-!
# Waves of names

The depth of a name is the length of its longest chain of known dependencies. The release loop does
not compute depths. But a name is released when the last of its dependencies is, and it joins the
end of the queue, so what has been released and what is queued is always sorted by depth, and the
queue holds names of two consecutive depths at most.
-/

namespace WorkflowAudit.DependencyMap

/-- The length of the longest chain of known dependencies from a name on that has at most so many
steps. -/
def chainLength (m : DependencyMap) : Nat → String → Nat
  | 0, _ => 0
  | steps + 1, name => ((m.known name).map fun need => m.chainLength steps need + 1).max?.getD 0

/-- The length of the longest chain of known dependencies from a name on. -/
def depth (m : DependencyMap) (name : String) : Nat := m.chainLength m.size name

/-- A chain of known dependencies from a name on, which itself is left out. -/
def ChainFrom (m : DependencyMap) (name : String) (chain : List String) : Prop :=
  (name :: chain).IsChain m.Lists

section Chains

variable {m : DependencyMap} {name need : String} {chain : List String}

theorem chainFrom_cons_iff :
    m.ChainFrom name (need :: chain) ↔ m.Lists name need ∧ m.ChainFrom need chain :=
  List.isChain_cons_cons

theorem length_le_chainLength {steps : Nat} (from_name : m.ChainFrom name chain)
    (short : chain.length ≤ steps) : chain.length ≤ m.chainLength steps name := by
  induction steps generalizing name chain with
  | zero => exact short
  | succ steps ih =>
      cases chain with
      | nil => exact Nat.zero_le _
      | cons need chain =>
          obtain ⟨edge, rest⟩ := chainFrom_cons_iff.mp from_name
          have behind := ih rest (Nat.le_of_succ_le_succ short)
          have listed : m.chainLength steps need + 1 ∈
              (m.known name).map fun need => m.chainLength steps need + 1 :=
            List.mem_map_of_mem (mem_known_iff.mpr edge)
          exact (Nat.succ_le_succ behind).trans (List.le_max?_getD_of_mem listed)

theorem exists_chain_of_chainLength (steps : Nat) (name : String) :
    ∃ chain, m.ChainFrom name chain ∧ chain.length = m.chainLength steps name := by
  induction steps generalizing name with
  | zero => exact ⟨[], List.isChain_singleton name, rfl⟩
  | succ steps ih =>
      rw [chainLength]
      cases longest : ((m.known name).map fun need => m.chainLength steps need + 1).max? with
      | none => exact ⟨[], List.isChain_singleton name, rfl⟩
      | some length =>
          obtain ⟨need, known, rfl⟩ := List.mem_map.mp (List.max?_mem longest)
          obtain ⟨chain, behind, same⟩ := ih need
          exact ⟨need :: chain, chainFrom_cons_iff.mpr ⟨mem_known_iff.mp known, behind⟩,
            congrArg Nat.succ same⟩

/-- Without cycles no name comes twice in a chain, so chains are not longer than the map. -/
theorem ChainFrom.length_le (acyclic : Acyclic m.Lists) (from_name : m.ChainFrom name chain) :
    chain.length ≤ m.size := by
  have paths : (name :: chain).Pairwise (Relation.TransGen m.Lists) :=
    (from_name.imp fun _ _ => Relation.TransGen.single).pairwise
  have distinct : chain.Nodup := (List.pairwise_cons.mp paths).2.imp fun path => by
    rintro rfl
    exact acyclic _ path
  have keys : chain ⊆ m.keys := by
    intro x member
    obtain ⟨_, -, edge⟩ := Relation.TransGen.tail'_iff.mp ((List.pairwise_cons.mp paths).1 x member)
    exact edge.need_mem
  rw [← OrderedMap.length_keys]
  exact (List.subperm_of_subset distinct keys).length_le

end Chains

/-! ## Depths -/

section Depth

variable {m : DependencyMap} (acyclic : Acyclic m.Lists)

include acyclic

theorem isGreatest_depth (name : String) :
    IsGreatest {length | ∃ chain, m.ChainFrom name chain ∧ chain.length = length}
      (m.depth name) := by
  refine ⟨exists_chain_of_chainLength m.size name, ?_⟩
  rintro _ ⟨chain, from_name, rfl⟩
  exact length_le_chainLength from_name (from_name.length_le acyclic)

theorem depth_lt_of_lists {name need : String} (edge : m.Lists name need) :
    m.depth need < m.depth name := by
  obtain ⟨⟨chain, behind, length⟩, -⟩ := isGreatest_depth acyclic need
  have longer : chain.length + 1 ≤ m.depth name :=
    (isGreatest_depth acyclic name).2 ⟨need :: chain, chainFrom_cons_iff.mpr ⟨edge, behind⟩, rfl⟩
  omega

/-- The depth of a name comes from one of its dependencies, unless it has none. -/
theorem depth_eq_zero_or_exists (name : String) :
    m.depth name = 0 ∨ ∃ need, m.Lists name need ∧ m.depth name = m.depth need + 1 := by
  obtain ⟨⟨chain, from_name, length⟩, -⟩ := isGreatest_depth acyclic name
  cases chain with
  | nil => exact .inl length.symm
  | cons need chain =>
      obtain ⟨edge, behind⟩ := chainFrom_cons_iff.mp from_name
      have shorter : chain.length ≤ m.depth need :=
        (isGreatest_depth acyclic need).2 ⟨chain, behind, rfl⟩
      have deeper := depth_lt_of_lists acyclic edge
      rw [List.length_cons] at length
      exact .inr ⟨need, edge, by omega⟩

/-- A name is at most one step deeper than what all of its dependencies are at most. -/
theorem depth_le_of_needs {name : String} {bound : Nat}
    (below : ∀ need, m.Lists name need → m.depth need ≤ bound) : m.depth name ≤ bound + 1 := by
  rcases depth_eq_zero_or_exists acyclic name with zero | ⟨need, edge, deeper⟩
  · omega
  · have := below need edge
    omega

theorem depth_eq_zero_iff (name : String) : m.depth name = 0 ↔ m.known name = [] := by
  rw [List.eq_nil_iff_forall_not_mem]
  constructor
  · intro zero need known
    have := depth_lt_of_lists acyclic (mem_known_iff.mp known)
    omega
  · intro none
    refine (depth_eq_zero_or_exists acyclic name).resolve_right ?_
    rintro ⟨need, edge, -⟩
    exact none need (mem_known_iff.mpr edge)

end Depth

/-! ## The release loop by depths -/

namespace ReleaseState

/-- What the loop has found so far, released or not. -/
def found (s : ReleaseState) : List String := s.released ++ s.queue

/-- How deep the names are that the loop has found. -/
structure InWaves (m : DependencyMap) (s : ReleaseState) : Prop where
  sorted : s.found.Pairwise fun a b => m.depth a ≤ m.depth b
  /-- Names without dependencies stand in the order of the map. -/
  roots : s.found.filter (m.depth · = 0) = m.keys.filter (m.depth · = 0)

variable {m : DependencyMap} {name : String} {released queue : List String} {waiting : Waiting}

/-- The names that a release makes ready list the released name and wait for nothing else. -/
theorem ready_release (valid : Valid m ⟨released, name :: queue, waiting⟩) {x : String}
    (ready : x ∈ (waiting.release m name).ready) :
    m.Lists x name ∧ ∀ need, m.Lists x need → need ∈ released ++ [name] := by
  obtain ⟨entry, kept, rfl⟩ := List.mem_map.mp ready
  obtain ⟨inside, zero⟩ := List.mem_filter.mp kept
  obtain ⟨⟨x, unmet⟩, waits, rfl⟩ := List.mem_map.mp inside
  change m.Lists x name ∧ ∀ need, m.Lists x need → need ∈ released ++ [name]
  have blocked : unmet ≠ 0 := valid.blocked _ waits
  have count : unmet = m.outstanding released x := valid.counted _ waits
  have change := outstanding_release (m := m) valid.fresh_of_queue x
  by_cases lists : m.Needs x name
  · simp only [lists, if_true, decide_eq_true_eq] at zero change
    exact ⟨mem_known_iff.mp lists, outstanding_eq_zero_iff.mp (by omega)⟩
  · simp only [lists, if_false, decide_eq_true_eq] at zero
    exact absurd zero blocked

section InWaves

variable (acyclic : Acyclic m.Lists)

include acyclic

/-- What the loop has found is not deeper than one step below the first name of the queue. -/
theorem InWaves.depth_le {s : ReleaseState} (waves : InWaves m s) (valid : Valid m s)
    (first : s.queue = name :: queue) {x : String} (member : x ∈ s.found) :
    m.depth x ≤ m.depth name + 1 := by
  have sorted := waves.sorted
  rw [found, first, List.pairwise_append] at sorted
  rcases List.mem_append.mp member with old | queued
  · exact Nat.le_succ_of_le (sorted.2.2 x old name List.mem_cons_self)
  · refine depth_le_of_needs acyclic fun need edge => ?_
    have released := outstanding_eq_zero_iff.mp (valid.settled x queued) need edge
    exact sorted.2.2 need released name List.mem_cons_self

theorem InWaves.initial : InWaves m (ReleaseState.initial m) := by
  have ready : m.initialWaiting.ready = m.keys.filter (m.depth · = 0) := by
    simp only [initialWaiting, Waiting.ready, List.filter_map, List.map_map, Function.comp_def,
      List.map_id', List.length_eq_zero_iff, depth_eq_zero_iff acyclic]
  have start : (ReleaseState.initial m).found = m.keys.filter (m.depth · = 0) := by
    rw [found, ReleaseState.initial, ready, List.nil_append]
  constructor
  · rw [start]
    refine List.pairwise_of_forall_mem_list fun a root b _ => ?_
    have zero : m.depth a = 0 := of_decide_eq_true (List.mem_filter.mp root).2
    omega
  · rw [start, List.filter_filter]
    simp only [Bool.and_self]

theorem InWaves.release {s t : ReleaseState} (waves : InWaves m s) (valid : Valid m s)
    (turn : Release m name s t) : InWaves m t := by
  cases turn with
  | @first released name queue waiting =>
  have upTo : ∀ x ∈ released ++ [name], m.depth x ≤ m.depth name := by
    have sorted := (List.pairwise_append.mp waves.sorted).2.2
    intro x member
    rcases List.mem_append.mp member with old | new
    · exact sorted x old name List.mem_cons_self
    · rw [List.mem_singleton.mp new]
  have next : ∀ x ∈ (waiting.release m name).ready, m.depth x = m.depth name + 1 := by
    intro x ready
    obtain ⟨edge, needs⟩ := ready_release valid ready
    have deeper := depth_lt_of_lists acyclic edge
    have bounded : m.depth x ≤ m.depth name + 1 :=
      depth_le_of_needs acyclic fun need edge => upTo need (needs need edge)
    omega
  have more : (⟨released ++ [name], queue ++ (waiting.release m name).ready,
      (waiting.release m name).blocked⟩ : ReleaseState).found =
        (⟨released, name :: queue, waiting⟩ : ReleaseState).found ++
          (waiting.release m name).ready := by
    simp [found]
  constructor
  · rw [more, List.pairwise_append]
    refine ⟨waves.sorted, List.pairwise_of_forall_mem_list fun a ha b hb => ?_,
      fun a ha b hb => ?_⟩
    · rw [next a ha, next b hb]
    · rw [next b hb]
      exact waves.depth_le acyclic valid rfl ha
  · have none : (waiting.release m name).ready.filter (m.depth · = 0) = [] := by
      refine List.filter_eq_nil_iff.mpr fun x ready => ?_
      rw [next x ready]
      simp
    rw [more, List.filter_append, none, List.append_nil]
    exact waves.roots

theorem Reached.inWaves {s : ReleaseState} (reached : Reached m s) : InWaves m s := by
  induction reached with
  | initial => exact .initial acyclic
  | release reached turn ih => exact ih.release acyclic reached.valid turn

end InWaves

end ReleaseState

/-- Without cycles the order takes the names by depth, and those without dependencies in the order
of the map. Whatever a name lists is less deep, so names of one depth can run together. All that is
queued at one time is as deep as the first name of the queue or one step deeper. -/
theorem topologicalSort_in_waves {m : DependencyMap} (acyclic : Acyclic m.Lists) :
    (∀ name, IsGreatest
      {length | ∃ chain, (name :: chain).IsChain m.Lists ∧ chain.length = length} (m.depth name)) ∧
    (∃ order, m.topologicalSort = .ok order ∧ order.Perm m.keys ∧
      (order.Pairwise fun a b => m.depth a ≤ m.depth b) ∧
      order.filter (m.depth · = 0) = m.keys.filter (m.depth · = 0)) ∧
    (∀ name need, m.Lists name need → m.depth need < m.depth name) ∧
    ∀ s first rest, ReleaseState.Reached m s → s.queue = first :: rest →
      ∀ name ∈ rest, m.depth name = m.depth first ∨ m.depth name = m.depth first + 1 := by
  refine ⟨isGreatest_depth acyclic, ⟨m.releaseOrder, ?_, ?_, ?_⟩,
    fun _ _ => depth_lt_of_lists acyclic, ?_⟩
  · exact topologicalSort_eq_ok_iff.mpr ⟨acyclic, rfl⟩
  · exact perm_releaseOrder_of_acyclic acyclic
  · obtain ⟨waiting, reached⟩ := ReleaseState.Reached.final m
    have waves := reached.inWaves acyclic
    have all : (⟨m.releaseOrder, [], waiting⟩ : ReleaseState).found = m.releaseOrder :=
      List.append_nil _
    exact ⟨all ▸ waves.sorted, all ▸ waves.roots⟩
  · intro s first rest reached queue name member
    have waves := reached.inWaves acyclic
    have listed : name ∈ s.found := by
      rw [ReleaseState.found, queue]
      simp [member]
    have bounded := waves.depth_le acyclic reached.valid queue listed
    have sorted := (List.pairwise_append.mp waves.sorted).2.1
    rw [queue] at sorted
    have above := (List.pairwise_cons.mp sorted).1 name member
    omega

/-- The job that is listed first is the deepest, and a job without dependencies stands behind it. -/
theorem topologicalSort_in_waves_deepestFirst :
    let m : DependencyMap := .ofList [("deploy", ["docs", "test", "lint"]), ("docs", []),
      ("test", ["build", "build"]), ("lint", ["build", "approval"]), ("build", [])]
    let order := ["docs", "build", "test", "lint", "deploy"]
    Acyclic m.Lists ∧ m.topologicalSort = .ok order ∧ order.map m.depth = [0, 0, 1, 1, 2] ∧
      (order.Pairwise fun a b => m.depth a ≤ m.depth b) ∧
      order.filter (m.depth · = 0) = m.keys.filter (m.depth · = 0) ∧
      m.depth "lint" < m.depth "deploy" := by
  intro m order
  have sorted : m.topologicalSort = .ok order := by decide +kernel
  have acyclic : Acyclic m.Lists := (topologicalSort_eq_ok_iff.mp sorted).1
  have lists : m.Lists "deploy" "lint" := mem_known_iff.mp (by decide +kernel)
  obtain ⟨-, ⟨other, found, -, waves, roots⟩, falls, -⟩ := topologicalSort_in_waves acyclic
  obtain rfl : order = other := Except.ok.inj (sorted.symm.trans found)
  exact ⟨acyclic, sorted, by decide +kernel, waves, roots, falls _ _ lists⟩

end WorkflowAudit.DependencyMap
