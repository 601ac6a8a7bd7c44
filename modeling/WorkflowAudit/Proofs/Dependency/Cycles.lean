import WorkflowAudit.Proofs.Dependency.Exploration
import WorkflowAudit.Proofs.Dependency.Release

/-! # Reported cycles

What the search reports at its end. Reported walks are simple cycles, no two with the same last
step, and every cycle of the map runs through one of these last steps. Hence nothing is reported
exactly when there is no cycle, and a failed sort always has a cycle to show.
-/

namespace WorkflowAudit.DependencyMap

variable {m : DependencyMap}

theorem reported_cycles (m : DependencyMap) :
    ∃ finished, SearchState.Reported m ⟨[], [], finished, m.cycles⟩ := by
  obtain ⟨finished, reached⟩ := SearchState.Reached.final m
  exact ⟨finished, reached.reported⟩

theorem isSimpleCycle_of_mem_cycles {walk : List String} (member : walk ∈ m.cycles) :
    IsSimpleCycle m.Lists walk := by
  obtain ⟨_, reported⟩ := reported_cycles m
  exact reported.simple walk member

/-- Names are left in an order in which every edge that closes no reported walk leads back. -/
theorem acyclic_kept_cycles (m : DependencyMap) : Acyclic (m.Kept m.cycles) := by
  obtain ⟨finished, reached⟩ := SearchState.Reached.final m
  have all : finished.Perm m.keys := by simpa using reached.placed.names
  have leads : SearchState.Leads (m.Kept m.cycles) finished := reached.explored.leads
  refine .of_rank (fun name => finished.length - finished.idxOf name) ?_
  intro name need kept
  have member := all.mem_iff.mpr kept.1.name_mem
  obtain ⟨inside, later⟩ := leads.idxOf_lt (all.nodup_iff.mpr m.nodup_keys) member kept
  have := List.idxOf_lt_length_of_mem inside
  omega

/-- A cycle is reported exactly when there is one. -/
theorem cycles_eq_nil_iff : m.cycles = [] ↔ Acyclic m.Lists := by
  constructor
  · intro none
    refine (acyclic_kept_cycles m).mono ?_
    intro name need edge
    exact ⟨edge, by simp [none, Closes]⟩
  · intro acyclic
    refine List.eq_nil_iff_forall_not_mem.mpr ?_
    intro walk member
    exact acyclic.not_isClosedWalk (isSimpleCycle_of_mem_cycles member).toIsClosedWalk

theorem exists_closing_step {cycle : List String} (closed : IsClosedWalk m.Lists cycle) :
    ∃ walk ∈ m.cycles, ∃ name need, [name, need] <:+ walk ∧ [name, need] <:+: cycle := by
  by_contra avoids
  push Not at avoids
  have kept : cycle.IsChain (m.Kept m.cycles) := by
    rw [List.isChain_iff_forall_rel_of_append_cons_cons]
    intro name need before after here
    refine ⟨List.isChain_iff_forall_rel_of_append_cons_cons.mp closed.steps here, ?_⟩
    rintro ⟨walk, member, last⟩
    exact avoids walk member name need last ⟨before, after, by simp [here]⟩
  exact (acyclic_kept_cycles m).not_isClosedWalk ⟨kept, closed.long, closed.closed⟩

theorem topologicalSort_eq_error_iff {e : CycleError} :
    m.topologicalSort = .error e ↔ ∃ more, m.cycles = e.walk :: more := by
  simp only [topologicalSort, length_releaseOrder_eq_iff, ← cycles_eq_nil_iff]
  cases found : m.cycles with
  | nil => simp
  | cons walk more =>
      cases e
      simp

/-- Each reported walk is a simple cycle of known dependencies, and no two of them end with the
same step. A sort fails exactly when a cycle is reported, and then it carries such a walk, never
the placeholder for an unknown one. -/
theorem cycles_simple_and_apart (m : DependencyMap) :
    (∀ walk ∈ m.cycles, IsSimpleCycle m.Lists walk) ∧
    (m.cycles.Pairwise fun v w => ∀ name need, [name, need] <:+ v → ¬ [name, need] <:+ w) ∧
    ((∃ e, m.topologicalSort = .error e) ↔ m.cycles ≠ []) ∧
    ∀ e, m.topologicalSort = .error e →
      e.walk ∈ m.cycles ∧ IsSimpleCycle m.Lists e.walk ∧ e.walk ≠ ["unknown"] := by
  obtain ⟨_, reported⟩ := reported_cycles m
  refine ⟨reported.simple, reported.apart, ?_, ?_⟩
  · simp only [topologicalSort_eq_error_iff]
    cases found : m.cycles with
    | nil => simp
    | cons walk more => exact ⟨fun _ => by simp, fun _ => ⟨⟨walk⟩, more, rfl⟩⟩
  · intro e failed
    obtain ⟨more, found⟩ := topologicalSort_eq_error_iff.mp failed
    have member : e.walk ∈ m.cycles := by simp [found]
    have cycle := isSimpleCycle_of_mem_cycles member
    refine ⟨member, cycle, ?_⟩
    intro placeholder
    have long := cycle.long
    simp [placeholder] at long

/-- Two overlapping cycles, one of which is a name that lists itself. -/
theorem cycles_simple_and_apart_overlapping :
    let m : DependencyMap := .ofList [("a", ["b"]), ("b", ["b", "ghost", "a", "a"])]
    m.cycles = [["b", "b"], ["a", "b", "a"]] ∧ m.topologicalSort = .error ⟨["b", "b"]⟩ ∧
      IsSimpleCycle m.Lists ["a", "b", "a"] ∧ IsSimpleCycle m.Lists ["b", "b"] ∧
      ["b", "b"] ≠ ["unknown"] := by
  intro m
  have keys : m.keys = ["a", "b"] := by decide +kernel
  have known : m.known "a" = ["b"] ∧ m.known "b" = ["b", "a"] := by decide +kernel
  have found : m.cycles = [["b", "b"], ["a", "b", "a"]] := by
    simp [cycles, searchFrom, closedWalk?, keys, known]
  have failed : m.topologicalSort = .error ⟨["b", "b"]⟩ :=
    topologicalSort_eq_error_iff.mpr ⟨_, found⟩
  obtain ⟨simple, -, -, carried⟩ := cycles_simple_and_apart m
  exact ⟨found, failed, simple ["a", "b", "a"] (by simp [found]), (carried _ failed).2⟩

/-- Without the last steps of the reported walks no cycle is left. So nothing is reported exactly
when there is no cycle, and each cycle runs through the last step of some reported walk. -/
theorem last_steps_meet_every_cycle (m : DependencyMap) :
    Acyclic (m.Kept m.cycles) ∧ (m.cycles = [] ↔ Acyclic m.Lists) ∧
    ∀ cycle, IsClosedWalk m.Lists cycle →
      ∃ walk ∈ m.cycles, ∃ name need, [name, need] <:+ walk ∧ [name, need] <:+: cycle :=
  ⟨acyclic_kept_cycles m, cycles_eq_nil_iff, fun _ closed => exists_closing_step closed⟩

/-- Three cycles through one name, of which two are reported. The third one, from "a" through
"c" and "b", runs through the last step of a reported walk all the same. -/
theorem last_steps_meet_unreported_cycle :
    let m : DependencyMap := .ofList [("a", ["b", "c"]), ("b", ["a"]), ("c", ["b", "a"])]
    m.cycles = [["a", "b", "a"], ["a", "c", "a"]] ∧
      IsClosedWalk m.Lists ["a", "c", "b", "a"] ∧
      ∃ walk ∈ m.cycles, ∃ name need,
        [name, need] <:+ walk ∧ [name, need] <:+: ["a", "c", "b", "a"] := by
  intro m
  have keys : m.keys = ["a", "b", "c"] := by decide +kernel
  have known : m.known "a" = ["b", "c"] ∧ m.known "b" = ["a"] ∧ m.known "c" = ["b", "a"] := by
    decide +kernel
  have found : m.cycles = [["a", "b", "a"], ["a", "c", "a"]] := by
    simp [cycles, searchFrom, closedWalk?, keys, known]
  have steps : ["a", "c", "b", "a"].IsChain m.Needs := by decide +kernel
  have closed : IsClosedWalk m.Lists ["a", "c", "b", "a"] :=
    ⟨steps.imp fun _ _ need => mem_known_iff.mp need, by decide, rfl⟩
  exact ⟨found, closed, (last_steps_meet_every_cycle m).2.2 _ closed⟩

end WorkflowAudit.DependencyMap
