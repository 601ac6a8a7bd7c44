import Mathlib.Data.List.Perm.Lattice
import WorkflowAudit.Proofs.Dependency.Release

/-!
# What determines an order

Two maps that list their keys in the same order may write the needs of a key in different orders,
repeat them, or mix them with names that are no keys. The release loop sees none of this: it goes
through the same states on both, with the same queue and the same counters, so both have the same
order or none. Only the walk that is given as the reason may differ.
-/

namespace WorkflowAudit.DependencyMap

/-- Two maps with the same keys in the same order, each of which needs the same keys in both. -/
structure SameRelation (m n : DependencyMap) : Prop where
  keys : m.keys = n.keys
  needs : ∀ name ∈ m.keys, ∀ need ∈ m.keys, need ∈ m.needs name ↔ need ∈ n.needs name

namespace SameRelation

variable {m n : DependencyMap}

theorem symm (same : SameRelation m n) : SameRelation n m where
  keys := same.keys.symm
  needs name key need known := by
    rw [← same.keys] at key known
    exact (same.needs name key need known).symm

theorem lists_of_lists (same : SameRelation m n) {name need : String}
    (edge : m.Lists name need) : n.Lists name need := by
  refine ⟨mem_needs_iff.mp ?_, same.keys ▸ edge.need_mem⟩
  exact (same.needs name edge.name_mem need edge.need_mem).mp (mem_needs_iff.mpr edge.1)

theorem mem_known_iff (same : SameRelation m n) {name need : String} :
    need ∈ m.known name ↔ need ∈ n.known name := by
  rw [DependencyMap.mem_known_iff, DependencyMap.mem_known_iff]
  exact ⟨same.lists_of_lists, same.symm.lists_of_lists⟩

theorem perm_known (same : SameRelation m n) (name : String) :
    (m.known name).Perm (n.known name) :=
  (List.perm_ext_iff_of_nodup (m.nodup_known name) (n.nodup_known name)).mpr
    fun _ => same.mem_known_iff

/-! ## The release loop on both -/

theorem initialWaiting_eq (same : SameRelation m n) : m.initialWaiting = n.initialWaiting := by
  rw [initialWaiting, initialWaiting, ← same.keys]
  exact List.map_congr_left fun name _ => by rw [(same.perm_known name).length_eq]

theorem release_eq (same : SameRelation m n) (name : String) (waiting : Waiting) :
    waiting.release m name = waiting.release n name :=
  List.map_congr_left fun _ _ => Prod.ext rfl (if_congr same.mem_known_iff rfl rfl)

theorem releaseFrom_eq (same : SameRelation m n) (queue : List String) (waiting : Waiting) :
    m.releaseFrom queue waiting = n.releaseFrom queue waiting := by
  induction queue, waiting using releaseFrom.induct m with
  | case1 waiting => rw [releaseFrom, releaseFrom]
  | case2 name queue waiting next ih =>
      rw [releaseFrom, releaseFrom, ← same.release_eq]
      exact congrArg (name :: ·) ih

theorem releaseOrder_eq (same : SameRelation m n) : m.releaseOrder = n.releaseOrder := by
  rw [releaseOrder, releaseOrder, same.initialWaiting_eq, same.releaseFrom_eq]

theorem reached (same : SameRelation m n) {s : ReleaseState} (reached : ReleaseState.Reached m s) :
    ReleaseState.Reached n s := by
  induction reached with
  | initial =>
      rw [ReleaseState.initial, same.initialWaiting_eq]
      exact .initial
  | release _ turn ih =>
      cases turn with
      | first =>
          rw [same.release_eq]
          exact ih.release .first

end SameRelation

/-- How the needs of a key are written does not matter. On two maps with the same keys whose keys
need the same keys, the release loop goes through the same states, and either both maps have no
order or both have the same one. -/
theorem topologicalSort_of_sameRelation {m n : DependencyMap} (same : SameRelation m n) :
    (∀ s, ReleaseState.Reached m s ↔ ReleaseState.Reached n s) ∧
    ((∃ e f, m.topologicalSort = .error e ∧ n.topologicalSort = .error f) ∨
      ∃ order, m.topologicalSort = .ok order ∧ n.topologicalSort = .ok order) := by
  refine ⟨fun s => ⟨same.reached, same.symm.reached⟩, ?_⟩
  have size : m.size = n.size := by rw [← OrderedMap.length_keys, same.keys, OrderedMap.length_keys]
  rw [topologicalSort, topologicalSort, ← same.releaseOrder_eq, ← size]
  split
  · exact .inr ⟨_, rfl, rfl⟩
  · exact .inl ⟨_, _, rfl, rfl⟩

/-- The needs of one job are turned round, repeated and mixed with a name that is no job. -/
theorem topologicalSort_of_sameRelation_rewritten :
    let m : DependencyMap := .ofList [("deploy", ["lint", "test"]), ("test", ["build"]),
      ("lint", ["build"]), ("build", [])]
    let n : DependencyMap := .ofList [("deploy", ["approval", "test", "lint", "test"]),
      ("test", ["build"]), ("lint", ["build", "build"]), ("build", [])]
    SameRelation m n ∧ ∃ order, m.topologicalSort = .ok order ∧ n.topologicalSort = .ok order := by
  intro m n
  have same : SameRelation m n := ⟨by decide +kernel, by decide +kernel⟩
  refine ⟨same, (topologicalSort_of_sameRelation same).2.resolve_left ?_⟩
  rintro ⟨e, -, failed, -⟩
  have sorted : m.topologicalSort = .ok ["build", "test", "lint", "deploy"] := by decide +kernel
  rw [sorted] at failed
  cases failed

-- The reason for a failure is the first cycle, which depends on the order of the needs.
example :
    let m : DependencyMap := .ofList [("a", ["b", "c"]), ("b", ["a"]), ("c", ["a"])]
    let n : DependencyMap := .ofList [("a", ["c", "b"]), ("b", ["a"]), ("c", ["a"])]
    m.topologicalSort = .error ⟨["a", "b", "a"]⟩ ∧
      n.topologicalSort = .error ⟨["a", "c", "a"]⟩ := by cbv

end WorkflowAudit.DependencyMap
