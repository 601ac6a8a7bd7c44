import Mathlib.Data.List.Nodup
import Mathlib.Data.List.Perm.Basic
import WorkflowAudit.Dependency.Order
import WorkflowAudit.Proofs.Data.Lookup
import WorkflowAudit.Proofs.Dependency.Relation

/-! # Releasing names in order

The release loop is followed state by state. Its counters are the numbers of known dependencies
that are still to be released, which ties the queue, the released names and the waiting names
together. When the queue runs dry while names still wait, each of these has a dependency among
them, so they hold a cycle.
-/

namespace WorkflowAudit.DependencyMap

/-- How many known dependencies of a name are not among the released names. -/
def outstanding (m : DependencyMap) (released : List String) (name : String) : Nat :=
  ((m.known name).filter (· ∉ released)).length

section Outstanding

variable {m : DependencyMap} {released : List String} {name : String}

theorem outstanding_eq_zero_iff :
    m.outstanding released name = 0 ↔ ∀ need, m.Lists name need → need ∈ released := by
  simp only [outstanding, List.length_eq_zero_iff, List.filter_eq_nil_iff, mem_known_iff,
    decide_eq_true_eq, not_not]

theorem outstanding_nil : m.outstanding [] name = (m.known name).length := by
  simp [outstanding]

/-- A release takes one off the count of each name that lists the released one. -/
theorem outstanding_release (fresh : name ∉ released) (dependent : String) :
    m.outstanding released dependent =
      m.outstanding (released ++ [name]) dependent + if m.Needs dependent name then 1 else 0 := by
  let before := (m.known dependent).filter (· ∉ released)
  have distinct : before.Nodup := (m.nodup_known dependent).filter _
  have after : (m.known dependent).filter (· ∉ released ++ [name]) = before.erase name := by
    rw [distinct.erase_eq_filter, List.filter_filter]
    apply List.filter_congr
    intro need _
    by_cases same : need = name <;> simp [same]
  have member : name ∈ before ↔ m.Needs dependent name := by
    simp [before, Needs, fresh]
  have count : m.outstanding released dependent = before.length := rfl
  rw [count, outstanding, after]
  by_cases lists : m.Needs dependent name
  · have inside := member.mpr lists
    have := List.length_erase_of_mem inside
    have := List.length_pos_of_mem inside
    simp only [lists, if_true]
    omega
  · have outside : name ∉ before := fun inside => lists (member.mp inside)
    simp only [lists, if_false, List.erase_of_not_mem outside, Nat.add_zero]

end Outstanding

namespace Waiting

theorem ready_append_blocked_perm (waiting : Waiting) :
    (waiting.ready ++ waiting.blocked.map Prod.fst).Perm (waiting.map Prod.fst) := by
  have parts := List.filter_append_perm (fun entry : String × Nat => entry.2 = 0) waiting
  simpa [ready, blocked] using parts.map Prod.fst

theorem map_fst_release (m : DependencyMap) (name : String) (waiting : Waiting) :
    (waiting.release m name).map Prod.fst = waiting.map Prod.fst := by
  simp [release, Function.comp_def]

end Waiting

/-- The release loop between two releases. -/
structure ReleaseState where
  released : List String
  queue : List String
  waiting : Waiting
deriving DecidableEq

namespace ReleaseState

def initial (m : DependencyMap) : ReleaseState :=
  ⟨[], m.initialWaiting.ready, m.initialWaiting.blocked⟩

/-- The counter of a name. A name that waits no more has none, which counts as zero. -/
def unmet (s : ReleaseState) (name : String) : Nat := (s.waiting.lookup name).getD 0

/-- One turn of the loop, which releases the first name of the queue. -/
inductive Release (m : DependencyMap) : String → ReleaseState → ReleaseState → Prop where
  | first {released name queue waiting} :
    Release m name ⟨released, name :: queue, waiting⟩
      ⟨released ++ [name], queue ++ (waiting.release m name).ready,
        (waiting.release m name).blocked⟩

/-- The states that the loop goes through. -/
inductive Reached (m : DependencyMap) : ReleaseState → Prop where
  | initial : Reached m (initial m)
  | release {name s t} : Reached m s → Release m name s t → Reached m t

/-- What holds between two releases. -/
structure Valid (m : DependencyMap) (s : ReleaseState) : Prop where
  /-- Each key is released, queued or waiting, and only one of these. -/
  names : (s.released ++ s.queue ++ s.waiting.map Prod.fst).Perm m.keys
  counted : ∀ entry ∈ s.waiting, entry.2 = m.outstanding s.released entry.1
  blocked : ∀ entry ∈ s.waiting, entry.2 ≠ 0
  settled : ∀ name ∈ s.queue, m.outstanding s.released name = 0
  ordered : ∀ name ∈ s.released, ∀ need, m.Lists name need →
    s.released.idxOf need < s.released.idxOf name

namespace Valid

variable {m : DependencyMap}

/-- Counters that are right stay right when the names that wait for nothing join the queue. -/
theorem split {released : List String} (queue : List String) {waiting : Waiting}
    (names : (released ++ queue ++ waiting.map Prod.fst).Perm m.keys)
    (counted : ∀ entry ∈ waiting, entry.2 = m.outstanding released entry.1)
    (settled : ∀ name ∈ queue, m.outstanding released name = 0)
    (ordered : ∀ name ∈ released, ∀ need, m.Lists name need →
      released.idxOf need < released.idxOf name) :
    Valid m ⟨released, queue ++ waiting.ready, waiting.blocked⟩ where
  names := by
    refine List.Perm.trans ?_ names
    simp only [List.append_assoc]
    exact (waiting.ready_append_blocked_perm.append_left queue).append_left released
  counted := fun entry member => counted entry (List.mem_filter.mp member).1
  blocked := fun entry member => by simpa using (List.mem_filter.mp member).2
  settled := by
    intro name member
    rcases List.mem_append.mp member with queued | ready
    · exact settled name queued
    · obtain ⟨entry, kept, rfl⟩ := List.mem_map.mp ready
      obtain ⟨inside, zero⟩ := List.mem_filter.mp kept
      rw [← counted entry inside]
      simpa using zero
  ordered := ordered

theorem initial (m : DependencyMap) : Valid m (initial m) := by
  have names : ([] ++ [] ++ m.initialWaiting.map Prod.fst).Perm m.keys := by
    simp [initialWaiting, Function.comp_def]
  refine split [] names ?_ (by simp) (by simp)
  intro entry member
  obtain ⟨name, _, rfl⟩ := List.mem_map.mp member
  exact outstanding_nil.symm

theorem fresh_of_queue {released queue : List String} {name : String} {waiting : Waiting}
    (valid : Valid m ⟨released, name :: queue, waiting⟩) : name ∉ released := by
  have distinct := valid.names.nodup_iff.mpr m.nodup_keys
  intro member
  simp only [List.append_assoc, List.nodup_append] at distinct
  exact distinct.2.2 name member name (by simp) rfl

theorem release {name : String} {s t : ReleaseState} (valid : Valid m s)
    (turn : Release m name s t) : Valid m t := by
  cases turn with
  | @first released name queue waiting =>
  have fresh := valid.fresh_of_queue
  -- Counts only fall, so what was ready before the release is ready after it.
  have still : ∀ x, m.outstanding released x = 0 → m.outstanding (released ++ [name]) x = 0 := by
    intro x zero
    have := outstanding_release (m := m) fresh x
    omega
  refine split queue ?_ ?_ ?_ ?_
  · rw [Waiting.map_fst_release]
    simpa using valid.names
  · intro entry member
    obtain ⟨old, kept, rfl⟩ := List.mem_map.mp member
    have count := valid.counted old kept
    have change := outstanding_release (m := m) fresh old.1
    simp only at count ⊢
    split <;> rename_i lists <;> simp only [lists, if_true, if_false] at change <;> omega
  · intro x queued
    exact still x (valid.settled x (List.mem_cons_of_mem name queued))
  · intro x member need edge
    rcases List.mem_append.mp member with old | new
    · have earlier := valid.ordered x old need edge
      have listed : need ∈ released :=
        List.idxOf_lt_length_iff.mp (earlier.trans (List.idxOf_lt_length_of_mem old))
      rwa [List.idxOf_append_of_mem listed, List.idxOf_append_of_mem old]
    · obtain rfl := List.mem_singleton.mp new
      have listed : need ∈ released :=
        outstanding_eq_zero_iff.mp (valid.settled x List.mem_cons_self) need edge
      rw [List.idxOf_append_of_mem listed, List.idxOf_append_of_notMem fresh]
      have := List.idxOf_lt_length_of_mem listed
      omega

theorem outstanding_of_released {s : ReleaseState} (valid : Valid m s) {name : String}
    (member : name ∈ s.released) : m.outstanding s.released name = 0 := by
  rw [outstanding_eq_zero_iff]
  intro need edge
  have earlier := valid.ordered name member need edge
  exact List.idxOf_lt_length_iff.mp (earlier.trans (List.idxOf_lt_length_of_mem member))

/-- A key that waits no more has no known dependency left to be released. -/
theorem outstanding_of_not_waiting {s : ReleaseState} (valid : Valid m s) {name : String}
    (left : name ∉ s.waiting.map Prod.fst) : m.outstanding s.released name = 0 := by
  by_cases key : name ∈ m.keys
  · have somewhere := valid.names.mem_iff.mpr key
    simp only [List.mem_append, left, or_false] at somewhere
    rcases somewhere with released | queued
    · exact valid.outstanding_of_released released
    · exact valid.settled name queued
  · rw [outstanding_eq_zero_iff]
    intro need edge
    exact absurd edge.name_mem key

/-- The counter of any name, waiting or not, is the number of its known dependencies that are
still to be released. -/
theorem unmet_eq {s : ReleaseState} (valid : Valid m s) (name : String) :
    s.unmet name = m.outstanding s.released name := by
  simp only [unmet]
  cases found : s.waiting.lookup name with
  | none =>
      have left : name ∉ s.waiting.map Prod.fst := by
        intro waits
        obtain ⟨entry, member, rfl⟩ := List.mem_map.mp waits
        simpa using List.lookup_eq_none_iff.mp found entry member
      exact (valid.outstanding_of_not_waiting left).symm
  | some count =>
      exact valid.counted (name, count) (mem_of_lookup found)

end Valid

theorem Reached.valid {m : DependencyMap} {s : ReleaseState} (reached : Reached m s) :
    Valid m s := by
  induction reached with
  | initial => exact .initial m
  | release _ turn ih => exact ih.release turn

/-- The loop runs until its queue is empty, and what it has released then is the release order. -/
theorem Reached.final (m : DependencyMap) : ∃ waiting, Reached m ⟨m.releaseOrder, [], waiting⟩ := by
  have run : ∀ queue waiting released, Reached m ⟨released, queue, waiting⟩ →
      ∃ rest, Reached m ⟨released ++ m.releaseFrom queue waiting, [], rest⟩ := by
    intro queue waiting
    induction queue, waiting using releaseFrom.induct m with
    | case1 waiting =>
        intro released reached
        exact ⟨waiting, by simpa [releaseFrom] using reached⟩
    | case2 name queue waiting next ih =>
        intro released reached
        obtain ⟨rest, done⟩ := ih (released ++ [name]) (reached.release .first)
        refine ⟨rest, ?_⟩
        rw [releaseFrom]
        simpa using done
  simpa [releaseOrder] using run _ _ [] .initial

/-- A release lowers the counter of each name that lists the released one, and by one exactly:
the counter was not zero. -/
theorem unmet_release {m : DependencyMap} {name : String} {s t : ReleaseState}
    (reached : Reached m s) (turn : Release m name s t) (dependent : String) :
    s.unmet dependent = t.unmet dependent + if m.Needs dependent name then 1 else 0 := by
  rw [reached.valid.unmet_eq, (reached.release turn).valid.unmet_eq]
  cases turn with
  | first => exact outstanding_release reached.valid.fresh_of_queue dependent

end ReleaseState

section ReleaseOrder

variable {m : DependencyMap}

/-- The release order leaves out names only when there is a cycle among them. -/
theorem perm_releaseOrder_of_acyclic (acyclic : Acyclic m.Lists) :
    m.releaseOrder.Perm m.keys := by
  obtain ⟨waiting, reached⟩ := ReleaseState.Reached.final m
  have valid := reached.valid
  have none : waiting = [] := by
    by_contra some
    have inhabited : waiting.map Prod.fst ≠ [] := by simpa using some
    -- The queue is empty, so what a waiting name lacks can only be another waiting name.
    obtain ⟨name, waits, sink⟩ := acyclic.exists_sink inhabited
    obtain ⟨entry, member, rfl⟩ := List.mem_map.mp waits
    have unsettled : m.outstanding m.releaseOrder entry.1 ≠ 0 := by
      rw [← valid.counted entry member]
      exact valid.blocked entry member
    rw [ne_eq, outstanding_eq_zero_iff] at unsettled
    push Not at unsettled
    obtain ⟨need, edge, missing⟩ := unsettled
    have somewhere := valid.names.mem_iff.mpr edge.need_mem
    simp only [List.append_nil, List.mem_append, missing, false_or] at somewhere
    exact sink need somewhere edge
  simpa [none] using valid.names

theorem releaseOrder_perm_of_length (full : m.releaseOrder.length = m.size) :
    m.releaseOrder.Perm m.keys := by
  obtain ⟨waiting, reached⟩ := ReleaseState.Reached.final m
  have names := reached.valid.names
  have none : waiting = [] := by
    have lengths := names.length_eq
    simp only [List.append_nil, List.length_append, List.length_map, OrderedMap.length_keys, full]
      at lengths
    exact List.length_eq_zero_iff.mp (by omega)
  simpa [none] using names

theorem releaseOrder_before {name need : String} (member : name ∈ m.releaseOrder)
    (edge : m.Lists name need) : m.releaseOrder.idxOf need < m.releaseOrder.idxOf name := by
  obtain ⟨waiting, reached⟩ := ReleaseState.Reached.final m
  exact reached.valid.ordered name member need edge

theorem acyclic_of_releaseOrder_perm (all : m.releaseOrder.Perm m.keys) : Acyclic m.Lists :=
  .of_rank m.releaseOrder.idxOf fun _ _ edge =>
    releaseOrder_before (all.mem_iff.mpr edge.name_mem) edge

/-- Every name is released exactly when the dependency relation has no cycle. -/
theorem length_releaseOrder_eq_iff : m.releaseOrder.length = m.size ↔ Acyclic m.Lists := by
  constructor
  · intro full
    exact acyclic_of_releaseOrder_perm (releaseOrder_perm_of_length full)
  · intro acyclic
    rw [(perm_releaseOrder_of_acyclic acyclic).length_eq, OrderedMap.length_keys]

theorem topologicalSort_eq_ok_iff {order : List String} :
    m.topologicalSort = .ok order ↔ Acyclic m.Lists ∧ order = m.releaseOrder := by
  simp only [topologicalSort, ← length_releaseOrder_eq_iff]
  split
  · rename_i full
    simp [full, eq_comm]
  · rename_i short
    simp [short]

/-- An order is found exactly when no name depends on itself, directly or through others. It
lists each key once, and after its known dependencies. The loop that finds it never takes from
a counter that is zero: whenever it releases a name, the counter of each name that lists it
falls by exactly one. -/
theorem topologicalSort_ok_iff_acyclic (m : DependencyMap) :
    ((∃ order, m.topologicalSort = .ok order) ↔ Acyclic m.Lists) ∧
    (∀ order, m.topologicalSort = .ok order →
      order.Perm m.keys ∧
      ∀ name need, m.Lists name need → order.idxOf need < order.idxOf name) ∧
    (∃ last, ReleaseState.Reached m last ∧ last.queue = [] ∧ last.released = m.releaseOrder) ∧
    ∀ s t name, ReleaseState.Reached m s → ReleaseState.Release m name s t →
      ∀ dependent, m.Lists dependent name → s.unmet dependent = t.unmet dependent + 1 := by
  refine ⟨?_, ?_, ?_, ?_⟩
  · simp [topologicalSort_eq_ok_iff]
  · intro order sorted
    obtain ⟨acyclic, rfl⟩ := topologicalSort_eq_ok_iff.mp sorted
    have all := perm_releaseOrder_of_acyclic acyclic
    refine ⟨all, ?_⟩
    intro name need edge
    exact releaseOrder_before (all.mem_iff.mpr edge.name_mem) edge
  · obtain ⟨waiting, reached⟩ := ReleaseState.Reached.final m
    exact ⟨_, reached, rfl, rfl⟩
  · intro s t name reached turn dependent edge
    have change := ReleaseState.unmet_release reached turn dependent
    simpa [Needs, mem_known_iff, edge] using change

/-- A need that is listed twice and one that is no key change nothing. -/
theorem topologicalSort_with_repeats :
    let m : DependencyMap := .ofList [("deploy", ["test", "test", "approval"]), ("test", ["build"]),
      ("build", [])]
    let order := ["build", "test", "deploy"]
    m.topologicalSort = .ok order ∧ order.Perm m.keys ∧
      order.idxOf "test" < order.idxOf "deploy" ∧
      ∃ s t, ReleaseState.Release m "build" s t ∧ s.unmet "test" = t.unmet "test" + 1 := by
  intro m order
  have sorted : m.topologicalSort = .ok order := by decide +kernel
  have lists : m.Lists "deploy" "test" := mem_known_iff.mp (by decide +kernel)
  have dependent : m.Lists "test" "build" := mem_known_iff.mp (by decide +kernel)
  obtain ⟨-, ok, -, counters⟩ := topologicalSort_ok_iff_acyclic m
  have first : ReleaseState.initial m = ⟨[], ["build"], [("deploy", 1), ("test", 1)]⟩ := by
    decide +kernel
  have reached : ReleaseState.Reached m ⟨[], ["build"], [("deploy", 1), ("test", 1)]⟩ :=
    first ▸ .initial
  exact ⟨sorted, (ok order sorted).1, (ok order sorted).2 "deploy" "test" lists,
    _, _, .first, counters _ _ "build" reached .first "test" dependent⟩

end ReleaseOrder

end WorkflowAudit.DependencyMap
