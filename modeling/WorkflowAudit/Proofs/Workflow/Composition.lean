import WorkflowAudit.Proofs.Dependency.Problems
import WorkflowAudit.Proofs.Workflow.JobGraph
import WorkflowAudit.Workflow.Composition

/-! # What a composition builds

The history of a composition is the list of its calls. Jobs and needs are written under the same
ids in the same order, so the two maps keep the same keys whatever is added again. Hence the builder,
the check of workflows and the graph of jobs agree on which histories give a sound workflow.
-/

namespace WorkflowAudit.Composition

/-- A call of the builder. -/
inductive Call where
  | name (name : String)
  | trigger (event : String) (config : Json)
  /-- A job with needs besides its own. -/
  | job (id : String) (job : Job) (needs : List String)
  | env (pairs : List (String × String))
  | permissions (p : Permissions)
  /-- Permissions by a word. -/
  | preset (word : String)

def Call.apply (c : Composition) : Call → Except CompositionError Composition
  | .name text => .ok (c.setName text)
  | .trigger event config => c.addTrigger event config
  | .job id spec needs => .ok (c.addJob id spec needs)
  | .env pairs => .ok (c.addEnv pairs)
  | .permissions p => .ok (c.setPermissions p)
  | .preset word => c.setPreset word

/-- The composition after some calls, unless one of them fails. -/
def ofCalls (calls : List Call) : Except CompositionError Composition :=
  calls.foldlM Call.apply {}

/-- The jobs that some calls add, with the needs given besides their own. -/
def added (calls : List Call) : List (String × Job × List String) :=
  calls.filterMap fun
    | .job id job needs => some (id, job, needs)
    | _ => none

/-- What the calls so far have left in a composition. -/
structure Records (calls : List Call) (c : Composition) : Prop where
  jobs : c.jobs = .ofList ((added calls).map fun (id, job, _) => (id, job))
  needs : c.needs = .ofList ((added calls).map fun (id, job, needs) =>
    (id, mergeNeeds job.needs needs))
  triggers : ∀ event ∈ c.triggers.keys, event ∈ triggerEvents

namespace Records

variable {calls : List Call} {call : Call} {c next : Composition}

theorem initial : Records [] {} := ⟨rfl, rfl, by simp [OrderedMap.keys, OrderedMap.empty]⟩

/-- A call that adds no job leaves the recorded jobs as they are. -/
theorem other (records : Records calls c) (addsNone : added [call] = [])
    (jobs : next.jobs = c.jobs) (needs : next.needs = c.needs)
    (triggers : ∀ event ∈ next.triggers.keys, event ∈ triggerEvents) :
    Records (calls ++ [call]) next := by
  have same : added (calls ++ [call]) = added calls := by
    simp only [added, List.filterMap_append] at addsNone ⊢
    rw [addsNone, List.append_nil]
  exact ⟨by rw [same, jobs, records.jobs], by rw [same, needs, records.needs], triggers⟩

theorem step (records : Records calls c) (applied : call.apply c = .ok next) :
    Records (calls ++ [call]) next := by
  -- Only jobs and triggers write to what is recorded.
  cases call with
  | job id job more =>
      obtain rfl := Except.ok.inj applied
      refine ⟨?_, ?_, records.triggers⟩
      · simp only [added, List.filterMap_append, List.filterMap_cons, List.filterMap_nil,
          List.map_append, List.map_cons, List.map_nil, OrderedMap.ofList_concat]
        rw [← added, ← records.jobs]
        rfl
      · simp only [added, List.filterMap_append, List.filterMap_cons, List.filterMap_nil,
          List.map_append, List.map_cons, List.map_nil, OrderedMap.ofList_concat]
        rw [← added, ← records.needs]
        rfl
  | trigger event config =>
      simp only [Call.apply, addTrigger] at applied
      split at applied
      · rename_i known
        obtain rfl := Except.ok.inj applied
        refine records.other rfl rfl rfl ?_
        intro other member
        rw [OrderedMap.keys_insert] at member
        split at member
        · exact records.triggers other member
        · rcases List.mem_append.mp member with old | new
          · exact records.triggers other old
          · obtain rfl := List.mem_singleton.mp new
            simpa using known
      · contradiction
  | preset word =>
      simp only [Call.apply, setPreset] at applied
      split at applied
      · obtain rfl := Except.ok.inj applied
        exact records.other rfl rfl rfl records.triggers
      · contradiction
  | name | env | permissions =>
      obtain rfl := Except.ok.inj applied
      exact records.other rfl rfl rfl records.triggers

theorem ofCalls {calls : List Call} {c : Composition} (built : ofCalls calls = .ok c) :
    Records calls c := by
  induction calls using List.reverseRecOn generalizing c with
  | nil =>
      obtain rfl := Except.ok.inj built
      exact initial
  | append_singleton calls call ih =>
      simp only [Composition.ofCalls, List.foldlM_append, List.foldlM_cons, List.foldlM_nil,
        bind_pure] at built
      cases before : List.foldlM Call.apply ({} : Composition) calls with
      | error e =>
          rw [before] at built
          contradiction
      | ok middle =>
          rw [before] at built
          exact (ih before).step built

theorem keys_jobs (records : Records calls c) : c.jobs.keys = dedupFirst ((added calls).map Prod.fst) := by
  rw [records.jobs, OrderedMap.keys_ofList, List.map_map]
  rfl

/-- Jobs and needs have the same ids in the same order. -/
theorem keys_needs (records : Records calls c) : c.needs.keys = c.jobs.keys := by
  rw [records.keys_jobs, records.needs, OrderedMap.keys_ofList, List.map_map]
  rfl

end Records

/-! ## Building -/

section Build

variable {c : Composition} {w : Workflow}

theorem exists_build_iff : (∃ w, c.build = .ok w) ↔ c.needs.validate = .ok () := by
  simp only [build]
  cases c.needs.validate with
  | ok u => exact ⟨fun _ => rfl, fun _ => ⟨_, rfl⟩⟩
  | error e =>
      constructor
      · rintro ⟨w, failed⟩
        contradiction
      · intro failed
        contradiction

/-- What a successful build returns. -/
theorem build_eq_ok (built : c.build = .ok w) :
    c.needs.validate = .ok () ∧ w.triggers = c.triggers ∧
      w.jobs = c.jobs.mapValues fun id job =>
        match c.needs.get? id with
        | some needs => { job with needs }
        | none => job := by
  have valid := exists_build_iff.mp ⟨w, built⟩
  simp only [build, valid] at built
  obtain rfl := Except.ok.inj built
  exact ⟨valid, rfl, rfl⟩

variable (same : c.needs.keys = c.jobs.keys)

include same

theorem get?_jobs_build (built : c.build = .ok w) (id : String) :
    w.jobs.get? id = (c.jobs.get? id).map fun job => { job with needs := c.needs.needs id } := by
  rw [(build_eq_ok built).2.2, OrderedMap.get?_mapValues]
  cases found : c.jobs.get? id with
  | none => rfl
  | some job =>
      have key : id ∈ c.needs.keys :=
        same ▸ OrderedMap.mem_keys_of_entry (OrderedMap.get?_eq_some_iff.mp found)
      obtain ⟨⟨_, needs⟩, entry, rfl⟩ := List.mem_map.mp key
      simp only [Option.map_some, OrderedMap.get?_eq_some_iff.mpr entry,
        DependencyMap.needs_of_entry entry]

/-- The needs of the jobs that are built are those that were collected. -/
theorem dependencyMap_build (built : c.build = .ok w) : w.dependencyMap = c.needs := by
  refine OrderedMap.ext_get? ?_ fun id => ?_
  · rw [Workflow.dependencyMap, OrderedMap.keys_mapValues, (build_eq_ok built).2.2,
      OrderedMap.keys_mapValues, same]
  · rw [Workflow.dependencyMap, OrderedMap.get?_mapValues, get?_jobs_build same built]
    cases found : c.needs.get? id with
    | none =>
        have absent : c.jobs.get? id = none := by
          by_contra present
          obtain ⟨job, present⟩ := Option.ne_none_iff_exists'.mp present
          have key : id ∈ c.needs.keys :=
            same ▸ OrderedMap.mem_keys_of_entry (OrderedMap.get?_eq_some_iff.mp present)
          obtain ⟨⟨_, needs⟩, entry, rfl⟩ := List.mem_map.mp key
          rw [OrderedMap.get?_eq_some_iff.mpr entry] at found
          contradiction
        rw [absent]
        rfl
    | some needs =>
        have entry := OrderedMap.get?_eq_some_iff.mp found
        have key : id ∈ c.jobs.keys := same ▸ OrderedMap.mem_keys_of_entry entry
        obtain ⟨⟨_, job⟩, present, rfl⟩ := List.mem_map.mp key
        simp only [OrderedMap.get?_eq_some_iff.mpr present, Option.map_some,
          DependencyMap.needs_of_entry entry]

end Build

/-- A composition builds a workflow exactly when its needs name only added jobs, no job needs
itself and no jobs need each other in a circle. The workflow then has each added job once, at the
place where its id was first added and as it was last added, with the needs that were collected for
it; its check finds no problem, and its jobs have an order. -/
theorem build_exact (calls : List Call) (c : Composition) (built : ofCalls calls = .ok c)
    (origin : Option Location) :
    ((∃ w, c.build = .ok w) ↔
      (∀ id needs, (id, needs) ∈ c.needs.entries →
        ∀ need ∈ needs, need ∈ (added calls).map Prod.fst) ∧
      c.needs.IsFreeOfSelfNeeds ∧ Acyclic c.needs.Lists) ∧
    ∀ w, c.build = .ok w →
      w.jobs.keys = dedupFirst ((added calls).map Prod.fst) ∧
      (∀ before id job more after, added calls = before ++ (id, job, more) :: after →
        id ∉ after.map Prod.fst →
        w.jobs.get? id = some { job with needs := mergeNeeds job.needs more }) ∧
      (∀ id job, w.jobs.get? id = some job → c.needs.get? id = some job.needs) ∧
      w.problems = [] ∧
      ∃ order, (Graph.empty.addWorkflow w origin).topologicalSort = .ok order := by
  have records := Records.ofCalls built
  have same := records.keys_needs
  refine ⟨?_, ?_⟩
  · rw [exists_build_iff, DependencyMap.validate_eq_ok_iff]
    simp only [DependencyMap.IsClosed, same, records.keys_jobs, mem_dedupFirst]
  · intro w success
    obtain ⟨valid, triggers, jobs⟩ := build_eq_ok success
    have needs := dependencyMap_build same success
    refine ⟨?_, ?_, ?_, ?_, ?_⟩
    · rw [jobs, OrderedMap.keys_mapValues, records.keys_jobs]
    · intro before id job more after split last
      have outside : ∀ β (f : String × Job × List String → β),
          id ∉ (after.map fun e => (e.1, f e)).map Prod.fst := by
        intro β f
        simpa [List.map_map, Function.comp_def] using last
      have lastJob : c.jobs.get? id = some job := by
        rw [records.jobs, split, List.map_append, List.map_cons]
        exact OrderedMap.get?_ofList (outside _ fun e => e.2.1)
      have lastNeeds : c.needs.get? id = some (mergeNeeds job.needs more) := by
        rw [records.needs, split, List.map_append, List.map_cons]
        exact OrderedMap.get?_ofList (outside _ fun e => mergeNeeds e.2.1.needs e.2.2)
      rw [get?_jobs_build same success, lastJob, Option.map_some, DependencyMap.needs, lastNeeds,
        Option.getD_some]
    · intro id job found
      rw [← needs, Workflow.dependencyMap, OrderedMap.get?_mapValues, found, Option.map_some]
    · have known : w.unknownTriggers = [] := by
        simp only [Workflow.unknownTriggers, List.map_eq_nil_iff, List.filter_eq_nil_iff, triggers]
        intro event member
        simpa using records.triggers event member
      rw [Workflow.problems, needs, known, DependencyMap.validate_eq_ok_iff_problems.mp valid,
        List.append_nil]
    · refine Graph.exists_order_addWorkflow w origin ?_
      rw [needs]
      exact (DependencyMap.validate_eq_ok_iff.mp valid).2.2

/-- A job that is added again keeps its place and takes what it was added with last. -/
theorem build_exact_readded :
    let build : Job := { needs := ["lint"] }
    let test : Job := { needs := ["build"] }
    let calls : List Call := [.trigger "push" .null, .job "lint" {} [], .job "build" {} ["ghost"],
      .job "test" test ["lint", "build"], .job "build" build ["lint", "lint"], .preset "read-all"]
    ∃ c w, ofCalls calls = .ok c ∧ c.build = .ok w ∧
      c.needs.entries = [("lint", []), ("build", ["lint"]), ("test", ["build", "lint"])] ∧
      w.jobs.keys = ["lint", "build", "test"] ∧ w.jobs.get? "build" = some build ∧
      w.problems = [] ∧ ∃ order, (Graph.empty.addWorkflow w none).topologicalSort = .ok order := by
  intro build test calls
  have built : ∃ c, ofCalls calls = .ok c := ⟨_, rfl⟩
  obtain ⟨c, built⟩ := built
  have needs : c.needs.entries = [("lint", []), ("build", ["lint"]), ("test", ["build", "lint"])] := by
    rw [(Records.ofCalls built).needs]
    decide +kernel
  obtain ⟨sound, result⟩ := build_exact calls c built none
  have rank : Acyclic c.needs.Lists := by
    refine .of_rank (["lint", "build", "test"].idxOf ·) ?_
    rintro name need ⟨⟨listed, entry, member⟩, -⟩
    simp only [needs, List.mem_cons, Prod.mk.injEq, List.not_mem_nil, or_false] at entry
    rcases entry with ⟨rfl, rfl⟩ | ⟨rfl, rfl⟩ | ⟨rfl, rfl⟩
    all_goals simp at member
    · subst member
      decide
    · rcases member with rfl | rfl <;> decide
  have closed : ∀ id listed, (id, listed) ∈ c.needs.entries →
      ∀ need ∈ listed, need ∈ (added calls).map Prod.fst := by
    simp [needs, calls, added, or_imp, forall_and]
  have free : c.needs.IsFreeOfSelfNeeds := by
    simp [DependencyMap.IsFreeOfSelfNeeds, needs, or_imp, forall_and]
  obtain ⟨w, success⟩ := sound.mpr ⟨closed, free, rank⟩
  obtain ⟨keys, last, -, none, order⟩ := result w success
  refine ⟨c, w, built, success, needs, ?_, ?_, none, order⟩
  · rw [keys]
    decide +kernel
  · exact last [("lint", {}, []), ("build", {}, ["ghost"]), ("test", test, ["lint", "build"])] "build"
      build ["lint", "lint"] [] rfl (by simp)

end WorkflowAudit.Composition
