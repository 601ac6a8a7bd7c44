import WorkflowAudit.Lint.WorkflowRules
import WorkflowAudit.Proofs.Dependency.Cycles
import WorkflowAudit.Proofs.Script.Parser.Run

/-!
# Cycles of needs

Jobs are bound to names, and their needs are compared by the keys that workflows give to these
names. Of the jobs that share a key only the one whose name was bound last is compared, so a cycle
is found when each of its jobs is the one that its key stands for.
-/

namespace WorkflowAudit.Lint

open Script

variable {u : SourceUnit} {m : Module} {key name : String}

/-! ## Bindings of jobs -/

/-- The name that a statement binds to a job. -/
def jobBinding? (s : Stmt) : Option (String × Call) := do
  let (name, value) ← s.binding?
  some (name, ← value.asCall?.filter (·.isCallTo "Job"))

/-- Whether a statement is the last one, in the order of a walk, that binds a name to a job. -/
def IsLastJob (m : Module) (name : String) (s : Stmt) (call : Call) : Prop :=
  ∃ before depth after, m.statements = before ++ (s, depth) :: after ∧
    jobBinding? s = some (name, call) ∧ ∀ p ∈ after, ∀ later, jobBinding? p.1 ≠ some (name, later)

theorem jobBindings_eq (m : Module) :
    jobBindings m = .ofList (m.statements.filterMap fun p =>
      (jobBinding? p.1).map fun (name, call) => (name, call, p.1.span.start)) := by
  rw [OrderedMap.ofList, List.foldl_filterMap, jobBindings]
  congr 1
  funext jobs p
  unfold jobBinding?
  dsimp only
  split
  case h_1 found => rw [found]; rfl
  case h_2 none => rw [none]; rfl

theorem get?_jobBindings_iff {job : Call × Nat} :
    (jobBindings m).get? name = some job ↔
      ∃ s call, IsLastJob m name s call ∧ job = (call, s.span.start) := by
  have other : ∀ {found : Option (String × Call)} {offset : Nat},
      (∀ job : Call × Nat, (found.map fun (name, call) => (name, call, offset)) ≠ some (name, job)) ↔
        ∀ call, found ≠ some (name, call) := by
    rintro (_ | ⟨name', call⟩) offset <;> simp
  rw [jobBindings_eq, OrderedMap.get?_ofList_filterMap_iff]
  constructor
  · rintro ⟨before, ⟨s, depth⟩, after, split, held, last⟩
    obtain ⟨⟨_, call⟩, binds, same⟩ := Option.map_eq_some_iff.mp held
    cases same
    exact ⟨s, call, ⟨before, depth, after, split, binds, fun p hp => other.mp (last p hp)⟩, rfl⟩
  · rintro ⟨s, call, ⟨before, depth, after, split, binds, last⟩, rfl⟩
    exact ⟨before, (s, depth), after, split, by rw [binds]; rfl, fun p hp => other.mpr (last p hp)⟩

/-- Whether a key stands for the job of a name: no name that was first bound later has the key. -/
def StandsFor (u : SourceUnit) (m : Module) (key name : String) : Prop :=
  ∃ before after, (jobBindings m).keys = before ++ name :: after ∧
    jobKey (workflowKeys u) name = key ∧ ∀ later ∈ after, jobKey (workflowKeys u) later ≠ key

/-- What a job needs, by keys. -/
def neededBy (u : SourceUnit) (call : Call) : List String :=
  ((call.keyword? "needs").map (neededKeys (workflowKeys u))).getD []

theorem needsMap_eq (u : SourceUnit) (m : Module) :
    (needsMap u m).1 = .ofList ((jobBindings m).entries.filterMap fun e =>
      some (jobKey (workflowKeys u) e.1, neededBy u e.2.1)) := by
  rw [OrderedMap.ofList, List.foldl_filterMap, needsMap]
  refine (List.foldl_hom Prod.fst ?_).symm
  rintro ⟨needs, offsets⟩ ⟨name, call, offset⟩
  rfl

theorem get?_needsMap_iff {needed : List String} :
    (needsMap u m).1.get? key = some needed ↔
      ∃ name s call, StandsFor u m key name ∧ IsLastJob m name s call ∧ needed = neededBy u call := by
  rw [needsMap_eq, OrderedMap.get?_ofList_filterMap_iff]
  constructor
  · rintro ⟨before, ⟨name, job⟩, after, split, held, last⟩
    have entry : (name, job) ∈ (jobBindings m).entries := by simp [split]
    obtain ⟨s, call, binds, rfl⟩ := get?_jobBindings_iff.mp (OrderedMap.get?_eq_some_iff.mpr entry)
    cases held
    refine ⟨name, s, call, ⟨before.map Prod.fst, after.map Prod.fst, ?_, rfl, ?_⟩, binds, rfl⟩
    · rw [OrderedMap.keys, split, List.map_append, List.map_cons]
    · rintro later member same
      obtain ⟨e, he, rfl⟩ := List.mem_map.mp member
      exact last e he _ (by rw [same])
  · rintro ⟨name, s, call, ⟨before, after, split, rfl, last⟩, binds, rfl⟩
    have entry := OrderedMap.get?_eq_some_iff.mp (get?_jobBindings_iff.mpr ⟨s, call, binds, rfl⟩)
    rw [OrderedMap.keys] at split
    obtain ⟨first, _, entries, rfl, others⟩ := List.map_eq_append_iff.mp split
    obtain ⟨⟨_, job⟩, rest, rfl, rfl, rfl⟩ := List.map_eq_cons_iff.mp others
    obtain rfl := OrderedMap.entry_unique entry (by simp [entries] : (_, job) ∈ _)
    refine ⟨first, _, rest, entries, rfl, fun e he _ same => ?_⟩
    exact last e.1 (List.mem_map_of_mem he) (Prod.mk.inj (Option.some.inj same)).1

/-! ## Needs between keys -/

/-- The needs that are compared. -/
def KeyNeeds (u : SourceUnit) (m : Module) (key need : String) : Prop :=
  (∃ name s call, StandsFor u m key name ∧ IsLastJob m name s call ∧ need ∈ neededBy u call) ∧
    ∃ name, StandsFor u m need name

theorem lists_needsMap_iff {need : String} :
    (needsMap u m).1.Lists key need ↔ KeyNeeds u m key need := by
  have known : need ∈ (needsMap u m).1.keys ↔ ∃ name, StandsFor u m need name := by
    rw [OrderedMap.mem_keys_iff_exists]
    constructor
    · rintro ⟨needed, found⟩
      obtain ⟨name, -, -, stands, -⟩ := get?_needsMap_iff.mp found
      exact ⟨name, stands⟩
    · rintro ⟨name, stands⟩
      have bound : name ∈ (jobBindings m).keys := by
        obtain ⟨before, after, split, -⟩ := stands
        simp [split]
      obtain ⟨job, found⟩ := OrderedMap.mem_keys_iff_exists.mp bound
      obtain ⟨s, call, binds, -⟩ := get?_jobBindings_iff.mp found
      exact ⟨_, get?_needsMap_iff.mpr ⟨name, s, call, stands, binds, rfl⟩⟩
  simp only [DependencyMap.Lists, KeyNeeds, known, ← OrderedMap.get?_eq_some_iff, get?_needsMap_iff]
  refine and_congr_left fun _ => ?_
  constructor
  · rintro ⟨_, ⟨name, s, call, stands, binds, rfl⟩, listed⟩
    exact ⟨name, s, call, stands, binds, listed⟩
  · rintro ⟨name, s, call, stands, binds, listed⟩
    exact ⟨_, ⟨name, s, call, stands, binds, rfl⟩, listed⟩

theorem evaluate_circularNeeds_iff (tree : u.tree = some m) :
    circularNeeds.evaluate u = [] ↔ Acyclic (KeyNeeds u m) := by
  have same : (needsMap u m).1.Lists = KeyNeeds u m := by
    funext key need
    exact propext lists_needsMap_iff
  rw [← same, ← DependencyMap.cycles_eq_nil_iff]
  simp [circularNeeds, check, cycleFindings, tree]

/-! ## Needs between names -/

/-- The expressions that a value of `needs` lists. -/
def needParts : Expr → List Expr
  | .list _ items | .tuple _ items => items
  | e => [e]

/-- Whether the needs of the last job of a name list another one by its name. -/
def NeedsByName (m : Module) (name need : String) : Prop :=
  (∃ s call value, IsLastJob m name s call ∧ call.keyword? "needs" = some value ∧
    ∃ e ∈ needParts value, e.asName? = some need) ∧ ∃ s call, IsLastJob m need s call

/-- Whether the key of a name stands for its job. -/
def OwnsKey (u : SourceUnit) (m : Module) (name : String) : Prop :=
  StandsFor u m (jobKey (workflowKeys u) name) name

theorem NeedsByName.keyNeeds {need : String} (h : NeedsByName m name need) (owns : OwnsKey u m name)
    (owns' : OwnsKey u m need) :
    KeyNeeds u m (jobKey (workflowKeys u) name) (jobKey (workflowKeys u) need) := by
  obtain ⟨⟨s, call, value, binds, held, e, listed, named⟩, -⟩ := h
  refine ⟨⟨name, s, call, owns, binds, ?_⟩, need, owns'⟩
  have string : e.asString? = none := by
    cases e <;> first | rfl | cases named
  rw [neededBy, held]
  exact List.mem_filterMap.mpr ⟨e, listed, by rw [string, named]; rfl⟩

/-- The needs of a job by name, read off the bindings. -/
def namedNeeds (m : Module) (name : String) : List String :=
  match (jobBindings m).get? name with
  | some (call, _) => (((call.keyword? "needs").map needParts).getD []).filterMap Expr.asName?
  | none => []

theorem needsByName_iff {need : String} :
    NeedsByName m name need ↔ need ∈ namedNeeds m name ∧ need ∈ (jobBindings m).keys := by
  have bound : need ∈ (jobBindings m).keys ↔ ∃ s call, IsLastJob m need s call := by
    rw [OrderedMap.mem_keys_iff_exists]
    simp only [get?_jobBindings_iff]
    constructor
    · rintro ⟨_, s, call, binds, -⟩
      exact ⟨s, call, binds⟩
    · rintro ⟨s, call, binds⟩
      exact ⟨_, s, call, binds, rfl⟩
  rw [NeedsByName, bound]
  refine and_congr_left fun _ => ?_
  constructor
  · rintro ⟨s, call, value, binds, held, e, listed, named⟩
    rw [namedNeeds, get?_jobBindings_iff.mpr ⟨s, call, binds, rfl⟩]
    simp only [held, Option.map_some, Option.getD_some]
    exact List.mem_filterMap.mpr ⟨e, listed, named⟩
  · intro listed
    unfold namedNeeds at listed
    split at listed
    case h_1 call offset found =>
      obtain ⟨s, _, binds, same⟩ := get?_jobBindings_iff.mp found
      cases same
      obtain ⟨e, listed, named⟩ := List.mem_filterMap.mp listed
      cases held : call.keyword? "needs" with
      | none => simp [held] at listed
      | some value => exact ⟨s, call, value, binds, held, e, by simpa [held] using listed, named⟩
    case h_2 => cases listed

/-- Where no two jobs share a key, each key stands for its job. -/
theorem ownsKey_of_nodup (distinct : ((jobBindings m).keys.map (jobKey (workflowKeys u))).Nodup)
    (member : name ∈ (jobBindings m).keys) : OwnsKey u m name := by
  obtain ⟨before, after, split⟩ := List.append_of_mem member
  refine ⟨before, after, split, rfl, fun later hl same => ?_⟩
  rw [split, List.map_append, List.map_cons] at distinct
  have apart := (List.nodup_cons.mp (List.nodup_append.mp distinct).2.1).1
  exact apart (List.mem_map.mpr ⟨later, hl, same⟩)

/-- A cycle is found exactly when keys need each other in a cycle. So a cycle of jobs that list each
other by their names is found when the key of each one stands for it. -/
theorem evaluate_circularNeeds (tree : u.tree = some m) :
    (circularNeeds.evaluate u = [] ↔ Acyclic (KeyNeeds u m)) ∧
    ∀ names, IsClosedWalk (NeedsByName m) names → (∀ name ∈ names, OwnsKey u m name) →
      circularNeeds.evaluate u ≠ [] := by
  have exact := evaluate_circularNeeds_iff tree
  refine ⟨exact, fun names cycle owns none => ?_⟩
  have keys : IsClosedWalk (KeyNeeds u m) (names.map (jobKey (workflowKeys u))) := by
    refine ⟨?_, by simpa using cycle.long, by simp [cycle.closed]⟩
    rw [List.isChain_map, List.isChain_iff_forall_rel_of_append_cons_cons]
    rintro name need before after rfl
    exact (List.isChain_iff_forall_rel_of_append_cons_cons.mp cycle.steps rfl).keyNeeds
      (owns name (by simp)) (owns need (by simp))
  exact (exact.mp none).not_isClosedWalk keys

/-- Two jobs that need each other by name, under other keys. -/
def renamedText : String :=
  "a = Job(needs=[b])\nb = Job(needs=a)\nw = Workflow(jobs=\x7b'x': a, 'y': b\x7d)\n"

theorem evaluate_circularNeeds_renamedText :
    ∃ m, parse renamedText = .ok m ∧
      let u := SourceUnit.ofText "ci.py" renamedText
      IsClosedWalk (NeedsByName m) ["a", "b", "a"] ∧ (∀ name ∈ ["a", "b", "a"], OwnsKey u m name) ∧
        circularNeeds.evaluate u ≠ [] := by
  have parses : (parse renamedText).isOk = true := by decide +kernel
  have read : (parse renamedText).toOption.all (fun m =>
      decide ((jobBindings m).keys = ["a", "b"] ∧ namedNeeds m "a" = ["b"] ∧
        namedNeeds m "b" = ["a"]) &&
      decide (((jobBindings m).keys.map
        (jobKey (workflowKeys (.ofText "ci.py" renamedText)))).Nodup)) = true := by decide +kernel
  obtain ⟨m, parsed⟩ := exists_parse_of_isOk parses
  rw [parsed] at read
  simp only [Except.toOption, Option.all_some, Bool.and_eq_true, decide_eq_true_eq] at read
  obtain ⟨⟨keys, first, second⟩, distinct⟩ := read
  have cycle : IsClosedWalk (NeedsByName m) ["a", "b", "a"] := by
    refine ⟨?_, by decide, rfl⟩
    simp only [List.isChain_cons_cons, List.isChain_singleton, and_true]
    exact ⟨needsByName_iff.mpr (by simp [first, keys]), needsByName_iff.mpr (by simp [second, keys])⟩
  have owns : ∀ name ∈ ["a", "b", "a"], OwnsKey (.ofText "ci.py" renamedText) m name := by
    intro name member
    exact ownsKey_of_nodup distinct (by simpa [keys, or_comm, or_left_comm] using member)
  have tree : (SourceUnit.ofText "ci.py" renamedText).tree = some m := by
    rw [SourceUnit.ofText, parsed]
    rfl
  exact ⟨m, parsed, cycle, owns, (evaluate_circularNeeds tree).2 _ cycle owns⟩

/-- A second workflow gives the key of the first job to another one, whose needs are compared in its
place. -/
def sharedText : String :=
  "a = Job(needs=[b])\nb = Job(needs=a)\nc = Job()\n" ++
    "w = Workflow(jobs=\x7b'x': a, 'y': b\x7d)\nv = Workflow(jobs=\x7b'x': c\x7d)\n"

example : (parse sharedText).toOption.map
      (fun m => (needsMap (.ofText "ci.py" sharedText) m).1.entries) =
    some [("x", []), ("y", ["x"])] := by
  decide +kernel

end WorkflowAudit.Lint
