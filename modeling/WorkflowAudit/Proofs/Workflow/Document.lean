import WorkflowAudit.Proofs.Data.Json.Keeping
import WorkflowAudit.Workflow.Document

/-! # Documents of workflows

Reading is lenient and writing is not: array forms, single needs, nulls, repeated keys and environment
values that are no text are all accepted, and each is written in one way. What was read is read again
from what is written, so a document that was written is a fixed point.
-/

namespace WorkflowAudit

open Decoder

namespace WorkflowDocument

variable {ε α : Type} [Malformed ε] {levels : Nat}

/-! ## Members that may be left out -/

/-- A map as it is written in a record: not at all when it is empty. -/
def mapValue (f : α → Json) (m : OrderedMap String α) : Option Json :=
  if m.isEmpty then none else some (mapJson f m)

def listValue (f : α → Json) (as : List α) : Option Json :=
  if as.isEmpty then none else some (.arr (as.map f))

theorem mapMember_eq (name : String) (f : α → Json) (m : OrderedMap String α) :
    mapMember name f m = optionalMember name (mapValue f m) := by
  rw [mapMember, mapValue]
  split <;> rfl

theorem listMember_eq (name : String) (f : α → Json) (as : List α) :
    listMember name (as.map f) = optionalMember name (listValue f as) := by
  cases as <;> rfl

theorem eq_empty_of_mapValue {f : α → Json} {m : OrderedMap String α}
    (absent : mapValue f m = none) : m = .empty := by
  rw [mapValue] at absent
  split at absent
  · rename_i empty
    exact OrderedMap.ext_entries (List.isEmpty_iff.mp empty)
  · cases absent

theorem eq_nil_of_listValue {f : α → Json} {as : List α} (absent : listValue f as = none) :
    as = [] := by
  cases as
  · rfl
  · cases absent

theorem eq_none_of_map {f : α → Json} {o : Option α} (absent : o.map f = none) : o = none :=
  Option.map_eq_none_iff.mp absent

theorem stable_mapValue {item : Decoder ε α} {f : α → Json}
    (stable : Stable item (fun a => some (f a)) (levels - 1)) :
    Stable (map item) (mapValue f) levels := by
  refine (stable_map stable).sometimes fun m v written => ?_
  rw [mapValue] at written
  split at written
  · cases written
  · exact written

theorem stable_listValue {item : Decoder ε α} {f : α → Json}
    (stable : Stable item (fun a => some (f a)) (levels - 1)) :
    Stable (list item) (listValue f) levels := by
  refine (stable_list stable).sometimes fun as v written => ?_
  rw [listValue] at written
  split at written
  · cases written
  · exact written

theorem stable_text : Stable (optional (string : Decoder ε String)) (Option.map .str) levels :=
  stable_optional_some stable_string fun _ null => nomatch null

/-! ## Environments, needs and permissions -/

theorem reads_texts (more : 1 < levels) (m : OrderedMap String String) :
    Reads (map (string : Decoder ε String)) levels (mapJson .str m) m :=
  reads_map more fun e _ => reads_string e.2

/-- Texts are read as JSON first, and are taken as they are. -/
theorem stable_env (more : 1 < levels) : Stable env (mapValue .str) levels := by
  rintro - m - - v written
  rw [mapValue] at written
  split at written
  · cases written
  · cases written
    have read : Reads (map (json : Decoder WorkflowError Json)) levels (mapJson .str m)
        (m.mapValues fun _ s => .str s) := by
      have read : ∀ e ∈ (m.mapValues fun _ s => Json.str s).entries,
          Reads (json : Decoder WorkflowError Json) (levels - 1) (id e.2) e.2 := by
        rintro e member
        obtain ⟨e, -, rfl⟩ := List.mem_map.mp member
        exact ⟨trivial, rfl⟩
      simpa [mapJson, OrderedMap.mapValues, Function.comp_def] using reads_map more read
    have texts : (m.mapValues fun _ s => Json.str s).mapValues (fun _ v => envText v) = m :=
      OrderedMap.ext_entries (by simp [OrderedMap.mapValues, envText, Function.comp_def])
    refine ⟨read.1, ?_⟩
    show (some <$> map json levels (mapJson .str m).syntaxOf) >>= _ = _
    rw [read.2]
    exact congrArg Except.ok texts

theorem reads_buffered {decoder : Decoder WorkflowError α} {v : Json} {a : α}
    (readable : (json? levels v.syntaxOf).isSome = true) (reads : Reads decoder levels v a) :
    Reads (buffered decoder) levels v a := by
  obtain ⟨found, same⟩ := Option.isSome_iff_exists.mp readable
  refine ⟨reads.1, ?_⟩
  simp only [buffered, json, same]
  exact reads.2

/-- One name and a list of names are both written as a list. -/
theorem stable_needs (more : 1 < levels) : Stable needs (listValue .str) levels := by
  rintro - names - - v written
  rw [listValue] at written
  split at written
  · cases written
  · cases written
    have free : Json.Free levels (.arr (names.map .str)) := by
      refine Json.free_arr more fun v member => ?_
      obtain ⟨name, -, rfl⟩ := List.mem_map.mp member
      exact Json.free_str _ name
    have read : Reads (list (string : Decoder WorkflowError String)) levels (.arr (names.map .str))
        names := reads_list more fun name _ => reads_string name
    refine reads_buffered (by rw [free.2]; rfl) ⟨read.1, ?_⟩
    exact read.2

theorem stable_permissions (more : 1 < levels) :
    Stable permissions (fun p => some (permissionsJson p)) levels := by
  rintro - p - - v written
  cases written
  cases p with
  | readAll => exact reads_buffered rfl ⟨trivial, rfl⟩
  | writeAll => exact reads_buffered rfl ⟨trivial, rfl⟩
  | scopes grants =>
      have free : ∀ f ∈ grants.entries.map fun e => (e.1, Json.str e.2),
          Json.Free (levels - 1) f.2 := by
        rintro f member
        obtain ⟨e, -, rfl⟩ := List.mem_map.mp member
        exact Json.free_str _ e.2
      have read : Reads (map (string : Decoder WorkflowError String)) levels _ grants :=
        reads_texts more grants
      refine reads_buffered ?_ ⟨read.1, ?_⟩
      · simp only [permissionsJson, mapJson, Json.syntaxOf, json?, Nat.not_le.mpr more, if_false,
          Json.jsonMembers?_of_free free, Option.map_some, Option.isSome_some]
      · show Permissions.scopes <$> map string levels (mapJson .str grants).syntaxOf = _
        rw [read.2]
        rfl

/-! ## Steps, jobs and workflows -/

/-- A text is kept. -/
def KeptText (levels : Nat) (o : Option String) : Prop :=
  Kept (optional string : Decoder WorkflowError _) (Option.map .str) levels o

/-- A free value is kept. -/
def KeptJson (levels : Nat) (o : Option Json) : Prop :=
  Kept (optional json : Decoder WorkflowError _) id levels o

/-- A map of free values is kept. -/
def KeptValues (levels : Nat) (m : OrderedMap String Json) : Prop :=
  Kept (map json : Decoder WorkflowError _) (mapValue id) levels m

def KeptEnv (levels : Nat) (m : OrderedMap String String) : Prop :=
  Kept env (mapValue .str) levels m

/-- Every value of a step is kept. -/
structure StepKept (levels : Nat) (s : Step) : Prop where
  name : KeptText levels s.name
  id : KeptText levels s.id
  uses : KeptText levels s.uses
  run : KeptText levels s.run
  inputs : KeptValues levels s.inputs
  env : KeptEnv levels s.env
  condition : KeptText levels s.condition

theorem stable_step (more : 2 < levels) : Stable step (fun s => some (stepJson s)) levels := by
  have inner : 1 < levels - 1 := by omega
  refine stable_record (P := StepKept (levels - 1)) (by decide) ?_ ?_ fun s kept => ?_
  · constructor <;> exact fun v none => nomatch none
  · simp only [List.forall_mem_cons, List.not_mem_nil, false_implies, implies_true, and_true]
    exact ⟨preserves_of stable_text fun s v kept held => { kept with name := held },
      preserves_of stable_text fun s v kept held => { kept with id := held },
      preserves_of stable_text fun s v kept held => { kept with uses := held },
      preserves_of stable_text fun s v kept held => { kept with run := held },
      preserves_of (stable_mapValue stable_json) fun s v kept held => { kept with inputs := held },
      preserves_of (stable_env inner) fun s v kept held => { kept with env := held },
      preserves_of stable_text fun s v kept held => { kept with condition := held }⟩
  · refine ⟨[textMember "name" s.name, textMember "id" s.id, textMember "uses" s.uses,
      textMember "run" s.run, mapMember "with" id s.inputs, mapMember "env" .str s.env,
      textMember "if" s.condition], by simp [stepJson], ?_⟩
    simp only [mapMember_eq]
    exact .cons (given_of eq_none_of_map rfl kept.name) <|
      .cons (given_of eq_none_of_map rfl kept.id) <|
      .cons (given_of eq_none_of_map rfl kept.uses) <|
      .cons (given_of eq_none_of_map rfl kept.run) <|
      .cons (given_of eq_empty_of_mapValue rfl kept.inputs) <|
      .cons (given_of eq_empty_of_mapValue rfl kept.env) <|
      .cons (given_of eq_none_of_map rfl kept.condition) .nil

/-- Every value of a job is kept. -/
structure JobKept (levels : Nat) (j : Job) : Prop where
  name : KeptText levels j.name
  runsOn : KeptJson levels j.runsOn
  needs : Kept needs (listValue .str) levels j.needs
  steps : Kept (list step) (listValue stepJson) levels j.steps
  timeoutMinutes : Kept (optional (natBelow UInt32.size) : Decoder WorkflowError _)
    (Option.map .nat) levels j.timeoutMinutes
  environment : KeptJson levels j.environment
  permissions : Kept (optional permissions) (Option.map permissionsJson) levels j.permissions
  env : KeptEnv levels j.env
  outputs : Kept (map string : Decoder WorkflowError _) (mapValue .str) levels j.outputs
  strategy : KeptJson levels j.strategy
  uses : KeptText levels j.uses
  condition : KeptText levels j.condition

theorem stable_optional_permissions (more : 1 < levels) :
    Stable (optional permissions) (Option.map permissionsJson) levels :=
  stable_optional_some (stable_permissions more) fun p null => by cases p <;> cases null

theorem stable_job (more : 4 < levels) : Stable job (fun j => some (jobJson j)) levels := by
  have inner : 1 < levels - 1 := by omega
  have innermost : 2 < levels - 1 - 1 := by omega
  have stable_timeout : Stable (optional (natBelow UInt32.size) : Decoder WorkflowError _)
      (Option.map .nat) (levels - 1) :=
    stable_optional_some (stable_natBelow (by decide)) fun _ null => nomatch null
  refine stable_record (P := JobKept (levels - 1)) (by decide) ?_ ?_ fun j kept => ?_
  · constructor <;> exact fun v none => nomatch none
  · simp only [List.forall_mem_cons, List.not_mem_nil, false_implies, implies_true, and_true]
    exact ⟨preserves_of stable_text fun j v kept held => { kept with name := held },
      preserves_of stable_optional_json fun j v kept held => { kept with runsOn := held },
      preserves_of (stable_needs inner) fun j v kept held => { kept with needs := held },
      preserves_of (stable_listValue (stable_step innermost)) fun j v kept held =>
        { kept with steps := held },
      preserves_of stable_timeout fun j v kept held => { kept with timeoutMinutes := held },
      preserves_of stable_optional_json fun j v kept held => { kept with environment := held },
      preserves_of (stable_optional_permissions inner) fun j v kept held =>
        { kept with permissions := held },
      preserves_of (stable_env inner) fun j v kept held => { kept with env := held },
      preserves_of (stable_mapValue stable_string) fun j v kept held =>
        { kept with outputs := held },
      preserves_of stable_optional_json fun j v kept held => { kept with strategy := held },
      preserves_of stable_text fun j v kept held => { kept with uses := held },
      preserves_of stable_text fun j v kept held => { kept with condition := held }⟩
  · refine ⟨[textMember "name" j.name, optionalMember "runs-on" j.runsOn,
      listMember "needs" (j.needs.map .str), listMember "steps" (j.steps.map stepJson),
      optionalMember "timeout-minutes" (j.timeoutMinutes.map .nat),
      optionalMember "environment" j.environment,
      optionalMember "permissions" (j.permissions.map permissionsJson),
      mapMember "env" .str j.env, mapMember "outputs" .str j.outputs,
      optionalMember "strategy" j.strategy, textMember "uses" j.uses,
      textMember "if" j.condition], by simp [jobJson], ?_⟩
    simp only [mapMember_eq, listMember_eq]
    exact .cons (given_of eq_none_of_map rfl kept.name) <|
      .cons (given_of id rfl kept.runsOn) <|
      .cons (given_of eq_nil_of_listValue rfl kept.needs) <|
      .cons (given_of eq_nil_of_listValue rfl kept.steps) <|
      .cons (given_of eq_none_of_map rfl kept.timeoutMinutes) <|
      .cons (given_of id rfl kept.environment) <|
      .cons (given_of eq_none_of_map rfl kept.permissions) <|
      .cons (given_of eq_empty_of_mapValue rfl kept.env) <|
      .cons (given_of eq_empty_of_mapValue rfl kept.outputs) <|
      .cons (given_of id rfl kept.strategy) <|
      .cons (given_of eq_none_of_map rfl kept.uses) <|
      .cons (given_of eq_none_of_map rfl kept.condition) .nil

/-- Every value of a workflow is kept. What is always written must have been given. -/
structure WorkflowKept (levels : Nat) (w : Workflow) : Prop where
  name : Kept (string : Decoder WorkflowError _) (fun s => some (.str s)) levels w.name
  triggers : Kept (map json : Decoder WorkflowError _) (fun m => some (mapJson id m)) levels
    w.triggers
  env : KeptEnv levels w.env
  permissions : Kept (optional permissions) (Option.map permissionsJson) levels w.permissions
  jobs : Kept (map job) (fun m => some (mapJson jobJson m)) levels w.jobs

theorem reads_empty {item : Decoder ε α} {f : α → Json} (more : 1 < levels) :
    Reads (map item) levels (mapJson f .empty) .empty :=
  reads_map more fun _ none => nomatch none

theorem stable_workflow (more : 6 < levels) :
    Stable workflow (fun w => some (workflowJson w)) levels := by
  have inner : 1 < levels - 1 := by omega
  have innermost : 4 < levels - 1 - 1 := by omega
  refine stable_record (P := WorkflowKept (levels - 1)) (by decide) ?_ ?_ fun w kept => ?_
  · exact ⟨kept_some (reads_string _), kept_some (reads_empty inner), (fun v none => nomatch none),
      (fun v none => nomatch none), kept_some (reads_empty inner)⟩
  · simp only [List.forall_mem_cons, List.not_mem_nil, false_implies, implies_true, and_true]
    exact ⟨preserves_of stable_string fun w v kept held => { kept with name := held },
      preserves_of (stable_map stable_json) fun w v kept held => { kept with triggers := held },
      preserves_of (stable_env inner) fun w v kept held => { kept with env := held },
      preserves_of (stable_optional_permissions inner) fun w v kept held =>
        { kept with permissions := held },
      preserves_of (stable_map (stable_job innermost)) fun w v kept held =>
        { kept with jobs := held }⟩
  · refine ⟨[[("name", .str w.name)], [("on", mapJson id w.triggers)], mapMember "env" .str w.env,
      optionalMember "permissions" (w.permissions.map permissionsJson),
      [("jobs", mapJson jobJson w.jobs)]], by simp [workflowJson], ?_⟩
    simp only [mapMember_eq]
    exact .cons (given_some (kept.name _ rfl)) <|
      .cons (given_some (kept.triggers _ rfl)) <|
      .cons (given_of eq_empty_of_mapValue rfl kept.env) <|
      .cons (given_of eq_none_of_map rfl kept.permissions) <|
      .cons (given_some (kept.jobs _ rfl)) .nil

end WorkflowDocument

/-! ## Documents -/

namespace Workflow

/-- A workflow that was read from a document with whole numbers is read again from the document that
is written for it, and that document is written again. -/
theorem ofDocument_toDocument {text : String} {w : Workflow}
    (whole : (Document.read text).1.isWhole = true) (found : ofDocument text = .ok w) :
    ∃ again, ofDocument w.toDocument = .ok again ∧ again = w ∧
      again.toDocument = w.toDocument := by
  rw [ofDocument, run] at found
  generalize Document.read text = read at whole found
  obtain ⟨v, taken, found⟩ := ok_of_bind found
  cases complete : read.2 with
  | false => simp [complete, fail] at found
  | true =>
      simp only [complete, if_true] at found
      cases found
      obtain ⟨wholeAgain, again⟩ :=
        WorkflowDocument.stable_workflow (by decide) _ _ whole taken _ rfl
      refine ⟨w, ?_, rfl, rfl⟩
      rw [ofDocument, run, toDocument, Document.read_compact wholeAgain]
      simp only [again]
      rfl

/-- A document with a repeated trigger, a word for its permissions, and a job that needs one name, has
a number in its environment and a step given as an array. -/
def lenientText : String :=
  "\x7b\"name\":\"CI\",\"on\":\x7b\"push\":1,\"push\":\x7b\"b\":[],\"a\":null\x7d\x7d,\"permissions\":\"read-all\"," ++
    "\"jobs\":\x7b\"t\":\x7b\"needs\":\"b\",\"env\":\x7b\"N\":3\x7d,\"steps\":[[\"S\"]]\x7d\x7d\x7d"

/-- The same document as it is written. -/
def lenientForm : String :=
  "\x7b\"name\":\"CI\",\"on\":\x7b\"push\":\x7b\"a\":null,\"b\":[]\x7d\x7d,\"permissions\":\"read-all\"," ++
    "\"jobs\":\x7b\"t\":\x7b\"needs\":[\"b\"],\"steps\":[\x7b\"name\":\"S\"\x7d],\"env\":\x7b\"N\":\"3\"\x7d\x7d\x7d\x7d"

theorem ofDocument_toDocument_lenientText :
    (Document.read lenientText).1.isWhole = true ∧
    ∃ w, ofDocument lenientText = .ok w ∧ w.toDocument = lenientForm ∧
      ∃ again, ofDocument w.toDocument = .ok again ∧ again = w ∧
        again.toDocument = w.toDocument := by
  obtain ⟨whole, written⟩ : (Document.read lenientText).1.isWhole = true ∧
      (ofDocument lenientText).toOption.map toDocument = some lenientForm := by decide +kernel
  cases read : ofDocument lenientText with
  | error e => simp [read, Except.toOption] at written
  | ok w =>
      have form : w.toDocument = lenientForm := by simpa [read, Except.toOption] using written
      exact ⟨whole, w, rfl, form, ofDocument_toDocument whole read⟩

end Workflow

end WorkflowAudit
