import WorkflowAudit.Policy.Security
import WorkflowAudit.Proofs.Data.OrderedMap
import WorkflowAudit.Proofs.Text.Digits
import WorkflowAudit.Proofs.Text.Placeholder
import WorkflowAudit.Proofs.Text.Search

/-! # Event data in the expressions of commands

A step is reported exactly when its command has an expression on one line that uses a field which any
contributor can set. What surrounds the expression does not matter, nor does an opening pair that
closes nothing. An expression that goes over a line feed is not looked at.
-/

namespace WorkflowAudit

/-! ## Places of steps -/

namespace Workflow

variable {w : Workflow} {job job' : String} {index index' : Nat} {step step' : Step}

/-- The place of a step tells its job and its index. -/
theorem stepPlace_injective (same : w.stepPlace job index = w.stepPlace job' index') :
    job = job' ∧ index = index' := by
  have spelled : ∀ (job : String) (index : Nat), s!"{w.placeName}/{job}/step {index}".toList =
      (w.placeName.toList ++ '/' :: (job.toList ++ "/step".toList)) ++
        ' ' :: Nat.toDigits 10 index := by
    intro job index
    have parts : s!"{w.placeName}/{job}/step {index}" =
        w.placeName ++ "/" ++ job ++ "/step " ++ index.repr := rfl
    rw [parts]
    simp
  have blank : ∀ n : Nat, ' ' ∉ Nat.toDigits 10 n := by
    intro n member
    exact absurd (Nat.isDigit_of_mem_toDigits (by decide) (by decide) member) (by decide)
  have place := Location.object.inj same
  -- The index is what follows the last blank.
  have digits : Nat.toDigits 10 index = Nat.toDigits 10 index' := by
    rw [← String.ofList_inj, ← Text.afterLast_eq (spelled job index) (blank index), place,
      Text.afterLast_eq (spelled job' index') (blank index')]
  have jobs := congrArg String.toList place
  rw [spelled, spelled, digits, List.append_cancel_right_eq, List.append_cancel_left_eq,
    List.cons_inj_right, List.append_cancel_right_eq] at jobs
  exact ⟨String.toList_inj.mp jobs, Text.toDigits_injective digits⟩

theorem mem_steps_iff : (job, index, step) ∈ w.steps ↔
    ∃ n entry, (job, entry) ∈ w.jobs.entries ∧ entry.steps[n]? = some step ∧ n + 1 = index := by
  simp only [steps, List.mem_flatMap, List.mem_map, Prod.exists, List.mem_zipIdx_iff_getElem?,
    Prod.mk.injEq]
  constructor
  · rintro ⟨id, entry, member, found, n, listed, rfl, rfl, rfl⟩
    exact ⟨n, entry, member, listed, rfl⟩
  · rintro ⟨n, entry, member, listed, rfl⟩
    exact ⟨job, entry, member, step, n, listed, rfl, rfl, rfl⟩

/-- A job has one step at an index. -/
theorem step_unique (first : (job, index, step) ∈ w.steps) (second : (job, index, step') ∈ w.steps) :
    step = step' := by
  obtain ⟨n, entry, member, found, rfl⟩ := mem_steps_iff.mp first
  obtain ⟨n', entry', member', found', place⟩ := mem_steps_iff.mp second
  obtain rfl := OrderedMap.entry_unique member member'
  obtain rfl : n' = n := by omega
  exact Option.some.inj (found.symm.trans found')

end Workflow

namespace Policy

/-- A command uses a field in an expression that is written on one line. -/
def InterpolatesOnLine (command field : String) : Prop :=
  ∃ body, Text.Encloses command.toList body ∧ '\n' ∉ body ∧ field.toList <:+: body

theorem exists_expression_iff {command field : String} :
    (∃ body ∈ Text.expressions command, field.toList <:+: body) ↔ InterpolatesOnLine command field := by
  have listed : ∀ body, body ∈ Text.expressions command ↔
      .expression body ∈ Text.pieces command.toList := by
    intro body
    rw [Text.expressions, List.mem_filterMap]
    constructor
    · rintro ⟨piece, member, same⟩
      cases piece with
      | plain c => cases same
      | expression found => cases same; exact member
    · exact fun member => ⟨_, member, rfl⟩
  simp only [listed]
  constructor
  · rintro ⟨body, member, used⟩
    obtain ⟨encloses, line⟩ := Text.encloses_of_mem_pieces member
    exact ⟨body, encloses, line, used⟩
  · rintro ⟨body, encloses, line, used⟩
    obtain ⟨whole, member, suffix⟩ := Text.exists_expression_of_encloses encloses line
    exact ⟨whole, member, used.trans suffix.isInfix⟩

theorem isSome_injectedField?_iff {command : String} :
    (injectedField? command).isSome = true ↔
      ∃ field ∈ userControlledFields, InterpolatesOnLine command field := by
  simp only [injectedField?, List.findSome?_isSome_iff, List.find?_isSome, Text.occursIn_iff,
    ← exists_expression_iff]
  constructor
  · rintro ⟨body, member, field, controlled, used⟩
    exact ⟨field, controlled, body, member, used⟩
  · rintro ⟨field, controlled, body, member, used⟩
    exact ⟨body, member, field, controlled, used⟩

theorem interpolates_of_injectedField? {command field : String}
    (found : injectedField? command = some field) :
    field ∈ userControlledFields ∧ InterpolatesOnLine command field := by
  obtain ⟨body, member, found⟩ := List.exists_of_findSome?_eq_some found
  have used : Text.occursIn field.toList body = true := by simpa using List.find?_some found
  exact ⟨List.mem_of_find?_eq_some found,
    exists_expression_iff.mp ⟨body, member, Text.occursIn_iff.mp used⟩⟩

/-- What a report says of a field. -/
def injectionMessage (field : String) : String :=
  s!"Unsafe use of '{field}' in run command. User-controlled input may allow script injection."

theorem mem_evaluate_scriptInjection {w : Workflow} {v : Violation} :
    v ∈ scriptInjection.evaluate w ↔ ∃ job index step command field,
      (job, index, step) ∈ w.steps ∧ step.run = some command ∧ injectedField? command = some field ∧
        v = ⟨"script_injection", .high, injectionMessage field, w.stepPlace job index,
          some "Use environment variables to pass user input safely, or sanitize the input before use."⟩ := by
  simp only [scriptInjection, securityCheck, List.mem_map, List.mem_filterMap, Prod.exists,
    Option.bind_eq_bind, Option.bind_eq_some_iff, Option.some.injEq, Prod.mk.injEq]
  constructor
  · rintro ⟨message, location, hint, ⟨job, index, step, member, command, run, field, found, rfl, rfl,
      rfl⟩, rfl⟩
    exact ⟨job, index, step, command, field, member, run, found, rfl⟩
  · rintro ⟨job, index, step, command, field, member, run, found, rfl⟩
    exact ⟨_, _, _, ⟨job, index, step, member, command, run, field, found, rfl, rfl, rfl⟩, rfl⟩

section

variable {w : Workflow} {job : String} {index : Nat} {step : Step}

/-- A report of a step names a field that its command uses. -/
theorem names_of_mem_evaluate (member : (job, index, step) ∈ w.steps) {v : Violation}
    (reported : v ∈ scriptInjection.evaluate w) (place : v.location = w.stepPlace job index) :
    ∃ command, step.run = some command ∧ ∃ field ∈ userControlledFields,
      InterpolatesOnLine command field ∧ v.message = injectionMessage field := by
  obtain ⟨job', index', step', command, field, member', run, found, rfl⟩ :=
    mem_evaluate_scriptInjection.mp reported
  obtain ⟨rfl, rfl⟩ := Workflow.stepPlace_injective place
  obtain rfl := Workflow.step_unique member member'
  obtain ⟨controlled, used⟩ := interpolates_of_injectedField? found
  exact ⟨command, run, field, controlled, used, rfl⟩

/-- A step is reported exactly when its command uses a field that any contributor can set in an
expression on one line, and a report names such a field. -/
theorem scriptInjection_reports (member : (job, index, step) ∈ w.steps) :
    ((∃ v ∈ scriptInjection.evaluate w, v.location = w.stepPlace job index) ↔
      ∃ command, step.run = some command ∧
        ∃ field ∈ userControlledFields, InterpolatesOnLine command field) ∧
    ∀ v ∈ scriptInjection.evaluate w, v.location = w.stepPlace job index →
      ∃ command, step.run = some command ∧ ∃ field ∈ userControlledFields,
        InterpolatesOnLine command field ∧ v.message = injectionMessage field := by
  refine ⟨⟨?_, ?_⟩, fun v reported place => names_of_mem_evaluate member reported place⟩
  · rintro ⟨v, reported, place⟩
    obtain ⟨command, run, field, controlled, used, -⟩ := names_of_mem_evaluate member reported place
    exact ⟨command, run, field, controlled, used⟩
  · rintro ⟨command, run, used⟩
    obtain ⟨field, found⟩ := Option.isSome_iff_exists.mp (isSome_injectedField?_iff.mpr used)
    exact ⟨_, mem_evaluate_scriptInjection.mpr
      ⟨job, index, step, command, field, member, run, found, rfl⟩, rfl⟩

end

/-- An opening pair that is closed only behind a second one on the next line. -/
def triageCommand : String :=
  "echo $\x7b\x7b\necho $\x7b\x7b format('\x7b0\x7d', github.event.issue.title) \x7d\x7d $\x7b\x7b github.actor \x7d\x7d"

def triageWorkflow : Workflow :=
  { jobs := .ofList [("triage", { steps := [{ run := some triageCommand }] })] }

theorem scriptInjection_reports_triage :
    ("triage", 1, { run := some triageCommand : Step }) ∈ triageWorkflow.steps ∧
      ∃ v ∈ scriptInjection.evaluate triageWorkflow,
        v.location = triageWorkflow.stepPlace "triage" 1 := by
  have member : ("triage", 1, { run := some triageCommand : Step }) ∈ triageWorkflow.steps :=
    Workflow.mem_steps_iff.mpr ⟨0, _, List.mem_singleton.mpr rfl, rfl, rfl⟩
  have used : InterpolatesOnLine triageCommand "github.event.issue.title" :=
    exists_expression_iff.mp (by decide +kernel)
  exact ⟨member, (scriptInjection_reports member).1.mpr
    ⟨triageCommand, rfl, "github.event.issue.title", by decide, used⟩⟩

/-- A line feed between the pairs hides the same field. -/
example : injectedField? "echo $\x7b\x7b\n  github.event.issue.title\n\x7d\x7d" = none := by
  decide +kernel

end Policy

end WorkflowAudit
