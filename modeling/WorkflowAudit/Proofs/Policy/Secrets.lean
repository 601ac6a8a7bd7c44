import WorkflowAudit.Proofs.Policy.Credentials

/-! # Credentials on the two sides of an expression

The check of resolved workflows blanks each expression of a text before it looks for credentials. A
credential in one of the stretches between expressions is always reported. Nothing else is, except
that a pattern with room for white space can take the blank for it and so match across an expression.
-/

namespace WorkflowAudit.Policy

open Text

/-! ## What is looked at -/

/-- A text that the check looks at, and how a report names it. -/
structure SecretSite where
  place : String
  location : Location
  text : String

def envSites (env : OrderedMap String String) (location : Location) : List SecretSite :=
  env.entries.map fun (key, value) => ⟨s!"environment variable '{key}'", location, value⟩

def stepSites (step : Step) (location : Location) : List SecretSite :=
  (step.run.map fun command => ⟨"run command", location, command⟩).toList ++
    envSites step.env location

def jobSites (w : Workflow) (id : String) (job : Job) : List SecretSite :=
  envSites job.env (w.jobPlace id) ++ job.steps.zipIdx.flatMap fun (step, index) =>
    stepSites step (w.stepPlace id (index + 1))

/-- The texts of a workflow in the order of the check: its own variables, then job by job those of the
job and the command and variables of each step. -/
def secretSites (w : Workflow) : List SecretSite :=
  envSites w.env w.place ++ w.jobs.entries.flatMap fun (id, job) => jobSites w id job

/-- What the check says of a text. -/
def SecretSite.report? (site : SecretSite) : Option Violation :=
  (secretKind? site.text).map fun kind =>
    ⟨"hardcoded_secrets", .critical, s!"Possible {kind} found in {site.place}", site.location,
      some secretsHint⟩

/-- A finding as the violation that is made of it. -/
def secretViolation : String × Location × String → Violation
  | (message, location, hint) => ⟨"hardcoded_secrets", .critical, message, location, some hint⟩

theorem map_envSecrets (env : OrderedMap String String) (location : Location) :
    (envSecrets env location).map secretViolation =
      (envSites env location).filterMap SecretSite.report? := by
  rw [envSecrets, envSites, List.map_filterMap, List.filterMap_map]
  refine List.filterMap_congr fun entry _ => ?_
  obtain ⟨key, value⟩ := entry
  cases found : secretKind? value <;> simp [SecretSite.report?, found, secretFinding, secretViolation]

theorem map_stepSecrets (step : Step) (location : Location) :
    (runSecrets step location ++ envSecrets step.env location).map secretViolation =
      (stepSites step location).filterMap SecretSite.report? := by
  rw [stepSites, List.map_append, List.filterMap_append, map_envSecrets]
  congr 1
  cases run : step.run with
  | none => simp [runSecrets, run]
  | some command =>
      cases found : secretKind? command <;>
        simp [runSecrets, run, SecretSite.report?, found, secretFinding, secretViolation]

theorem map_jobSecrets (w : Workflow) (id : String) (job : Job) :
    (jobSecrets w id job).map secretViolation =
      (jobSites w id job).filterMap SecretSite.report? := by
  rw [jobSecrets, jobSites, List.map_append, List.filterMap_append, map_envSecrets, List.map_flatMap,
    List.filterMap_flatMap]
  congr 1
  exact List.flatMap_congr fun _ _ => map_stepSecrets _ _

/-- The check reports its texts in order. -/
theorem evaluate_hardcodedSecrets (w : Workflow) :
    hardcodedSecrets.evaluate w = (secretSites w).filterMap SecretSite.report? := by
  have findings : hardcodedSecrets.evaluate w =
      (envSecrets w.env w.place ++
        w.jobs.entries.flatMap fun (id, job) => jobSecrets w id job).map secretViolation := rfl
  rw [findings, secretSites, List.map_append, List.filterMap_append, map_envSecrets,
    List.map_flatMap, List.filterMap_flatMap]
  congr 1
  exact List.flatMap_congr fun _ _ => map_jobSecrets _ _ _

/-! ## Matches across expressions -/

/-- A match of a pattern that runs from a character before an expression to one after it, with a blank
for each expression between them. -/
def Bridges (p : Pattern) (text : String) : Prop :=
  ∃ first between last body, .plain first :: between ++ [.plain last] <:+: pieces text.toList ∧
    .expression body ∈ between ∧ p.Accepts (first :: between.map Piece.blanked ++ [last])

/-- The kinds of credentials whose patterns have room for white space. -/
def spacedKinds : List String := ["API key", "password", "AWS secret key", "token", "private key"]

theorem bounds_of_patterns : ∀ entry ∈ Credential.patterns, entry.1.isNullable = false ∧
    entry.1.mayBegin ' ' = false ∧ entry.1.mayEnd ' ' = false := by
  decide +kernel

theorem mem_spacedKinds_of_mayHold : ∀ entry ∈ Credential.patterns,
    entry.1.mayHold ' ' = true → entry.2 ∈ spacedKinds := by
  decide +kernel

section Window

variable {p : Pattern} {text : String} {window : List Piece}

/-- A match without an expression stands in one stretch. -/
theorem exists_stretch_of_plain (accepted : p.Accepts (window.map Piece.blanked))
    (inside : window <:+: pieces text.toList) (plain : ∀ piece ∈ window, ¬ piece.IsExpression) :
    ∃ cs, IsMaximalStretch cs text ∧ (p.find? (String.ofList cs)).isSome = true := by
  have same := Piece.map_plain_flatMap_chars fun piece member =>
    Piece.exists_eq_plain_of_not_isExpression (plain piece member)
  rw [← same] at inside accepted
  rw [Piece.map_blanked_plain] at accepted
  obtain ⟨cs, maximal, within⟩ := IsStretch.exists_maximal inside
  exact ⟨cs, maximal, Pattern.isSome_find?_iff.mpr ⟨_, accepted, by simpa using within⟩⟩

/-- A match with an expression has characters on both sides of it, since none begins or ends with a
blank. -/
theorem bridges_of_expression {body : List Char}
    (begins : p.mayBegin ' ' = false) (ends : p.mayEnd ' ' = false)
    (accepted : p.Accepts (window.map Piece.blanked)) (inside : window <:+: pieces text.toList)
    (member : .expression body ∈ window) : Bridges p text := by
  cases window with
  | nil => cases member
  | cons head rest =>
      cases head with
      | expression _ =>
          cases begins.symm.trans (Pattern.mayBegin_of_accepts accepted)
      | plain first =>
          replace member := List.mem_of_ne_of_mem Piece.noConfusion member
          rcases List.eq_nil_or_concat' rest with rfl | ⟨between, tail, rfl⟩
          · cases member
          · cases tail with
            | expression _ =>
                have blanked : p.Accepts (first :: between.map Piece.blanked ++ [' ']) := by
                  simpa [Piece.blanked] using accepted
                cases ends.symm.trans (Pattern.mayEnd_of_accepts blanked)
            | plain last =>
                refine ⟨first, between, last, body, inside, ?_, ?_⟩
                · simpa using member
                · simpa [Piece.blanked] using accepted

end Window

/-- What is found in a text once its expressions are blanked. -/
theorem occursIn_withoutExpressions_iff {text : String} :
    Credential.OccursIn (withoutExpressions text) ↔
      (∃ cs, IsMaximalStretch cs text ∧ Credential.OccursIn (String.ofList cs)) ∨
        ∃ entry ∈ Credential.patterns, entry.2 ∈ spacedKinds ∧ Bridges entry.1 text := by
  constructor
  · intro occurs
    obtain ⟨entry, listed, found⟩ := Credential.occursIn_iff.mp occurs
    obtain ⟨part, accepted, within⟩ := Pattern.isSome_find?_iff.mp found
    rw [toList_withoutExpressions] at within
    -- The match stands for a run of pieces, with or without an expression among them.
    obtain ⟨window, inside, rfl⟩ := List.infix_map_iff.mp within
    by_cases bridged : ∃ body, Piece.expression body ∈ window
    · obtain ⟨body, member⟩ := bridged
      obtain ⟨-, begins, ends⟩ := bounds_of_patterns entry listed
      have blank : ' ' ∈ window.map Piece.blanked := List.mem_map_of_mem member
      exact .inr ⟨entry, listed,
        mem_spacedKinds_of_mayHold entry listed (Pattern.mayHold_of_mem accepted blank),
        bridges_of_expression begins ends accepted inside member⟩
    · have plain : ∀ piece ∈ window, ¬ piece.IsExpression := by
        rintro (c | body) member
        · exact id
        · exact fun _ => bridged ⟨body, member⟩
      obtain ⟨cs, maximal, alone⟩ := exists_stretch_of_plain accepted inside plain
      exact .inl ⟨cs, maximal, Credential.occursIn_iff.mpr ⟨entry, listed, alone⟩⟩
  · rintro (⟨cs, maximal, occurs⟩ | ⟨entry, listed, -, bridge⟩)
    · exact occurs.of_infix (by simpa using maximal.isStretch.infix_withoutExpressions)
    · obtain ⟨first, between, last, body, inside, -, accepted⟩ := bridge
      refine Credential.occursIn_iff.mpr ⟨entry, listed, Pattern.isSome_find?_iff.mpr
        ⟨_, accepted, ?_⟩⟩
      rw [toList_withoutExpressions]
      simpa [Piece.blanked] using inside.map Piece.blanked

/-- The check reports a command or variable exactly when one of its stretches outside expressions
holds a credential on its own, or one of the patterns with room for white space matches across an
expression. -/
theorem hardcodedSecrets_reports (w : Workflow) :
    hardcodedSecrets.evaluate w = (secretSites w).filterMap SecretSite.report? ∧
    ∀ site ∈ secretSites w, (site.report?.isSome = true ↔
      (∃ cs, IsMaximalStretch cs site.text ∧ Credential.OccursIn (String.ofList cs)) ∨
        ∃ entry ∈ Credential.patterns, entry.2 ∈ spacedKinds ∧ Bridges entry.1 site.text) := by
  refine ⟨evaluate_hardcodedSecrets w, fun site _ => ?_⟩
  rw [← occursIn_withoutExpressions_iff]
  simp [SecretSite.report?, secretKind?, Credential.OccursIn]

/-- The flag behind an expression passes for the password in front of it. -/
example : secretKind? "deploy --password=$\x7b\x7b secrets.PW \x7d\x7d --environment=prod" =
      some "password" ∧
    ¬ Credential.OccursIn "deploy --password=" ∧ ¬ Credential.OccursIn " --environment=prod" := by
  decide +kernel

end WorkflowAudit.Policy
