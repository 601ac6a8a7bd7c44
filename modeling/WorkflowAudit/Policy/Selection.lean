import WorkflowAudit.Config.Settings
import WorkflowAudit.Error
import WorkflowAudit.Policy.Organization
import WorkflowAudit.Policy.Security

/-!
# Selecting policy rules

A preset says for every rule whether it is on. Settings of single rules are laid over it, field
by field and parameter by parameter.
-/

namespace WorkflowAudit

/-- Why settings select no rules. -/
inductive PolicyError where
  | unknownPreset (name : String)
  | unknownRule (id : String)
  | invalidParam (rule param reason : String)
deriving DecidableEq, Repr

namespace Policy

def presets : List String := ["minimal", "standard", "strict"]

end Policy

namespace PolicyError

def message : PolicyError → String
  | .unknownPreset name =>
    s!"Unknown policy preset '{name}' (expected one of: " ++
      String.intercalate ", " Policy.presets ++ ")"
  | .unknownRule id => s!"Unknown policy rule '{id}'"
  | .invalidParam rule param reason => s!"Invalid parameter '{param}' for {rule}: {reason}"

def toAuditError (e : PolicyError) : AuditError := .config e.message

end PolicyError

namespace Policy

/-- The kinds of rules in the order in which they run. -/
inductive RuleKind where
  | requireCheckout
  | requireTimeouts
  | pinActions
  | limitJobCount
  | requireApproval
  | hardcodedSecrets
  | scriptInjection
  | unpinnedActions
  | excessivePermissions
  | missingPermissions
deriving DecidableEq, Repr

namespace RuleKind

def all : List RuleKind := [.requireCheckout, .requireTimeouts, .pinActions, .limitJobCount,
  .requireApproval, .hardcodedSecrets, .scriptInjection, .unpinnedActions,
  .excessivePermissions, .missingPermissions]

/-- The rule of a kind; only the job limit has a parameter. -/
def rule (kind : RuleKind) (maxJobs : Nat) : Rule Workflow :=
  match kind with
  | .requireCheckout => Policy.requireCheckout
  | .requireTimeouts => Policy.requireTimeouts
  | .pinActions => Policy.pinActions
  | .limitJobCount => Policy.limitJobCount maxJobs
  | .requireApproval => Policy.requireApproval
  | .hardcodedSecrets => Policy.hardcodedSecrets
  | .scriptInjection => Policy.scriptInjection
  | .unpinnedActions => Policy.unpinnedActions
  | .excessivePermissions => Policy.excessivePermissions
  | .missingPermissions => Policy.missingPermissions

def id (kind : RuleKind) : String := (kind.rule defaultMaxJobs).id

def ofId? (id : String) : Option RuleKind := all.find? fun kind => kind.id = id

end RuleKind

/-- All rule ids in the order in which rules run. -/
def ruleIds : List String := RuleKind.all.map RuleKind.id

/-- What is selected: each rule with its settings. -/
abbrev Selection := OrderedMap String RuleSettings

/-- Whether a preset switches a rule on. `minimal` keeps the checkout rule and the search for
    secrets, and only `strict` asks for approval. -/
def presetEnables (preset : String) (kind : RuleKind) : Bool :=
  match kind with
  | .requireCheckout | .hardcodedSecrets => true
  | .requireApproval => preset = "strict"
  | _ => preset ≠ "minimal"

/-- Parameters that a preset sets: `strict` allows fewer jobs. -/
def presetParams (preset : String) (kind : RuleKind) : OrderedMap String Json :=
  if preset = "strict" ∧ kind = .limitJobCount then .ofList [("max_jobs", .int 5)] else .empty

/-- The settings of a preset for a rule. -/
def presetSettings (preset : String) (kind : RuleKind) : RuleSettings where
  enabled := some (presetEnables preset kind)
  params := presetParams preset kind

def presetSelection? (preset : String) : Option Selection :=
  if presets.contains preset then
    some (.ofList (RuleKind.all.map fun kind => (kind.id, presetSettings preset kind)))
  else none

/-- Settings laid over others: what they do not mention stays. -/
def overlay (base top : RuleSettings) : RuleSettings where
  enabled := top.enabled <|> base.enabled
  params := top.params.entries.foldl (fun m (k, v) => m.insert k v) base.params

/-- A selection with the settings of one rule laid over. -/
def override (s : Selection) (id : String) (settings : RuleSettings) :
    Except PolicyError Selection :=
  match s.get? id with
  | some current => .ok (s.insert id (overlay current settings))
  | none => .error (.unknownRule id)

def maxJobsParam : String := "max_jobs"

/-- The job limit of some settings; a limit that is set must be a whole number from 0. -/
def jobLimit (settings : RuleSettings) : Except PolicyError Nat :=
  if settings.params.contains maxJobsParam then
    match settings.natParam? maxJobsParam with
    | some n => .ok n
    | none =>
      .error (.invalidParam RuleKind.limitJobCount.id maxJobsParam
        "expected a non-negative integer")
  else .ok defaultMaxJobs

/-- The rule that an id and its settings describe. Parameters are checked also when the rule is
    switched off. -/
def buildRule (id : String) (settings : RuleSettings) : Except PolicyError (Rule Workflow) :=
  match RuleKind.ofId? id with
  | some .limitJobCount => (jobLimit settings).map RuleKind.limitJobCount.rule
  | some kind => .ok (kind.rule defaultMaxJobs)
  | none => .error (.unknownRule id)

/-- The rules of a selection, those that are off disabled. -/
def rulesOf (s : Selection) : Except PolicyError (RuleSet Workflow) := do
  let rules ← s.entries.mapM fun (id, settings) => buildRule id settings
  let off := s.entries.filter fun (_, settings) => settings.enabled = some false
  .ok ⟨rules, off.map Prod.fst⟩

/-- The rules that settings select; `standard` is the preset unless one is named. -/
def select (settings : PolicySettings) : Except PolicyError (RuleSet Workflow) := do
  let preset := settings.preset.getD "standard"
  let base ←
    match presetSelection? preset with
    | some s => .ok s
    | none => .error (.unknownPreset preset)
  let merged ← settings.rules.entries.foldlM (fun s (id, top) => override s id top) base
  rulesOf merged

/-- The rules without any settings: all but the approval rule. -/
def defaultRules : RuleSet Workflow :=
  ⟨RuleKind.all.map (·.rule defaultMaxJobs), [RuleKind.requireApproval.id]⟩

end Policy

end WorkflowAudit
