import WorkflowAudit.Action.Pin
import WorkflowAudit.Credential
import WorkflowAudit.Policy.Place
import WorkflowAudit.Rule
import WorkflowAudit.Text.Placeholder

/-!
# Security checks of resolved workflows
-/

namespace WorkflowAudit.Policy

/-- A check that reports messages, each with a hint. -/
def securityCheck (id description : String) (severity : Severity)
    (findings : Workflow → List (String × Location × String)) : Rule Workflow where
  id := id
  description := description
  category := .security
  severity := severity
  evaluate w := (findings w).map fun (message, location, hint) =>
    ⟨id, severity, message, location, some hint⟩
  fix? := none

/-! ## Secrets -/

/-- The kind of credential that a text holds outside expressions. -/
def secretKind? (text : String) : Option String :=
  (Credential.find? (Text.withoutExpressions text)).map (·.kind)

def secretsHint : String :=
  "Use GitHub Secrets to store sensitive values. Access them via $\x7b\x7b secrets.SECRET_NAME \x7d\x7d"

def secretFinding (place kind : String) (location : Location) : String × Location × String :=
  (s!"Possible {kind} found in {place}", location, secretsHint)

def envSecrets (env : OrderedMap String String) (location : Location) :
    List (String × Location × String) :=
  env.entries.filterMap fun (key, value) =>
    (secretKind? value).map fun kind =>
      secretFinding s!"environment variable '{key}'" kind location

def runSecrets (step : Step) (location : Location) : List (String × Location × String) :=
  ((step.run.bind secretKind?).map fun kind => secretFinding "run command" kind location).toList

def jobSecrets (w : Workflow) (id : String) (job : Job) : List (String × Location × String) :=
  envSecrets job.env (w.jobPlace id) ++ job.steps.zipIdx.flatMap fun (step, index) =>
    let location := w.stepPlace id (index + 1)
    runSecrets step location ++ envSecrets step.env location

def hardcodedSecrets : Rule Workflow :=
  securityCheck "hardcoded_secrets"
    "No secrets should be hardcoded in run commands or environment values" .critical fun w =>
      envSecrets w.env w.place ++ w.jobs.entries.flatMap fun (id, job) => jobSecrets w id job

/-! ## Injection -/

/-- Fields of an event that any contributor can set. -/
def userControlledFields : List String := [
  "github.event.issue.title",
  "github.event.issue.body",
  "github.event.pull_request.title",
  "github.event.pull_request.body",
  "github.event.pull_request.head.ref",
  "github.event.pull_request.head.label",
  "github.event.comment.body",
  "github.event.discussion.title",
  "github.event.discussion.body",
  "github.event.review.body",
  "github.event.commits",
  "github.event.head_commit.message"]

/-- The field that the first unsafe expression of a command uses. -/
def injectedField? (command : String) : Option String :=
  (Text.expressions command).findSome? fun body =>
    userControlledFields.find? fun field => Text.occursIn field.toList body

def scriptInjection : Rule Workflow :=
  securityCheck "script_injection"
    "User-controlled event data must not be interpolated into run commands" .high fun w =>
      w.steps.filterMap fun (job, index, step) => do
        let field ← injectedField? (← step.run)
        some (s!"Unsafe use of '{field}' in run command. User-controlled input may allow script injection.",
          w.stepPlace job index,
          "Use environment variables to pass user input safely, or sanitize the input before use.")

/-! ## Pinning -/

/-- What is wrong with the pin of an action. -/
def pinProblem? (action : String) : Option String :=
  match Action.pin action with
  | .pinned => none
  | .unpinned => some s!"Action '{action}' is not pinned to a specific version or SHA"
  | .branch ref =>
    some s!"Action '{action}' appears to be pinned to a branch '{ref}', which can change"

def unpinnedActions : Rule Workflow :=
  securityCheck "unpinned_actions" "Actions should reference an immutable version" .medium
    fun w =>
      w.steps.filterMap fun (job, index, step) => do
        let problem ← pinProblem? (← step.uses)
        some (problem, w.stepPlace job index,
          "Pin actions to a full-length commit SHA for maximum security, or use a version tag (e.g., @v4)")

/-! ## Permissions -/

def grantsWriteAll (permissions : Option Permissions) : Bool :=
  permissions.any Permissions.isWriteAll

def permissionsHint : String :=
  "Use minimal required permissions. Specify only the permissions needed (e.g., contents: read, issues: write)"

def excessivePermissions : Rule Workflow :=
  securityCheck "excessive_permissions" "Workflows and jobs should not grant write-all" .high
    fun w =>
      let own := if grantsWriteAll w.permissions then
          [("Workflow has write-all permissions enabled", w.place, permissionsHint)]
        else []
      let jobs := w.jobs.entries.filter fun (_, job) => grantsWriteAll job.permissions
      own ++ jobs.map fun (id, _) =>
        (s!"Job '{id}' has write-all permissions enabled", w.jobPlace id, permissionsHint)

/-- Permissions are declared by the workflow, or by each of its jobs if it has any. -/
def declaresPermissions (w : Workflow) : Bool :=
  w.permissions.isSome ||
    (!w.jobs.isEmpty && w.jobs.values.all fun job => job.permissions.isSome)

def missingPermissions : Rule Workflow :=
  securityCheck "missing_permissions" "Workflows should declare an explicit permissions block"
    .low fun w =>
      if declaresPermissions w then []
      else [("Workflow does not have an explicit permissions block", w.place,
        "Add a permissions block to explicitly control what the workflow can access. Use 'read-all' for read-only access or specify individual permissions.")]

end WorkflowAudit.Policy
