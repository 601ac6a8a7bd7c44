import WorkflowAudit.Project.Resources
import WorkflowAudit.Project.Workflows

/-!
# Commands

A command line names a command, the project it works on and how it reports. Options may stand
anywhere; a value follows its option, after a blank or an equals sign.
-/

namespace WorkflowAudit

inductive Command where
  | list (path : Option String) (format : ReportFormat)
  | graph (path : Option String) (format : DiagramFormat)
  | lint (path : Option String) (fix : Bool) (format : ReportFormat)
  | policy (file : String) (preset : Option String) (failOn : Option Severity)
      (format : ReportFormat)
  | validate (file : String)
  | reusable (path : Option String)
  | clearCache
deriving DecidableEq, Repr

/-- A command on a project. -/
def Command.run (p : Project) (t : FileTree) : Command → Outcome
  | .list path format => p.listResources t path format
  | .graph path format => p.drawGraph t path format
  | .lint path false format => p.lint t path format
  | .lint path true format => p.fix t path format
  | .policy file preset failOn format => p.checkPolicy t file preset failOn format
  | .validate file => p.validate t file
  | .reusable path => p.listReusable t path
  | .clearCache => p.clearCache t

/-- A command with the project it is for. -/
structure Invocation where
  root : String := "."
  useCache : Bool := true
  command : Command
deriving DecidableEq, Repr

namespace Invocation

/-- The outcome of a command on its project, which is loaded first. -/
def run (i : Invocation) (t : FileTree) : Outcome :=
  match Project.load t i.root i.useCache with
  | .ok p => i.command.run p t
  | .error message => .failure t message

/-- Arguments sorted by kind. -/
structure Arguments where
  positional : List String := []
  options : List (String × String) := []
  flags : List String := []
deriving DecidableEq, Repr

/-- Options that a value follows. -/
def valueOptions : List String := ["--root", "--format", "--preset", "--fail-on"]

def flagOptions : List String := ["--no-cache", "--fix"]

/-- The arguments in order; what looks like an option has to be one. -/
def sortArguments (sorted : Arguments) : List String → Except String Arguments
  | [] => .ok sorted
  | arg :: rest =>
    if flagOptions.contains arg then
      sortArguments { sorted with flags := sorted.flags ++ [arg] } rest
    else if valueOptions.contains arg then
      match rest with
      | value :: rest =>
        sortArguments { sorted with options := sorted.options ++ [(arg, value)] } rest
      | [] => .error s!"{arg} needs a value"
    else
      match Text.cutAt? '=' arg with
      | some (option, value) =>
        if valueOptions.contains option then
          sortArguments { sorted with options := sorted.options ++ [(option, value)] } rest
        else .error s!"unknown argument {arg}"
      | none =>
        if Text.startsWith arg "-" then .error s!"unknown argument {arg}"
        else sortArguments { sorted with positional := sorted.positional ++ [arg] } rest

namespace Arguments

/-- The value of an option among named choices; the first choice is the default. -/
def choose (a : Arguments) (option : String) (choices : List (String × α)) (default : α) :
    Except String α :=
  match a.options.lookup option with
  | none => .ok default
  | some name =>
    match choices.lookup name with
    | some value => .ok value
    | none => .error s!"{option} cannot be {name}"

def reportFormat (a : Arguments) : Except String ReportFormat :=
  a.choose "--format" [("text", .text), ("json", .json)] .text

def diagramFormat (a : Arguments) : Except String DiagramFormat :=
  a.choose "--format" [("mermaid", .mermaid), ("dot", .dot)] .mermaid

def failOn (a : Arguments) : Except String (Option Severity) :=
  match a.options.lookup "--fail-on" with
  | none => .ok none
  | some word =>
    match Severity.ofText word with
    | .ok s => .ok (some s)
    | .error word => .error (Severity.unknownMessage word)

/-- The command that the positional arguments name. -/
def command (a : Arguments) : Except String Command :=
  match a.positional with
  | ["list"] => .list none <$> a.reportFormat
  | ["list", path] => .list (some path) <$> a.reportFormat
  | ["graph"] => .graph none <$> a.diagramFormat
  | ["graph", path] => .graph (some path) <$> a.diagramFormat
  | ["lint"] => .lint none (a.flags.contains "--fix") <$> a.reportFormat
  | ["lint", path] => .lint (some path) (a.flags.contains "--fix") <$> a.reportFormat
  | ["policy", file] => do
    .ok (.policy file (a.options.lookup "--preset") (← a.failOn) (← a.reportFormat))
  | ["validate", file] => .ok (.validate file)
  | ["reusable"] => .ok (.reusable none)
  | ["reusable", path] => .ok (.reusable (some path))
  | ["clear-cache"] => .ok .clearCache
  | [] => .error "a command is missing"
  | name :: _ => .error s!"{name} is no command with these arguments"

end Arguments

/-- The invocation that arguments describe. -/
def ofArguments (args : List String) : Except String Invocation := do
  let sorted ← sortArguments {} args
  .ok {
    root := (sorted.options.lookup "--root").getD "."
    useCache := !sorted.flags.contains "--no-cache"
    command := ← sorted.command }

/-- How the program is called. -/
def usage : String := "usage: find . -type f -printf '%T@ %p\\n' | workflow-audit [--root DIR] [--no-cache] COMMAND
commands:
  list [PATH] [--format text|json]
  graph [PATH] [--format mermaid|dot]
  lint [PATH] [--fix] [--format text|json]
  policy FILE [--preset NAME] [--fail-on SEVERITY] [--format text|json]
  validate FILE
  reusable [PATH]
  clear-cache"

end Invocation

end WorkflowAudit
