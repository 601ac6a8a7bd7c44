import WorkflowAudit.Files.Listing
import WorkflowAudit.Project.Command

/-!
# Command line

Standard input lists the files that a command may look at. They are read into a tree, the command
runs on the tree, and what it changed is written back.
-/

namespace WorkflowAudit

/-- The lines of standard input without their ends. -/
partial def inputLines (stdin : IO.FS.Stream) (before : List String) : IO (List String) := do
  let line ← stdin.getLine
  if line.isEmpty then return before.reverse
  inputLines stdin (String.ofList (line.toList.filter (· ≠ '\n')) :: before)

/-- The tree of the files that lines of a listing name. Files that cannot be read are left out. -/
def loadTree (lines : List String) : IO FileTree :=
  (lines.filterMap ListedFile.ofLine?).foldlM (fun t listed => do
    try
      let content ← IO.FS.readBinFile listed.path
      return (t.place listed.path ⟨content, listed.modified⟩).toOption.getD t
    catch _ => return t) {}

/-- Writes what differs between two trees. -/
def storeChanges (change : TreeChange) : IO Unit := do
  for (path, f) in change.written do
    unless Path.parent path = "" do IO.FS.createDirAll (Path.parent path)
    IO.FS.writeBinFile path f.content
  for path in change.removed do
    IO.FS.removeFile path

end WorkflowAudit

open WorkflowAudit in
/-- Runs a command. The result is 0 if its check passed, 1 if not and 2 if it could not run. -/
def main (args : List String) : IO UInt32 := do
  match Invocation.ofArguments args with
  | .error message =>
    IO.eprintln message
    IO.eprintln Invocation.usage
    return 2
  | .ok invocation =>
    let tree ← loadTree (← inputLines (← IO.getStdin) [])
    let outcome := invocation.run tree
    storeChanges (tree.changes outcome.tree)
    IO.print outcome.output
    match outcome.verdict with
    | .ok true => return 0
    | .ok false => return 1
    | .error message =>
      IO.eprintln s!"Error: {message}"
      return 1
