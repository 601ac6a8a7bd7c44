import WorkflowAudit.Config.Settings
import WorkflowAudit.Data.Sorting
import WorkflowAudit.Files.Tree
import WorkflowAudit.Text.Search

/-!
# Source files of a directory

The walk starts at a path and enters directories unless their names are reserved or hidden. The
name of the first directory is not looked at. Files are told apart by their extension.
-/

namespace WorkflowAudit

/-- Which files below a directory are source files. -/
structure SourceFilter where
  reservedDirs : List String
  excludeHidden : Bool
  /-- Whether directories in the first one are entered. -/
  recursive : Bool := true
  /-- Extension of source files, without the dot. -/
  extension : String := "py"
deriving DecidableEq, Repr

/-- The filter that the settings of a project describe. -/
def DiscoverySettings.sourceFilter (s : DiscoverySettings) : SourceFilter where
  reservedDirs := s.reservedDirs
  excludeHidden := s.excludeHidden

namespace SourceFilter

/-- Whether directories of this name are left out. -/
def skipsDir (o : SourceFilter) (name : String) : Bool :=
  (o.excludeHidden && Text.startsWith name ".") || o.reservedDirs.contains name

/-- Whether the walk passes by an entry of a directory. -/
def skips (o : SourceFilter) (name : String) (n : Node) : Bool :=
  n.isDirectory && (!o.recursive || o.skipsDir name)

def isSource (o : SourceFilter) (path : String) : Bool := Path.extension? path == some o.extension

mutual
/-- The source files at and below a node that `path` leads to, in the order of the tree. -/
def below (o : SourceFilter) (path : String) : Node → List String
  | .file _ => if o.isSource path then [path] else []
  | .directory entries => belowEntries o path entries

def belowEntries (o : SourceFilter) (path : String) : List (String × Node) → List String
  | [] => []
  | (name, n) :: entries =>
    (if o.skips name n then [] else below o (Path.join path name) n) ++ belowEntries o path entries
end

end SourceFilter

/-- Source files, and the number of places that could not be looked at. -/
structure SourceFiles where
  paths : List String
  skipped : Nat
deriving DecidableEq, Repr

/-- The source files that a path leads to, in the order of paths. -/
def FileTree.sourceFiles (t : FileTree) (o : SourceFilter) (path : String) : SourceFiles :=
  match t.find path with
  | .ok n => ⟨sortBy Path.le (o.below path n), 0⟩
  | .error _ => ⟨[], 1⟩

end WorkflowAudit
