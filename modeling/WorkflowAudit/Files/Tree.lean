import WorkflowAudit.Files.Path

/-!
# File trees

A file tree holds everything that the program can see of the file system. A path leads through it
from the top: a name enters a directory, two dots leave it, a dot or nothing stays. A directory
holds a name at most once. Nothing is known of what lies above the top, so directories there count
as empty, and the top itself is not found again from there.
-/

namespace WorkflowAudit

structure File where
  content : ByteArray
  /-- Time of the last change in nanoseconds from 1970. -/
  modified : Int

namespace File

def ofText (text : String) (modified : Int) : File := ⟨text.toUTF8, modified⟩

def size (f : File) : Nat := f.content.size

/-- The text of a file whose bytes are UTF-8. -/
def text? (f : File) : Option String := String.fromUTF8? f.content

end File

/-- What a path can lead to. -/
inductive Node where
  | file (f : File)
  | directory (entries : List (String × Node))

namespace Node

def isDirectory : Node → Bool
  | .file _ => false
  | .directory _ => true

def isFile (n : Node) : Bool := !n.isDirectory

/-- The node that is reached through directories with the given names. -/
def get? : List String → Node → Option Node
  | [], n => some n
  | _ :: _, .file _ => none
  | name :: place, .directory entries => (entries.lookup name).bind (get? place)

/-- The entries with `f` applied to what `name` stands for, which may be nothing so far. -/
def alter (name : String) (f : Option Node → Option Node) :
    List (String × Node) → List (String × Node)
  | [] => ((f none).map fun n => (name, n)).toList
  | (key, n) :: entries =>
    if key = name then ((f (some n)).map fun n => (name, n)).toList ++ entries
    else (key, n) :: alter name f entries

/-- The tree with `new` at a place. Nothing changes if the place is not in a directory. -/
def put : List String → Node → Node → Node
  | [], _, new => new
  | _ :: _, .file f, _ => .file f
  | [name], .directory entries, new => .directory (alter name (fun _ => some new) entries)
  | name :: place, .directory entries, new =>
    .directory (alter name (fun n => n.map fun n => put place n new) entries)

/-- The tree without what is at a place. -/
def erase : List String → Node → Node
  | [], n => n
  | _ :: _, .file f => .file f
  | [name], .directory entries => .directory (alter name (fun _ => none) entries)
  | name :: place, .directory entries =>
    .directory (alter name (fun n => n.map (erase place)) entries)

mutual
/-- Every file below a node with its names from there. -/
def files : Node → List (List String × File)
  | .file f => [([], f)]
  | .directory entries => filesOf entries

def filesOf : List (String × Node) → List (List String × File)
  | [] => []
  | (name, n) :: entries =>
    (files n).map (fun (place, f) => (name :: place, f)) ++ filesOf entries
end

end Node

/-- Why a path cannot be used. -/
inductive FileError where
  | notFound
  | exists
  | notADirectory
  | isADirectory
  /-- A path or one of its names has too many bytes. -/
  | nameTooLong
  /-- A path with a null character. -/
  | nullInPath
  /-- The bytes of the file are no text. -/
  | notText
deriving DecidableEq, Repr

/-- The wording of the operating system. -/
def FileError.reason : FileError → String
  | .notFound => "No such file or directory (os error 2)"
  | .exists => "File exists (os error 17)"
  | .notADirectory => "Not a directory (os error 20)"
  | .isADirectory => "Is a directory (os error 21)"
  | .nameTooLong => "File name too long (os error 36)"
  | .nullInPath => "file name contained an unexpected NUL byte"
  | .notText => "stream did not contain valid UTF-8"

/-- A file system; relative paths start at its top. -/
structure FileTree where
  entries : List (String × Node) := []
  /-- The time that the next file saved by the program gets. -/
  clock : Int := 0

namespace FileTree

def top (t : FileTree) : Node := .directory t.entries

/-- The tree with another top; a file cannot stand there. -/
def setTop (t : FileTree) : Node → FileTree
  | .file _ => t
  | .directory entries => { t with entries }

/-- What stands at a place. A place that begins with two dots is above the top. -/
def get? (t : FileTree) (place : List String) : Option Node :=
  if place.head? = some ".." then
    if place.all (· = "..") then some (.directory []) else none
  else t.top.get? place

def put (t : FileTree) (place : List String) (n : Node) : FileTree := t.setTop (t.top.put place n)

def erase (t : FileTree) (place : List String) : FileTree := t.setTop (t.top.erase place)

def files (t : FileTree) : List (List String × File) := t.top.files

/-- The parts of a path that are followed in turn. -/
def parts (path : String) : List String := (Path.splitOn '/' path.toList).map String.ofList

/-- Bytes that a path may have. -/
def maxPathLength : Nat := 4095

/-- Bytes that a name in a directory may have. -/
def maxNameLength : Nat := 255

/-- The place where a path starts: the top, or outside for an absolute path. -/
def start (path : String) : Except FileError (List String) :=
  if path.toList.contains '\x00' then .error .nullInPath
  else if path = "" then .error .notFound
  else if maxPathLength < path.utf8ByteSize then .error .nameTooLong
  else .ok (if path.toList.head? = some '/' then [".."] else [])

/-- The place of the directory that holds a place. -/
def above (place : List String) : List String :=
  if place.all (· = "..") then place ++ [".."] else place.dropLast

/-- Where one part of a path leads from a place. -/
def follow (t : FileTree) (place : List String) (part : String) : Except FileError (List String) :=
  match t.get? place with
  | some (.directory entries) =>
    if part = "" || part = "." then .ok place
    else if part = ".." then .ok (above place)
    else if (entries.lookup part).isSome then .ok (place ++ [part])
    else if maxNameLength < part.utf8ByteSize then .error .nameTooLong
    else .error .notFound
  | some (.file _) => .error .notADirectory
  | none => .error .notFound

/-- The place that a path leads to. -/
def resolve (t : FileTree) (path : String) : Except FileError (List String) := do
  (parts path).foldlM t.follow (← start path)

/-- What a path leads to. -/
def find (t : FileTree) (path : String) : Except FileError Node := do
  let place ← t.resolve path
  match t.get? place with
  | some n => .ok n
  | none => .error .notFound

def isFile (t : FileTree) (path : String) : Bool :=
  match t.find path with
  | .ok n => n.isFile
  | .error _ => false

/-- The file at a path. -/
def read (t : FileTree) (path : String) : Except FileError File := do
  match ← t.find path with
  | .file f => .ok f
  | .directory _ => .error .isADirectory

def readText (t : FileTree) (path : String) : Except FileError String := do
  match (← t.read path).text? with
  | some text => .ok text
  | none => .error .notText

/-- What a directory holds. -/
def list (t : FileTree) (path : String) : Except FileError (List (String × Node)) := do
  match ← t.find path with
  | .file _ => .error .notADirectory
  | .directory entries => .ok entries

/-- The place of a file that may still be missing in its directory. -/
def placeOf (t : FileTree) (path : String) : Except FileError (List String) := do
  let ps := parts path
  let name := ps.getLast?.getD ""
  let directory ← ps.dropLast.foldlM t.follow (← start path)
  match t.get? directory with
  | some (.directory _) =>
    if name = "" || name = "." || name = ".." then .error .isADirectory
    else if maxNameLength < name.utf8ByteSize then .error .nameTooLong
    else .ok (directory ++ [name])
  | _ => .error .notADirectory

/-- A file written into its directory, in place of a file of that name. -/
def write (t : FileTree) (path : String) (f : File) : Except FileError FileTree := do
  let place ← t.placeOf path
  match t.get? place with
  | some (.directory _) => .error .isADirectory
  | _ => .ok (t.put place (.file f))

/-- A file written with the time of the clock, which moves on. -/
def save (t : FileTree) (path text : String) : Except FileError FileTree :=
  { t with clock := t.clock + 1 }.write path (.ofText text t.clock)

/-- The tree with the directories that are missing on the way from a place along some names, and
    where the names lead. What cannot be entered ends it; the directories made before stay. -/
def enter (t : FileTree) (place : List String) :
    List String → FileTree × Except FileError (List String)
  | [] => (t, .ok place)
  | part :: rest =>
    match t.follow place part with
    | .ok next => t.enter next rest
    | .error .notFound =>
      let next := place ++ [part]
      (t.put next (.directory [])).enter next rest
    | .error e => (t, .error e)

/-- The tree with a directory at a path, or as much of the way to it as could be made. -/
def makeDirectory (t : FileTree) (path : String) : FileTree × Except FileError Unit :=
  if path = "" then (t, .ok ())
  else
    match start path with
    | .error e => (t, .error e)
    | .ok place =>
      match t.enter place (parts path) with
      | (made, .error e) => (made, .error e)
      | (made, .ok place) =>
        match made.get? place with
        | some (.directory _) => (made, .ok ())
        | _ => (made, .error .exists)

/-- The tree without the file at a path. -/
def remove (t : FileTree) (path : String) : Except FileError FileTree := do
  match ← t.find path with
  | .file _ => .ok (t.erase (← t.resolve path))
  | .directory _ => .error .isADirectory

end FileTree

end WorkflowAudit
