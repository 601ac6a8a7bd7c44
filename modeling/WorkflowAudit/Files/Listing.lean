import WorkflowAudit.Files.Tree
import WorkflowAudit.Text.Digits
import WorkflowAudit.Text.Search

/-!
# Listings of files

A listing names the files of a tree, one on each line after the time of its last change. Times are
seconds from 1970 with up to nine places that count, and paths are relative.
-/

namespace WorkflowAudit

/-- A line of a listing. -/
structure ListedFile where
  path : String
  /-- Nanoseconds from 1970. -/
  modified : Int
deriving DecidableEq, Repr

namespace ListedFile

/-- Digits as a whole number, unless there is something else among them. -/
def wholeNumber? (digits : String) : Option Nat :=
  if digits.toList.all Char.isDigit then some (Text.decimalValue digits.toList) else none

/-- Digits after the point as nanoseconds. -/
def fraction? (digits : String) : Option Nat :=
  wholeNumber? (String.ofList ((digits.toList ++ List.replicate 9 '0').take 9))

/-- Decimal seconds as nanoseconds. -/
def nanoseconds? (seconds : String) : Option Int := do
  let isNegative := Text.startsWith seconds "-"
  let digits := if isNegative then String.ofList (seconds.toList.drop 1) else seconds
  let (whole, places) := (Text.cutAt? '.' digits).getD (digits, "")
  let value : Nat := (← wholeNumber? whole) * 1000000000 + (← fraction? places)
  some (if isNegative then -value else value)

/-- A line of a listing: a time, a space and a relative path. -/
def ofLine? (line : String) : Option ListedFile := do
  let (time, path) ← Text.cutAt? ' ' line
  if Text.startsWith path "/" then none else some ⟨path, ← nanoseconds? time⟩

end ListedFile

/-- The path of the directory that a path stands in. -/
def Path.parent (path : String) : String :=
  String.intercalate "/" (FileTree.parts path).dropLast

/-- The tree with a file, and with the directories above it. -/
def FileTree.place (t : FileTree) (path : String) (f : File) : Except FileError FileTree :=
  match t.makeDirectory (Path.parent path) with
  | (made, .ok ()) => made.write path f
  | (_, .error e) => .error e

/-- What has to be done to make one tree of files into another one. -/
structure TreeChange where
  written : List (String × File)
  removed : List String

/-- The difference of two trees; paths start at the top. -/
def FileTree.changes (before after : FileTree) : TreeChange :=
  let path (place : List String) := String.intercalate "/" place
  { written := after.files.filterMap fun (place, f) =>
      match before.get? place with
      | some (.file old) => if old.content.data = f.content.data then none else some (path place, f)
      | _ => some (path place, f)
    removed := before.files.filterMap fun (place, _) =>
      match after.get? place with
      | some (.file _) => none
      | _ => some (path place) }

end WorkflowAudit
