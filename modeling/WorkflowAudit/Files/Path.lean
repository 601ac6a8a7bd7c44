/-!
# Paths

Paths are texts with slashes between their parts. Empty parts and single dots say nothing,
except a dot at the front of a relative path.
-/

namespace WorkflowAudit.Path

/-- The runs of characters between separators. -/
def splitOn (separator : Char) : List Char → List (List Char)
  | [] => [[]]
  | c :: cs =>
    if c = separator then [] :: splitOn separator cs
    else
      match splitOn separator cs with
      | part :: parts => (c :: part) :: parts
      | [] => [[c]]

/-- A part of a path. -/
inductive Component where
  | root
  | currentDir
  | parentDir
  | normal (name : String)
deriving DecidableEq, Repr

/-- The parts of a path from left to right. -/
def components (path : String) : List Component :=
  let parts := (splitOn '/' path.toList).map String.ofList
  let isAbsolute := path.toList.head? == some '/'
  let front : List Component :=
    if isAbsolute then [.root] else if parts.head? == some "." then [.currentDir] else []
  let rest := parts.filterMap fun part =>
    if part = "" || part = "." then none
    else if part = ".." then some Component.parentDir
    else some (.normal part)
  front ++ rest

/-- How early a component stands among components of other kinds. -/
def Component.rank : Component → Nat
  | .root => 0
  | .currentDir => 1
  | .parentDir => 2
  | .normal _ => 3

/-- Whether a component comes before another one. Names compare by their characters. -/
def Component.before : Component → Component → Bool
  | .normal a, .normal b => a < b
  | a, b => a.rank < b.rank

def componentsLe : List Component → List Component → Bool
  | [], _ => true
  | _ :: _, [] => false
  | a :: as, b :: bs => if a = b then componentsLe as bs else a.before b

/-- The order of paths by their components, so what a directory holds stands together. -/
def le (a b : String) : Bool := componentsLe (components a) (components b)

/-- The name of the last part, unless that is a dot, two dots or the root. -/
def fileName? (path : String) : Option String :=
  match (components path).getLast? with
  | some (.normal name) => some name
  | _ => none

/-- A file name cut at its last dot: what stands before it, and what stands after it. A dot at
    the front does not count. -/
def splitExtension (name : String) : String × Option String :=
  let cs := name.toList
  let extension := (cs.reverse.takeWhile (· ≠ '.')).reverse
  let stem := cs.take (cs.length - extension.length - 1)
  if extension.length = cs.length || stem.isEmpty then (name, none)
  else (String.ofList stem, some (String.ofList extension))

/-- The file name without its extension. -/
def stem? (path : String) : Option String := (fileName? path).map fun n => (splitExtension n).1

def extension? (path : String) : Option String :=
  (fileName? path).bind fun n => (splitExtension n).2

/-- A path continued by a relative one. -/
def join (base name : String) : String :=
  if name.toList.head? == some '/' then name
  else if base = "" || base.toList.getLast? == some '/' then base ++ name
  else base ++ "/" ++ name

end WorkflowAudit.Path
