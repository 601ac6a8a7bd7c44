import WorkflowAudit.Toml.Scalar

/-!
# TOML documents

A document is a list of statements: headers of tables, and values under dotted keys. The
statements build a tree of tables, which says of each table how it came to be, since a table
may be defined only once.
-/

namespace WorkflowAudit.Toml

open Reader

/-! ## Tables -/

/-- How a table came to be. -/
inductive Origin where
  /-- By a header of its own. -/
  | header
  /-- By the header of a table below it. -/
  | implied
  /-- By a dotted key. -/
  | dotted
deriving DecidableEq, Repr

/-- What stands under a key. -/
inductive Item where
  | value (v : Value)
  | table (origin : Origin) (entries : List (String × Item))
  /-- Tables that share a header in double brackets. -/
  | tables (elements : List (List (String × Item)))

abbrev Entries := List (String × Item)

namespace Entries

def get? (entries : Entries) (key : String) : Option Item := entries.lookup key

def replace (entries : Entries) (key : String) (item : Item) : Entries :=
  entries.map fun e => if e.1 = key then (key, item) else e

def erase (entries : Entries) (key : String) : Entries := entries.filter fun e => e.1 ≠ key

/-- A change to the table at a path. Tables on the way are made with the given origin when they
    are missing, and must satisfy `passes` when they are there; of tables that share a header
    the last one is meant. -/
def update (made : Origin) (passes : Origin → Bool) (change : Origin → Entries → Option Entries) :
    List String → Origin → Entries → Option Entries
  | [], origin, entries => change origin entries
  | key :: path, _, entries =>
    match entries.get? key with
    | none => do
      let inner ← update made passes change path made []
      some (entries ++ [(key, .table made inner)])
    | some (.table origin inner) =>
      if passes origin then do
        let inner ← update made passes change path origin inner
        some (entries.replace key (.table origin inner))
      else none
    | some (.tables elements) => do
      let last ← update made passes change path .header (elements.getLastD [])
      some (entries.replace key (.tables (elements.dropLast ++ [last])))
    | some (.value _) => none

/-- A change to the table at a path of headers. -/
def updateHeader (change : Entries → Option Entries) (path : List String) (entries : Entries) :
    Option Entries :=
  update .implied (fun _ => true) (fun _ inner => change inner) path .header entries

/-- The entries with a value under a dotted key. Tables with a header of their own are closed to
    dotted keys, and so is a table that only headers below it imply. -/
def setValue (path : List String) (key : String) (v : Value) (entries : Entries) :
    Option Entries :=
  let set (origin : Origin) (inner : Entries) : Option Entries :=
    if (!path.isEmpty && origin ≠ .dotted) || (inner.get? key).isSome then none
    else some (inner ++ [(key, .value v)])
  update .dotted (· ≠ .header) set path .header entries

/-- The entries with a table under a header. A table that was only implied moves to the end. -/
def openTable (key : String) (entries : Entries) : Option Entries :=
  match entries.get? key with
  | none => some (entries ++ [(key, .table .header [])])
  | some (.table .implied inner) => some (entries.erase key ++ [(key, .table .header inner)])
  | some _ => none

/-- The entries with one more table under a header in double brackets. -/
def openElement (key : String) (entries : Entries) : Option Entries :=
  match entries.get? key with
  | none => some (entries ++ [(key, .tables [[]])])
  | some (.tables elements) => some (entries.replace key (.tables (elements ++ [[]])))
  | some _ => none

end Entries

mutual
/-- The value of an item; tables that share a header are an array. -/
def Item.toValue : Item → Value
  | .value v => v
  | .table _ entries => .table (entryValues entries)
  | .tables elements => .array (elementValues elements)

def entryValues : List (String × Item) → List (String × Value)
  | [] => []
  | (key, item) :: more => (key, item.toValue) :: entryValues more

def elementValues : List (List (String × Item)) → List Value
  | [] => []
  | entries :: more => .table (entryValues entries) :: elementValues more
end

/-! ## Statements -/

def isBareKeyChar (c : Char) : Bool := c.isAlphanum || c = '_' || c = '-'

def bareKey : Reader String := do
  let first ← satisfy isBareKeyChar
  return String.ofList (first :: (← takeWhile isBareKeyChar))

/-- Levels of values, and parts of keys, that a document may have, plus one. -/
def nestingLimit : Nat := 80

/-- A key with its parts; there is at least one. -/
def key : Reader (List String) := do
  let part : Reader String := do
    blanks
    let name ← oneOf [basicString, literalString, bareKey]
    blanks
    return name
  let parts ← separated (char '.') part
  if parts.isEmpty || nestingLimit ≤ parts.length then fail else return parts

/-- A key and a value. -/
def keyValue (value : Reader Value) : Reader (List String × Value) := do
  let path ← key
  char '='
  blanks
  return (path, ← value)

/-- A value set under all parts of a key. -/
def setAt (path : List String) (v : Value) (entries : Entries) : Option Entries :=
  match path.getLast? with
  | some last => entries.setValue path.dropLast last v
  | none => none

def arrayOf (value : Reader Value) : Reader Value := do
  char '['
  let item : Reader Value := do
    skipLines
    let v ← value
    skipLines
    return v
  let items ← separated (char ',') item
  if !items.isEmpty then
    let _ ← maybe (char ',')
  skipLines
  char ']'
  return .array items

def inlineTableOf (value : Reader Value) : Reader Value := do
  char '\x7b'
  let entry : Reader (List String × Value) := do
    let e ← keyValue value
    blanks
    return e
  let entries ← separated (char ',') entry
  blanks
  char '\x7d'
  let built ← ofOption (entries.foldlM (fun es (path, v) => setAt path v es) [])
  return .table (entryValues built)

/-- A value with so many levels of arrays and tables below it. -/
def value : Nat → Reader Value
  | 0 => scalar
  | levels + 1 => oneOf [scalar, arrayOf (value levels), inlineTableOf (value levels)]

inductive Statement where
  | table (path : List String)
  | element (path : List String)
  | entry (path : List String) (v : Value)

def statement : Reader Statement :=
  oneOf [
    do
      text "[["
      let path ← key
      text "]]"
      lineEnd
      return .element path,
    do
      char '['
      let path ← key
      char ']'
      lineEnd
      return .table path,
    do
      let (path, v) ← keyValue (value (nestingLimit - 1))
      lineEnd
      return .entry path v]

/-- The statements of a document, after a byte-order mark. -/
def statements : Reader (List Statement) := do
  let _ ← maybe (char '\ufeff')
  let empty : Reader (Option Statement) := do
    blanks
    oneOf [lineBreak, do comment; oneOf [lineBreak, endOfText]]
    return none
  let line : Reader (Option Statement) := oneOf [empty, do blanks; return some (← statement)]
  let found ← many line (← remaining)
  blanks
  endOfText
  return found.filterMap id

/-- The tree built so far, and the path of the table that entries go to. -/
structure Building where
  root : Entries
  current : List String

/-- The tree after one more statement, unless something is defined twice. -/
def Building.add (b : Building) (s : Statement) : Option Building :=
  match s with
  | .entry path v => do
    some { b with root := ← b.root.updateHeader (setAt path v) b.current }
  | .table path => do
    let root ← b.root.updateHeader (Entries.openTable (← path.getLast?)) path.dropLast
    some ⟨root, path⟩
  | .element path => do
    let root ← b.root.updateHeader (Entries.openElement (← path.getLast?)) path.dropLast
    some ⟨root, path⟩

/-- The table that a document describes. -/
def read (document : String) : Option (List (String × Value)) := do
  let (found, _) ← statements.run document.toList
  let final ← found.foldlM Building.add ⟨[], []⟩
  some (entryValues final.root)

end WorkflowAudit.Toml
