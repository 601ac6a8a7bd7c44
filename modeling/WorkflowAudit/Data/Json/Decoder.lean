import WorkflowAudit.Data.Json.Document
import WorkflowAudit.Data.OrderedMap

/-!
# Decoders

A decoder takes a value from the syntax of a document. It knows how many more levels may be
opened, since documents nested too deeply are refused, and how its error type says that a
document does not have the expected form. Members that a record does not know are skipped, but
must be JSON.
-/

namespace WorkflowAudit

/-- Levels of arrays and objects that a document may have, plus one. -/
def Document.levelLimit : Nat := 128

/-- An error type with a case for a document of the wrong form. -/
class Malformed (ε : Type) where
  malformed : ε

/-- The error of readers that do not say what is wrong with a document. -/
inductive BadDocument where
  | malformed
deriving DecidableEq, Repr

instance : Malformed BadDocument := ⟨.malformed⟩

/-- How to take an `α` from a document when the given number of levels is left. -/
abbrev Decoder (ε α : Type) := Nat → Document → Except ε α

namespace Decoder

variable {ε α σ : Type} [Malformed ε]

def fail : Except ε α := .error Malformed.malformed

/-- The levels left inside an array or object. -/
def descend (levels : Nat) : Except ε Nat :=
  if levels ≤ 1 then fail else .ok (levels - 1)

def ofOption (o : Option α) : Except ε α :=
  match o with
  | some a => .ok a
  | none => fail

mutual
/-- Whether a skipped document is JSON throughout. -/
def wellFormed : Document → Bool
  | .array items => wellFormedItems items
  | .object members => wellFormedMembers members
  | .malformed => false
  | _ => true

def wellFormedItems : List Document → Bool
  | [] => true
  | d :: ds => wellFormed d && wellFormedItems ds

def wellFormedMembers : List (Option String × Document) → Bool
  | [] => true
  | (_, d) :: ms => wellFormed d && wellFormedMembers ms
end

mutual
/-- A free value; the fields of its objects are sorted. -/
def json? (levels : Nat) : Document → Option Json
  | .null => some .null
  | .bool b => some (.bool b)
  | .number literal => literal.toJson?
  | .string content => content.map .str
  | .array items =>
    if levels ≤ 1 then none else (jsonItems? (levels - 1) items).map .arr
  | .object members =>
    if levels ≤ 1 then none
    else (jsonMembers? (levels - 1) members).map fun fields => .obj (Json.sortFields fields)
  | .malformed => none

def jsonItems? (levels : Nat) : List Document → Option (List Json)
  | [] => some []
  | d :: ds =>
    match json? levels d, jsonItems? levels ds with
    | some v, some vs => some (v :: vs)
    | _, _ => none

def jsonMembers? (levels : Nat) : List (Option String × Document) → Option (List (String × Json))
  | [] => some []
  | (key, d) :: ms =>
    match key, json? levels d, jsonMembers? levels ms with
    | some k, some v, some fields => some ((k, v) :: fields)
    | _, _, _ => none
end

def json : Decoder ε Json := fun levels d => ofOption (json? levels d)

def string : Decoder ε String
  | _, .string (some s) => .ok s
  | _, _ => fail

/-- A natural number below a bound. -/
def natBelow (bound : Nat) : Decoder ε Nat := fun levels d =>
  match json? levels d with
  | some (.int n) => if 0 ≤ n && n < bound then .ok n.toNat else fail
  | _ => fail

/-- A value that may be null. -/
def optional (item : Decoder ε α) : Decoder ε (Option α) := fun levels d =>
  match d with
  | .null => .ok none
  | d => some <$> item levels d

def list (item : Decoder ε α) : Decoder ε (List α) := fun levels d =>
  match d with
  | .array items => do
    let levels ← descend levels
    items.mapM (item levels)
  | _ => fail

/-- An object as a map: a repeated key keeps its first place and its last value. -/
def map (item : Decoder ε α) : Decoder ε (OrderedMap String α) := fun levels d =>
  match d with
  | .object members => do
    let levels ← descend levels
    members.foldlM (fun m (key, value) => do
      let k ← ofOption key
      let v ← item levels value
      .ok (m.insert k v)) .empty
  | _ => fail

/-- A field of a record: its name and how its value changes the record. -/
structure Field (ε σ : Type) where
  name : String
  load : Nat → Document → σ → Except ε σ

/-- The field called `name` whose value is stored by `set`. -/
def Field.of (name : String) (item : Decoder ε α) (set : σ → α → σ) : Field ε σ :=
  ⟨name, fun levels d record => do
    let value ← item levels d
    .ok (set record value)⟩

/-- Items of an array given for the fields of a record in turn. -/
def loadInOrder (levels : Nat) : List (Field ε σ) → List Document → σ → Except ε σ
  | _, [], record => .ok record
  | [], _ :: _, _ => fail
  | f :: fields, d :: ds, record => do
    let next ← f.load levels d record
    loadInOrder levels fields ds next

/-- Members of an object loaded in document order. A known name may stand once. -/
def loadByName (levels : Nat) (fields : List (Field ε σ)) :
    List String → List (Option String × Document) → σ → Except ε σ
  | _, [], record => .ok record
  | seen, (key, d) :: members, record => do
    let k ← ofOption key
    match fields.find? (·.name = k) with
    | some f =>
      if seen.contains k then fail
      else
        let next ← f.load levels d record
        loadByName levels fields (k :: seen) members next
    | none =>
      if wellFormed d then loadByName levels fields seen members record else fail

/-- A record given as an object, or as an array of its fields in order. Fields that are not
    given keep their values. -/
def record (fields : List (Field ε σ)) (initial : σ) : Decoder ε σ := fun levels d =>
  match d with
  | .object members => do
    let levels ← descend levels
    loadByName levels fields [] members initial
  | .array items => do
    let levels ← descend levels
    loadInOrder levels fields items initial
  | _ => fail

/-- The value of a whole text. -/
def run (decoder : Decoder ε α) (text : String) : Except ε α := do
  let (document, isWhole) := Document.read text
  let value ← decoder Document.levelLimit document
  if isWhole then .ok value else fail

end Decoder

end WorkflowAudit
