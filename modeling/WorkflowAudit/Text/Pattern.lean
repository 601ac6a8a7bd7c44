import WorkflowAudit.Text.Span

/-!
# Search patterns

A pattern at the start of a text leaves some rest, in several ways that stand in order of
preference: long runs before short ones, a present optional part before an absent one, and the
first alternative before the second. A search takes the leftmost start at which there is a way,
and there the preferred one.
-/

namespace WorkflowAudit.Text

inductive Pattern where
  /-- Matches without any text. -/
  | empty
  /-- One character of a class. -/
  | char (accepts : Char → Bool)
  /-- A run of characters of a class, within bounds on its length. -/
  | run (accepts : Char → Bool) (least : Nat) (most : Option Nat)
  | optional (p : Pattern)
  | seq (p q : Pattern)
  | either (p q : Pattern)

namespace Pattern

/-- The rests of a text after a run, the longest run first. -/
def runRests (accepts : Char → Bool) (least : Nat) (most : Option Nat) (cs : List Char) :
    List (List Char) :=
  let present := (cs.takeWhile accepts).length
  let longest :=
    match most with
    | some limit => min limit present
    | none => present
  (List.range (longest + 1 - least)).map fun shorter => cs.drop (longest - shorter)

/-- What a pattern leaves of a text, the preferred way first. -/
def rests : Pattern → List Char → List (List Char)
  | .empty, cs => [cs]
  | .char accepts, cs =>
    match cs with
    | c :: cs => if accepts c then [cs] else []
    | [] => []
  | .run accepts least most, cs => runRests accepts least most cs
  | .optional p, cs => rests p cs ++ [cs]
  | .seq p q, cs => (rests p cs).flatMap (rests q)
  | .either p q, cs => rests p cs ++ rests q cs

/-- Patterns one after another. -/
def all (ps : List Pattern) : Pattern := ps.foldr .seq .empty

/-- One of several patterns, the first that matches preferred. -/
def oneOf : List Pattern → Pattern
  | [] => .run (fun _ => false) 1 none
  | [p] => p
  | p :: ps => .either p (oneOf ps)

/-- Exactly the characters of a text. -/
def exactly (text : String) : Pattern := all (text.toList.map fun c => .char (· == c))

/-- At least so many characters of a class. -/
def atLeast (n : Nat) (accepts : Char → Bool) : Pattern := .run accepts n none

/-- Any number of characters of a class. -/
def many (accepts : Char → Bool) : Pattern := atLeast 0 accepts

/-- So many characters of a class. -/
def times (n : Nat) (accepts : Char → Bool) : Pattern := .run accepts n (some n)

/-- The bytes of the preferred match at the leftmost start, for characters that begin at
    `offset`. -/
def findFrom (p : Pattern) (offset : Nat) (cs : List Char) : Option Span :=
  match p.rests cs with
  | rest :: _ => some ⟨offset, offset + (byteLength cs - byteLength rest)⟩
  | [] =>
    match cs with
    | [] => none
    | c :: cs => findFrom p (offset + c.utf8Size) cs

def find? (p : Pattern) (text : String) : Option Span := p.findFrom 0 text.toList

end Pattern

end WorkflowAudit.Text
