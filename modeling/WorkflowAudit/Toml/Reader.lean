/-!
# Readers

A reader takes the start of a text and gives a value and the rest of the text, or fails.
Readers are tried one after another on the same text.
-/

namespace WorkflowAudit.Toml

/-- Takes a value from the start of a text. -/
abbrev Reader (α : Type) := StateT (List Char) Option α

namespace Reader

/-- The next character, if it is of a class. -/
def satisfy (accepts : Char → Bool) : Reader Char := fun cs =>
  match cs with
  | c :: rest => if accepts c then some (c, rest) else none
  | [] => none

def char (c : Char) : Reader Unit := do
  let _ ← satisfy (· == c)

/-- Exactly these characters. -/
def text (expected : String) : Reader Unit := fun cs =>
  if expected.toList.isPrefixOf cs then some ((), cs.drop expected.length) else none

/-- All characters of a class. -/
def takeWhile (accepts : Char → Bool) : Reader (List Char) := fun cs =>
  some (cs.takeWhile accepts, cs.dropWhile accepts)

/-- So many characters of a class. -/
def count (n : Nat) (accepts : Char → Bool) : Reader (List Char) := fun cs =>
  let taken := cs.take n
  if taken.length = n && taken.all accepts then some (taken, cs.drop n) else none

def fail : Reader α := fun _ => none

/-- Nothing is taken unless the reader succeeds. -/
def maybe (r : Reader α) : Reader (Option α) := fun cs =>
  match r cs with
  | some (a, rest) => some (some a, rest)
  | none => some (none, cs)

def ofOption : Option α → Reader α
  | some a => pure a
  | none => fail

/-- A value of the first reader that succeeds. -/
def oneOf (readers : List (Reader α)) : Reader α := fun cs => readers.findSome? (· cs)

/-- A reader again and again, at most `fuel` times, as long as it succeeds. -/
def many (r : Reader α) : Nat → Reader (List α)
  | 0 => pure []
  | fuel + 1 => do
    match ← maybe r with
    | some a => return a :: (← many r fuel)
    | none => return []

/-- The number of characters left. -/
def remaining : Reader Nat := fun cs => some (cs.length, cs)

/-- Values with a separator between them. -/
def separated (separator : Reader Unit) (item : Reader α) : Reader (List α) := do
  match ← maybe item with
  | none => return []
  | some first =>
    let rest ← many (do separator; item) (← remaining)
    return first :: rest

end Reader

/-! ## White space and comments -/

open Reader

def isBlank (c : Char) : Bool := c = ' ' || c = '\t'

def blanks : Reader Unit := do
  let _ ← takeWhile isBlank

def lineBreak : Reader Unit := oneOf [text "\n", text "\r\n"]

/-- Characters of comments and literal strings: control characters are left out, but not tabs. -/
def isPlain (c : Char) : Bool := c = '\t' || (0x20 ≤ c.toNat && c.toNat ≠ 0x7f)

def comment : Reader Unit := do
  char '#'
  let _ ← takeWhile isPlain

def endOfText : Reader Unit := fun cs => if cs.isEmpty then some ((), []) else none

/-- The rest of a line after its content. -/
def lineEnd : Reader Unit := do
  blanks
  let _ ← maybe comment
  oneOf [lineBreak, endOfText]

/-- Blanks, line breaks, and comments that end with their line. -/
def skipLines : Reader Unit := do
  let _ ← many (oneOf [do let _ ← satisfy isBlank, lineBreak, do comment; lineBreak]) (← remaining)

end WorkflowAudit.Toml
