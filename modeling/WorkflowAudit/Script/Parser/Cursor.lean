import WorkflowAudit.Script.Token

/-!
# Token cursors and the parsers over them

A cursor stands before the tokens that are left. A parser moves it forward or leaves it where
it is, which its type records, so that a loop whose turns take a token comes to an end. The
cursor also counts the levels that are open; `nested` refuses to open more than
`levelLimit` of them.
-/

namespace WorkflowAudit.Script

/-- Levels that may be open at one place. -/
def levelLimit : Nat := 40

/-- A place in a token stream. -/
structure Cursor where
  /-- The tokens that are left, the end marker left out. -/
  rest : List Token
  /-- Offset of the end marker. -/
  endAt : Nat
  /-- Where the last token that is not line structure stopped. -/
  lastEnd : Nat
  /-- Number of open levels. -/
  depth : Nat
deriving DecidableEq, Repr

namespace Cursor

/-- The cursor before all tokens of a script. -/
def ofTokens (tokens : List Token) : Cursor where
  rest := tokens.takeWhile (·.kind ≠ .endMarker)
  endAt := ((tokens.getLast?).map (·.span.start)).getD 0
  lastEnd := 0
  depth := 0

def peek (c : Cursor) : Token := c.rest.headD ⟨.endMarker, .point c.endAt, ""⟩

/-- The cursor after the next token; at the end it stays. -/
def advance (c : Cursor) : Cursor :=
  match c.rest with
  | [] => c
  | t :: ts => { c with rest := ts, lastEnd := if t.kind.isLexical then t.span.stop else c.lastEnd }

theorem length_advance (c : Cursor) : c.advance.rest.length = c.rest.length - 1 := by
  unfold advance
  cases h : c.rest with
  | nil => simp [h]
  | cons t ts => simp

def isKind (kind : TokenKind) (c : Cursor) : Bool := c.peek.kind = kind

def isOp (text : String) (c : Cursor) : Bool := c.peek.kind = .op && c.peek.text = text

def isAnyOp (texts : List String) (c : Cursor) : Bool :=
  c.peek.kind = .op && texts.contains c.peek.text

def isName (text : String) (c : Cursor) : Bool := c.peek.kind = .name && c.peek.text = text

/-- The token after the next one. -/
def second? (c : Cursor) : Option Token := c.rest[1]?

end Cursor

/-- What a parser that starts at `c` leaves behind: a value and a cursor not before `c`. -/
structure Parsed (α : Type) (c : Cursor) where
  value : α
  cursor : Cursor
  notBefore : cursor.rest.length ≤ c.rest.length

/-- A step over a token stream that can fail. -/
def Parser (α : Type) : Type := (c : Cursor) → Except SyntaxError (Parsed α c)

namespace Parser

instance : Monad Parser where
  pure a := fun c => .ok ⟨a, c, Nat.le_refl _⟩
  bind p f := fun c =>
    match p c with
    | .error e => .error e
    | .ok ⟨a, c₁, h₁⟩ =>
      match f a c₁ with
      | .error e => .error e
      | .ok ⟨b, c₂, h₂⟩ => .ok ⟨b, c₂, Nat.le_trans h₂ h₁⟩

/-- Failure at the next token. -/
def failWith (fault : SyntaxFault) : Parser α := fun c => .error ⟨fault, c.peek.span.start⟩

/-- Failure at a given place. -/
def failAt (fault : SyntaxFault) (offset : Nat) : Parser α := fun _ => .error ⟨fault, offset⟩

/-- A fact about the current place. -/
def ask (f : Cursor → α) : Parser α := fun c => .ok ⟨f c, c, Nat.le_refl _⟩

/-- The next token, taken. -/
def bump : Parser Token := fun c =>
  .ok ⟨c.peek, c.advance, by rw [Cursor.length_advance]; omega⟩

/-- Takes the next token if it passes a test, and says whether it did. -/
def eat (test : Cursor → Bool) : Parser Bool := do
  if ← ask test then
    let _ ← bump
    return true
  else return false

def eatOp (text : String) : Parser Bool := eat (·.isOp text)

def eatName (text : String) : Parser Bool := eat (·.isName text)

/-- The fault of a token that cannot stand here. -/
def unexpectedToken : Parser α := fun c =>
  let fault : SyntaxFault :=
    if c.peek.kind.isLexical then .unexpectedText c.peek.text else .unexpectedKind c.peek.kind
  .error ⟨fault, c.peek.span.start⟩

def expectOp (text : String) : Parser Unit := do
  unless ← eatOp text do failWith (.missing text)

def expectWord (text : String) : Parser Unit := do
  unless ← eatName text do failWith (.missing text)

def expectKind (kind : TokenKind) (fault : SyntaxFault) : Parser Unit := do
  unless ← eat (·.isKind kind) do failWith fault

/-- Words that cannot be used as identifiers. -/
def keywords : List String :=
  ["False", "None", "True", "and", "as", "assert", "async", "await", "break", "class",
    "continue", "def", "del", "elif", "else", "except", "finally", "for", "from", "global", "if",
    "import", "in", "is", "lambda", "nonlocal", "not", "or", "pass", "raise", "return", "try",
    "while", "with", "yield"]

def identifier : Parser String := do
  let t ← ask Cursor.peek
  if t.kind = .name && !keywords.contains t.text then
    let _ ← bump
    return t.text
  else failWith .missingIdentifier

/-- Where the next token starts. -/
def here : Parser Nat := ask (·.peek.span.start)

/-- From a start to the end of the last token taken. -/
def spanFrom (start : Nat) : Parser Span := ask fun c => ⟨start, max c.lastEnd start⟩

/-- Runs a parser with one more level open. -/
def nested (p : Parser α) : Parser α := fun c =>
  if c.depth + 1 > levelLimit then .error ⟨.tooManyLevels, c.peek.span.start⟩
  else
    match p { c with depth := c.depth + 1 } with
    | .error e => .error e
    | .ok ⟨a, c₁, h⟩ => .ok ⟨a, { c₁ with depth := c₁.depth - 1 }, h⟩

/-- Whether a loop goes on after a turn. -/
inductive Turn (α : Type) where
  /-- One more item, and another turn if there is one. -/
  | item (a : α)
  /-- The loop ends without another item. -/
  | stop

/-- Takes tokens that pass a test, each followed by a turn of the loop. -/
def loop (test : Cursor → Bool) (turn : Token → Parser (Turn α)) : Parser (List α) := fun c =>
  match h : c.rest with
  | [] => .ok ⟨[], c, Nat.le_refl _⟩
  | t :: _ =>
    if test c then
      match turn t c.advance with
      | .error e => .error e
      | .ok ⟨.stop, c₁, h₁⟩ => .ok ⟨[], c₁, by rw [Cursor.length_advance] at h₁; omega⟩
      | .ok ⟨.item a, c₁, h₁⟩ =>
        match loop test turn c₁ with
        | .error e => .error e
        | .ok ⟨as, c₂, h₂⟩ =>
          .ok ⟨a :: as, c₂, by rw [Cursor.length_advance] at h₁; omega⟩
    else .ok ⟨[], c, Nat.le_refl _⟩
termination_by c => c.rest.length
decreasing_by
  rw [Cursor.length_advance] at h₁
  have : c.rest.length = (t :: _).length := congrArg List.length h
  simp only [List.length_cons] at this
  omega

/-- Items before each of which a token is taken. -/
def loopItems (test : Cursor → Bool) (item : Parser α) : Parser (List α) :=
  loop test fun _ => Turn.item <$> item

/-- Items after separators; a separator may also stand before `closing`. -/
def separated (separator : String) (closing : Cursor → Bool) (item : Parser α) :
    Parser (List α) :=
  loop (·.isOp separator) fun _ => do
    if ← ask closing then return .stop
    else return .item (← item)

/-- Items for as long as a test holds. An item that takes no token is the last one. -/
def many (test : Cursor → Bool) (item : Parser α) : Parser (List α) := fun c =>
  if test c then
    match item c with
    | .error e => .error e
    | .ok ⟨a, c₁, h₁⟩ =>
      if _h : c₁.rest.length < c.rest.length then
        match many test item c₁ with
        | .error e => .error e
        | .ok ⟨as, c₂, h₂⟩ => .ok ⟨a :: as, c₂, Nat.le_trans h₂ h₁⟩
      else .ok ⟨[a], c₁, h₁⟩
  else .ok ⟨[], c, Nat.le_refl _⟩
termination_by c => c.rest.length

end Parser

end WorkflowAudit.Script
