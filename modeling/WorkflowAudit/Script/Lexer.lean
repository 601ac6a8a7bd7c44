import WorkflowAudit.Script.Token
import WorkflowAudit.Text.CharClass

/-!
# From text to tokens

`tokenize` walks a script once. Comments, blank lines and line breaks inside brackets leave
no token. Each step looks at the front of the remaining text, decides how many characters
belong together and what they are, and updates the line state: the widths of the enclosing
blocks, the open brackets, and whether a line is about to start or has begun.
-/

namespace WorkflowAudit.Script

namespace Lexer

/-! ## Lengths of lexemes, in characters -/

/-- Characters of a literal after its opening quote, up to and with the closing one. A
    backslash takes the next character with it; a line feed ends the search. -/
def shortLiteralTail? (quote : Char) : List Char → Option Nat
  | [] => none
  | ['\\'] => none
  | '\\' :: _ :: cs => (shortLiteralTail? quote cs).map (· + 2)
  | c :: cs =>
    if c = quote then some 1
    else if c = '\n' then none
    else (shortLiteralTail? quote cs).map (· + 1)

/-- Characters of a literal after its three opening quotes, up to and with the closing three. -/
def longLiteralTail? (quote : Char) : List Char → Option Nat
  | [] => none
  | ['\\'] => none
  | '\\' :: _ :: cs => (longLiteralTail? quote cs).map (· + 2)
  | c :: cs =>
    if c = quote && [quote, quote].isPrefixOf cs then some 3
    else (longLiteralTail? quote cs).map (· + 1)

/-- Characters of the literal whose opening quote stands before `cs`, that quote left out. -/
def literalTail? (quote : Char) (cs : List Char) : Option Nat :=
  if [quote, quote].isPrefixOf cs then (longLiteralTail? quote (cs.drop 2)).map (· + 2)
  else shortLiteralTail? quote cs

def isQuote (c : Char) : Bool := c = '"' || c = '\''

def startsName (c : Char) : Bool := c = '_' || Text.isAlphabetic c

def continuesName (c : Char) : Bool := c = '_' || Text.isAlphanumeric c

/-- Words of at most two bytes from `r`, `b`, `u` and `f` may stand before a quote. -/
def isLiteralPrefix (word : List Char) : Bool :=
  Text.byteLength word ≤ 2 && word.all fun c => "rbufRBUF".toList.contains c

def continuesNumber (c : Char) : Bool := c.isAlphanum || c = '_' || c = '.'

/-- Characters that continue a number whose last character so far is `last`. A sign belongs to
    it after an exponent mark and before a digit. -/
def numberTail (hasRadix : Bool) (last : Char) : List Char → Nat
  | [] => 0
  | c :: cs =>
    if continuesNumber c then numberTail hasRadix c cs + 1
    else if (c = '+' || c = '-') && !hasRadix && (last = 'e' || last = 'E') &&
        (cs.head?.any Char.isDigit) then
      numberTail hasRadix c cs + 1
    else 0

/-- Whether a digit and the character after it announce a radix. -/
def startsRadix (c : Char) (cs : List Char) : Bool :=
  c = '0' && cs.head?.any fun d => "xXoObB".toList.contains d

def longOperators : List (List Char) :=
  ["**=", "//=", ">>=", "<<=", "..."].map String.toList

def mediumOperators : List (List Char) :=
  ["**", "//", "<<", ">>", "<=", ">=", "==", "!=", "->", ":=", "+=", "-=", "*=", "/=", "%=",
    "&=", "|=", "^=", "@="].map String.toList

def shortOperators : List Char := "+-*/%@&|^~<>()[]\x7b\x7d,:.;=".toList

/-- Characters of the longest operator at the front of a text. -/
def operatorLength? (c : Char) (cs : List Char) : Option Nat :=
  if longOperators.any fun op => op.isPrefixOf (c :: cs) then some 3
  else if mediumOperators.any fun op => op.isPrefixOf (c :: cs) then some 2
  else if shortOperators.contains c then some 1
  else none

/-! ## The front of a text -/

/-- What the characters at the front of a text are. -/
inductive Piece where
  /-- White space, a comment or a joined line. -/
  | skipped
  /-- A line feed. -/
  | lineFeed
  /-- A token of the given class. -/
  | token (kind : TokenKind)
deriving DecidableEq, Repr

/-- The piece that begins with `c`, and how many characters of `cs` belong to it. -/
def front (c : Char) (cs : List Char) : Except SyntaxFault (Piece × Nat) :=
  if c = ' ' || c = '\t' || c = '\x0c' || c = '\r' then .ok (.skipped, 0)
  else if c = '\n' then .ok (.lineFeed, 0)
  else if c = '#' then .ok (.skipped, (cs.takeWhile (· ≠ '\n')).length)
  else if c = '\\' then
    if ['\n'].isPrefixOf cs then .ok (.skipped, 1)
    else if ['\r', '\n'].isPrefixOf cs then .ok (.skipped, 2)
    else .error .strayBackslash
  else if isQuote c then
    match literalTail? c cs with
    | some n => .ok (.token .str, n)
    | none => .error .unterminatedString
  else if c.isDigit || (c = '.' && cs.head?.any Char.isDigit) then
    .ok (.token .number, numberTail (startsRadix c cs) c cs)
  else if startsName c then
    let tail := cs.takeWhile continuesName
    match cs.drop tail.length with
    | q :: after =>
      if isLiteralPrefix (c :: tail) && isQuote q then
        match literalTail? q after with
        | some n => .ok (.token .str, tail.length + 1 + n)
        | none => .error .unterminatedString
      else .ok (.token .name, tail.length)
    | [] => .ok (.token .name, tail.length)
  else
    match operatorLength? c cs with
    | some n => .ok (.token .op, n - 1)
    | none => .error (.invalidCharacter c)

/-! ## Line state -/

/-- What the lexer remembers between two steps. -/
structure State where
  /-- Widths of the enclosing blocks, innermost first, the module level left out. -/
  indents : List Nat
  /-- Open brackets, innermost first. -/
  brackets : List Char
  /-- Whether the next character begins a physical line. -/
  atLineStart : Bool
  /-- Whether the last token, if any, leaves its logical line open. -/
  lineOpen : Bool
deriving DecidableEq, Repr

def State.initial : State := ⟨[], [], true, false⟩

/-- The opening bracket that a closing one answers. -/
def openerOf? : Char → Option Char
  | ')' => some '('
  | ']' => some '['
  | '\x7d' => some '\x7b'
  | _ => none

def isOpener (c : Char) : Bool := c = '(' || c = '[' || c = '\x7b'

/-- The open brackets after an operator that begins with `c`. -/
def brackets? (brackets : List Char) (c : Char) : Except SyntaxFault (List Char) :=
  if isOpener c then .ok (c :: brackets)
  else match openerOf? c with
    | none => .ok brackets
    | some expected =>
      match brackets with
      | b :: outer => if b = expected then .ok outer else .error (.unmatchedBracket c)
      | [] => .error (.unmatchedBracket c)

/-- One step: the new state, the tokens written, and how many characters were read. -/
structure Step where
  state : State
  tokens : List Token
  taken : Nat
  taken_pos : 0 < taken

/-- A step over the piece that begins with `c`, on a line that has begun. -/
def pieceStep (st : State) (offset : Nat) (c : Char) (cs : List Char) :
    Except SyntaxError Step :=
  match front c cs with
  | .error fault => .error ⟨fault, offset⟩
  | .ok (.skipped, n) => .ok ⟨st, [], n + 1, by omega⟩
  | .ok (.lineFeed, n) =>
    if st.brackets.isEmpty then
      let written := if st.lineOpen then [⟨.newline, ⟨offset, offset + 1⟩, "\n"⟩] else []
      .ok ⟨{ st with atLineStart := true, lineOpen := false }, written, n + 1, by omega⟩
    else .ok ⟨st, [], n + 1, by omega⟩
  | .ok (.token kind, n) =>
    let lexeme := c :: cs.take n
    let token : Token := ⟨kind, ⟨offset, offset + Text.byteLength lexeme⟩, String.ofList lexeme⟩
    match kind, brackets? st.brackets c with
    | .op, .error fault => .error ⟨fault, offset⟩
    | .op, .ok brackets => .ok ⟨{ st with brackets, lineOpen := true }, [token], n + 1, by omega⟩
    | _, _ => .ok ⟨{ st with lineOpen := true }, [token], n + 1, by omega⟩

def isIndentation (c : Char) : Bool := c = ' ' || c = '\t' || c = '\x0c'

/-- Column reached after one more indentation character: a tab goes to the next multiple of
    eight and a form feed starts over. -/
def advanceColumn (column : Nat) (c : Char) : Nat :=
  if c = '\t' then (column / 8 + 1) * 8
  else if c = '\x0c' then 0
  else column + 1

/-- The state and tokens for a line that begins at a column. -/
def enterLine (st : State) (column offset : Nat) : Except SyntaxError (State × List Token) :=
  let current := st.indents.headD 0
  if current < column then
    .ok ({ st with indents := column :: st.indents, lineOpen := true },
      [⟨.indent, .point offset, ""⟩])
  else if column < current then
    let closed := st.indents.takeWhile (column < ·)
    let outer := st.indents.dropWhile (column < ·)
    if outer.headD 0 = column then
      .ok ({ st with indents := outer, lineOpen := true },
        closed.map fun _ => ⟨.dedent, .point offset, ""⟩)
    else .error ⟨.inconsistentDedent, offset⟩
  else .ok (st, [])

/-- A step at the start of a line: over a blank line or a comment, or over the indentation and
    the first piece of a line. -/
def lineStep (st : State) (offset : Nat) (cs : List Char) : Except SyntaxError Step :=
  let blanks := cs.takeWhile isIndentation
  let here := offset + Text.byteLength blanks
  let begun := { st with atLineStart := false }
  match cs.dropWhile isIndentation with
  | [] => .ok ⟨begun, [], blanks.length + 1, by omega⟩
  | '\n' :: _ => .ok ⟨st, [], blanks.length + 1, by omega⟩
  | '\r' :: '\n' :: _ => .ok ⟨st, [], blanks.length + 2, by omega⟩
  | '#' :: after =>
    .ok ⟨begun, [], blanks.length + 1 + (after.takeWhile (· ≠ '\n')).length, by omega⟩
  | c :: after => do
    let (entered, written) ← enterLine begun (blanks.foldl advanceColumn 0) here
    let step ← pieceStep entered here c after
    .ok ⟨step.state, written ++ step.tokens, blanks.length + step.taken, by
      have := step.taken_pos; omega⟩

def step (st : State) (offset : Nat) (c : Char) (cs : List Char) : Except SyntaxError Step :=
  if st.atLineStart && st.brackets.isEmpty then lineStep st offset (c :: cs)
  else pieceStep st offset c cs

/-- The tokens that close what is open at the end of the script. -/
def finish (st : State) (offset : Nat) : Except SyntaxError (List Token) :=
  match st.brackets with
  | b :: _ => .error ⟨.unclosedBracket b, offset⟩
  | [] =>
    let close (kind : TokenKind) : Token := ⟨kind, .point offset, ""⟩
    .ok ((if st.lineOpen then [close .newline] else []) ++
      st.indents.map (fun _ => close .dedent) ++ [close .endMarker])

/-- All steps over the remaining characters; `written` holds the tokens so far, last first. -/
def run (st : State) (offset : Nat) (cs : List Char) (written : List Token) :
    Except SyntaxError (List Token) :=
  match cs with
  | [] => do
    let closing ← finish st offset
    .ok (written.reverse ++ closing)
  | c :: rest =>
    match step st offset c rest with
    | .error e => .error e
    | .ok s =>
      run s.state (offset + Text.byteLength ((c :: rest).take s.taken))
        ((c :: rest).drop s.taken) (s.tokens.reverse ++ written)
termination_by cs.length
decreasing_by
  have := s.taken_pos
  simp only [List.length_drop, List.length_cons]
  omega

end Lexer

/-- The tokens of a script, ended by an end marker. A leading byte-order mark is skipped. -/
def tokenize (text : String) : Except SyntaxError (List Token) :=
  match text.toList with
  | '\ufeff' :: cs => Lexer.run .initial 3 cs []
  | cs => Lexer.run .initial 0 cs []

end WorkflowAudit.Script
