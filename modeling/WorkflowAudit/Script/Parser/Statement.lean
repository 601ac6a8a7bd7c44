import WorkflowAudit.Script.Lexer
import WorkflowAudit.Script.Parser.Expression

/-!
# Statements, and the parser as a whole

The headers of `for`, `with`, `except`, `match`, `case` and the parameters of `def` and `class`
are skipped, since no analysis looks at them. `Level.ofBudget` ties the grammar together: the
productions of a level are those of this folder over the level below, and the lowest level has
no room for anything.
-/

namespace WorkflowAudit.Script

namespace Parser

def augmentedOps : List String :=
  ["+=", "-=", "*=", "/=", "//=", "%=", "@=", "&=", "|=", "^=", ">>=", "<<=", "**="]

/-- Keywords that introduce a clause of a compound statement. -/
def blockKeywords : List String :=
  ["if", "elif", "else", "while", "for", "with", "try", "except", "finally", "def", "class",
    "async"]

/-- Whether the current logical line ends with a colon. -/
def lineEndsWithColon (c : Cursor) : Bool :=
  ((c.rest.takeWhile (·.kind ≠ .newline)).getLast?).any fun t => t.kind = .op && t.text = ":"

def atBlock (c : Cursor) : Bool :=
  c.isKind .name &&
    (blockKeywords.contains c.peek.text ||
      (["match", "case"].contains c.peek.text && lineEndsWithColon c))

def atStatementEnd (c : Cursor) : Bool :=
  c.isKind .newline || c.isKind .endMarker || c.isOp ";"

/-- Skips a header up to and with the colon that ends it. -/
def skipHeader (depth lambdas : Nat) : Parser Unit := fun c =>
  match _h : c.rest with
  | [] => .error ⟨.missing ":", c.peek.span.start⟩
  | t :: _ =>
    let colon := t.kind = .op && t.text = ":" && depth = 0
    if t.kind = .newline then .error ⟨.missing ":", t.span.start⟩
    else if colon && lambdas = 0 then
      .ok ⟨(), c.advance, by rw [Cursor.length_advance]; omega⟩
    else
      let lambdas :=
        if t.kind = .name && t.text = "lambda" && depth = 0 then lambdas + 1
        else if colon then lambdas - 1
        else lambdas
      let depth :=
        if t.kind = .op && ["(", "[", "\x7b"].contains t.text then depth + 1
        else if t.kind = .op && [")", "]", "\x7d"].contains t.text then depth - 1
        else depth
      match skipHeader depth lambdas c.advance with
      | .error e => .error e
      | .ok ⟨_, c₁, h₁⟩ => .ok ⟨(), c₁, by rw [Cursor.length_advance] at h₁; omega⟩
termination_by c => c.rest.length
decreasing_by
  rw [Cursor.length_advance]
  have : c.rest.length = (t :: _).length := congrArg List.length _h
  simp only [List.length_cons] at this
  omega

def dottedName : Parser String := do
  let first ← identifier
  let more ← loopItems (·.isOp ".") identifier
  return ".".intercalate (first :: more)

def asName : Parser (Option String) := do
  if ← eatName "as" then return some (← identifier) else return none

def dottedAlias : Parser Alias := do
  let name ← dottedName
  return ⟨name, ← asName⟩

def plainAlias : Parser Alias := do
  let name ← identifier
  return ⟨name, ← asName⟩

def importNames (span : Parser Span) : Parser Stmt := do
  let first ← dottedAlias
  let more ← loopItems (·.isOp ",") dottedAlias
  return .importNames (← span) (first :: more)

/-- Leading dots of a relative import; an ellipsis counts as three. -/
def importLevel : Parser Nat := do
  let dots ← loop (·.isAnyOp [".", "..."]) fun t =>
    return .item (if t.text = "." then 1 else 3)
  return dots.foldl (· + ·) 0

def importFrom (span : Parser Span) : Parser Stmt := do
  let level ← importLevel
  let source ← if ← ask (·.isName "import") then pure none else some <$> dottedName
  expectWord "import"
  if ← eatOp "*" then return .importFrom (← span) source level [⟨"*", none⟩]
  else
    let inParens ← eatOp "("
    let first ← plainAlias
    let more ← separated "," (fun c => inParens && c.isOp ")") plainAlias
    if inParens then expectOp ")"
    return .importFrom (← span) source level (first :: more)

section

variable (inner : Level)

/-- Targets and value of an assignment after its first target: the last expression of the chain
    is the value. -/
def assignment (first : Expr) : Parser (List Expr × Expr) := do
  let more ← loopItems (·.isOp "=") (yieldOrStar inner)
  return ((first :: more).dropLast, more.getLastD first)

def exprStatement (span : Parser Span) : Parser Stmt := do
  let first ← starExpressions inner
  if ← eatOp ":" then
    let annotation ← test inner
    let value ← if ← eatOp "=" then some <$> yieldOrStar inner else pure none
    return .annAssign (← span) first annotation value
  else if ← eat (·.isAnyOp augmentedOps) then
    let value ← yieldOrStar inner
    return .augAssign (← span) first value
  else if ← ask (·.isOp "=") then
    let (targets, value) ← assignment inner first
    return .assign (← span) targets value
  else return .expr (← span) first

/-- The expressions of a simple statement that begins with a keyword; the keyword has been
    taken. -/
def keywordOperands (word : String) : Parser (List Expr) := do
  match word with
  | "return" =>
    if ← ask atStatementEnd then return [] else return [← starExpressions inner]
  | "raise" =>
    if ← ask atStatementEnd then return []
    else
      let raised ← test inner
      if ← eatName "from" then return [raised, ← test inner] else return [raised]
  | "del" => return [← starExpressions inner]
  | "assert" =>
    let condition ← test inner
    if ← eatOp "," then return [condition, ← test inner] else return [condition]
  | "global" | "nonlocal" =>
    let _ ← identifier
    let _ ← loopItems (·.isOp ",") identifier
    return []
  | _ => return []

/-- Keywords of simple statements whose operands are kept without further structure. -/
def simpleKeywords : List String :=
  ["pass", "break", "continue", "return", "raise", "del", "assert", "global", "nonlocal"]

def smallStatement : Parser Stmt := do
  let t ← ask Cursor.peek
  let span := spanFrom t.span.start
  let word := if t.kind = .name then t.text else ""
  if simpleKeywords.contains word then
    let _ ← bump
    let operands ← keywordOperands inner word
    return .other (← span) word operands
  else if word = "import" then
    let _ ← bump
    importNames span
  else if word = "from" then
    let _ ← bump
    importFrom span
  else if word = "yield" then
    let value ← yieldExpr inner
    return .expr (← span) value
  else exprStatement inner span

/-- The simple statements of one line. -/
def simpleStatements : Parser (List Stmt) := do
  let first ← smallStatement inner
  let more ← separated ";" (·.isKind .newline) (smallStatement inner)
  unless ← ask (·.isKind .endMarker) do expectKind .newline .missingStatementEnd
  return first :: more

/-- Name and parsed header of a clause whose keyword has been taken. -/
def blockHeader (keyword : String) : Parser (Option String × List Expr) := do
  match keyword with
  | "if" | "elif" | "while" =>
    let condition ← namedTest inner
    expectOp ":"
    return (none, [condition])
  | "else" | "try" | "finally" =>
    expectOp ":"
    return (none, [])
  | "def" | "class" =>
    let name ← identifier
    skipHeader 0 0
    return (some name, [])
  | "for" | "with" | "except" | "match" | "case" =>
    skipHeader 0 0
    return (none, [])
  | other => failWith (.unexpectedText other)

def block : Parser Stmt := do
  let first ← bump
  let keyword ← if first.text = "async" then (·.text) <$> bump else pure first.text
  let (name, header) ← blockHeader inner keyword
  let body ← nested inner.suite
  return .block (← spanFrom first.span.start) keyword name header body

def decorator : Parser Stmt := do
  let sign ← bump
  let value ← namedTest inner
  expectKind .newline .missingNewlineAfterDecorator
  return .other (← spanFrom sign.span.start) "@" [value]

def statement : Parser (List Stmt) := do
  if ← ask (·.isOp "@") then return [← decorator inner]
  else if ← ask atBlock then return [← block inner]
  else simpleStatements inner

/-- The statements of a block: the rest of the line, or an indented block. -/
def suite : Parser (List Stmt) := do
  if ← eat (·.isKind .newline) then
    expectKind .indent .missingBlock
    let body ← many (fun c => !c.isKind .dedent && !c.isKind .endMarker) (statement inner)
    let _ ← eat (·.isKind .dedent)
    return body.flatten
  else simpleStatements inner

/-- What stands at module level: a statement, or the end of an empty line. -/
def topLevel : Parser (List Stmt) := do
  if ← eat (·.isKind .newline) then return []
  else if ← ask fun c => c.isKind .indent || c.isKind .dedent then unexpectedToken
  else statement inner

def statements : Parser (List Stmt) := do
  let body ← many (fun c => !c.isKind .endMarker) (topLevel inner)
  return body.flatten

end

end Parser

namespace Level

/-- The level that has no room. -/
def exhausted : Level where
  test := Parser.failWith .tooManyLevels
  notTest := Parser.failWith .tooManyLevels
  factor := Parser.failWith .tooManyLevels
  power := Parser.failWith .tooManyLevels
  link _ _ := Parser.failWith .tooManyLevels
  paren _ := Parser.failWith .tooManyLevels
  list _ := Parser.failWith .tooManyLevels
  brace _ := Parser.failWith .tooManyLevels
  suite := Parser.failWith .tooManyLevels

/-- The productions above a level. -/
def above (inner : Level) : Level where
  test := Parser.test inner
  notTest := Parser.notTest inner
  factor := Parser.factor inner
  power := Parser.power inner
  link := Parser.link inner
  paren := Parser.paren inner
  list := Parser.list inner
  brace := Parser.brace inner
  suite := Parser.suite inner

/-- The productions that can open one level less than the budget. -/
def ofBudget : Nat → Level
  | 0 => exhausted
  | n + 1 => above (ofBudget n)

end Level

/-- The syntax tree of a script. -/
def parse (text : String) : Except SyntaxError Module := do
  let tokens ← tokenize text
  let parsed ← Parser.statements (Level.ofBudget levelLimit) (Cursor.ofTokens tokens)
  return ⟨parsed.value, LineIndex.ofText text⟩

end WorkflowAudit.Script
