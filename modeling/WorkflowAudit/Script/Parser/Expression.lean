import WorkflowAudit.Script.Parser.Cursor
import WorkflowAudit.Script.StringLiteral
import WorkflowAudit.Script.Syntax

/-!
# Expressions

Recursive descent, one function for each rank of the grammar. Wherever the grammar comes back
to itself it opens a level (a bracket, a block, a unary operator, a postfix), so the functions
need not call each other in a circle: each takes the productions of the level below as an
argument, and `Level.ofBudget` in the module on statements builds the levels one on another.
-/

namespace WorkflowAudit.Script

/-- The productions that are entered by opening a level. -/
structure Level where
  test : Parser Expr
  notTest : Parser Expr
  factor : Parser Expr
  power : Parser Expr
  /-- A call, subscript or attribute after an expression that starts at an offset, with the
      ones that follow it. -/
  link : Nat → Expr → Parser Expr
  /-- What follows an opening parenthesis at an offset. -/
  paren : Nat → Parser Expr
  /-- What follows an opening square bracket at an offset. -/
  list : Nat → Parser Expr
  /-- What follows an opening brace at an offset. -/
  brace : Nat → Parser Expr
  /-- The statements of a block. -/
  suite : Parser (List Stmt)

namespace Parser

def compareOps : List String := ["<", ">", "==", ">=", "<=", "!="]

/-- Binary operators from the loosest rank to the tightest. -/
def binaryRanks : List (List String) :=
  [["|"], ["^"], ["&"], ["<<", ">>"], ["+", "-"], ["*", "/", "%", "//", "@"]]

def canStartExpr (c : Cursor) : Bool :=
  let t := c.peek
  match t.kind with
  | .number | .str => true
  | .name =>
    !keywords.contains t.text ||
      ["not", "lambda", "await", "None", "True", "False"].contains t.text
  | .op => ["(", "[", "\x7b", "-", "+", "~", "*", "..."].contains t.text
  | _ => false

def atCompareOp (c : Cursor) : Bool :=
  c.isAnyOp compareOps || c.isName "in" || c.isName "is" ||
    (c.isName "not" && c.second?.any fun t => t.kind = .name && t.text = "in")

def atComprehension (c : Cursor) : Bool :=
  c.isName "for" ||
    (c.isName "async" && c.second?.any fun t => t.kind = .name && t.text = "for")

def atKeywordArgument (c : Cursor) : Bool :=
  c.isKind .name && c.second?.any fun t => t.kind = .op && t.text = "="

def atPostfix (c : Cursor) : Bool := c.isOp "(" || c.isOp "[" || c.isOp "."

/-- Adjacent string literals as one constant. -/
def strings : Parser Expr := do
  let start ← here
  let pieces ← loop (·.isKind .str) fun t =>
    match StringPiece.ofToken? t.text with
    | some piece => return .item piece
    | none => failAt .malformedString t.span.start
  let value : Literal :=
    if pieces.any (·.isFormatted) then .formatted
    else if pieces.any (·.isBytes) then .bytes
    else .str (String.join (pieces.map (·.value)))
  return .literal (← spanFrom start) value

/-- Skips the parameters of a lambda up to the colon that ends them. -/
def skipParameters (depth : Nat) : Parser Unit := fun c =>
  match _h : c.rest with
  | [] => .error ⟨.missing ":", c.peek.span.start⟩
  | t :: _ =>
    if t.kind = .newline then .error ⟨.missing ":", t.span.start⟩
    else if t.kind = .op && t.text = ":" && depth = 0 then .ok ⟨(), c, Nat.le_refl _⟩
    else
      let depth :=
        if t.kind = .op && ["(", "[", "\x7b"].contains t.text then depth + 1
        else if t.kind = .op && [")", "]", "\x7d"].contains t.text then depth - 1
        else depth
      match skipParameters depth c.advance with
      | .error e => .error e
      | .ok ⟨_, c₁, h₁⟩ => .ok ⟨(), c₁, by rw [Cursor.length_advance] at h₁; omega⟩
termination_by c => c.rest.length
decreasing_by
  rw [Cursor.length_advance]
  have : c.rest.length = (t :: _).length := congrArg List.length _h
  simp only [List.length_cons] at this
  omega

/-- Operands of a run of operators, as one node when there is more than one. -/
def chain (isOperator : Cursor → Bool) (operand : Parser Expr) : Parser Expr := do
  let start ← here
  let first ← operand
  if ← ask isOperator then
    let more ← loopItems isOperator operand
    return .compound (← spanFrom start) (first :: more)
  else return first

section

variable (inner : Level)

def atom : Parser Expr := do
  let t ← ask Cursor.peek
  match t.kind with
  | .number =>
    let _ ← bump
    return .literal t.span (.number t.text)
  | .str => strings
  | .name =>
    if t.text = "True" then
      let _ ← bump
      return .literal t.span (.bool true)
    else if t.text = "False" then
      let _ ← bump
      return .literal t.span (.bool false)
    else if t.text = "None" then
      let _ ← bump
      return .literal t.span .none
    else if keywords.contains t.text then unexpectedToken
    else
      let _ ← bump
      return .name t.span t.text
  | .op =>
    if t.text = "..." then
      let _ ← bump
      return .literal t.span .ellipsis
    else if t.text = "(" then
      let _ ← bump
      nested (inner.paren t.span.start)
    else if t.text = "[" then
      let _ ← bump
      nested (inner.list t.span.start)
    else if t.text = "\x7b" then
      let _ ← bump
      nested (inner.brace t.span.start)
    else unexpectedToken
  | _ => unexpectedToken

/-- An expression with the postfixes that follow it. -/
def links (start : Nat) (base : Expr) : Parser Expr := do
  if ← ask atPostfix then nested (inner.link start base)
  else return base

def primary : Parser Expr := do
  let start ← here
  let base ← atom inner
  links inner start base

def power : Parser Expr := do
  let start ← here
  if ← eatName "await" then
    let operand ← nested inner.power
    return .compound (← spanFrom start) [operand]
  else
    let base ← primary inner
    if ← eatOp "**" then
      let exponent ← nested inner.factor
      return .compound (← spanFrom start) [base, exponent]
    else return base

def factor : Parser Expr := do
  if ← ask (·.isAnyOp ["-", "+", "~"]) then
    let sign ← bump
    let operand ← nested inner.factor
    return .compound (← spanFrom sign.span.start) [operand]
  else power inner

/-- An operand of the operators in `ranks` and of all tighter ones. -/
def binaryFrom : List (List String) → Parser Expr
  | [] => factor inner
  | ops :: tighter => chain (·.isAnyOp ops) (binaryFrom tighter)

def binary : Parser Expr := binaryFrom inner binaryRanks

def comparison : Parser Expr := do
  let start ← here
  let first ← binary inner
  if ← ask atCompareOp then
    let more ← loop atCompareOp fun t => do
      if t.kind = .name && (t.text = "not" || t.text = "is") then
        let _ ← eatName "in"
        let _ ← eatName "not"
      return .item (← binary inner)
    return .compound (← spanFrom start) (first :: more)
  else return first

def notTest : Parser Expr := do
  if ← ask (·.isName "not") then
    let word ← bump
    let operand ← nested inner.notTest
    return .compound (← spanFrom word.span.start) [operand]
  else comparison inner

def andTest : Parser Expr := chain (·.isName "and") (notTest inner)

def orTest : Parser Expr := chain (·.isName "or") (andTest inner)

def lambda : Parser Expr := do
  let word ← bump
  skipParameters 0
  let _ ← bump
  let body ← nested inner.test
  return .closure (← spanFrom word.span.start) [body]

/-- A lambda, or an expression with its conditional. -/
def test : Parser Expr := do
  if ← ask (·.isName "lambda") then lambda inner
  else
    let start ← here
    let body ← orTest inner
    if ← eatName "if" then
      let condition ← orTest inner
      expectWord "else"
      let otherwise ← nested inner.test
      return .compound (← spanFrom start) [body, condition, otherwise]
    else return body

def namedTest : Parser Expr := do
  let start ← here
  let target ← test inner
  if ← eatOp ":=" then
    let value ← test inner
    return .compound (← spanFrom start) [target, value]
  else return target

def starOrTest : Parser Expr := do
  if ← ask (·.isOp "*") then
    let star ← bump
    let value ← binary inner
    return .starred (← spanFrom star.span.start) value
  else test inner

def starOrNamed : Parser Expr := do
  if ← ask (·.isOp "*") then starOrTest inner else namedTest inner

/-- One expression, or several separated by commas as a tuple. -/
def starExpressions : Parser Expr := do
  let start ← here
  let first ← starOrTest inner
  if ← ask (·.isOp ",") then
    let more ← separated "," (fun c => !canStartExpr c) (starOrTest inner)
    return .tuple (← spanFrom start) (first :: more)
  else return first

def yieldExpr : Parser Expr := do
  let word ← bump
  let parts ←
    if ← eatName "from" then pure [← test inner]
    else if ← ask canStartExpr then pure [← starExpressions inner]
    else pure []
  return .compound (← spanFrom word.span.start) parts

def yieldOrStar : Parser Expr := do
  if ← ask (·.isName "yield") then yieldExpr inner else starExpressions inner

/-- A target of a comprehension clause. -/
def comprehensionTarget : Parser Expr := do
  if ← ask (·.isOp "*") then starOrTest inner else binary inner

/-- The clauses that follow the element of a comprehension. -/
def comprehension : Parser (List Expr) := do
  let clauses ← loop atComprehension fun t => do
    if t.text = "async" then
      let _ ← bump
    let first ← comprehensionTarget inner
    let targets ← separated "," (·.isName "in") (comprehensionTarget inner)
    expectWord "in"
    let source ← orTest inner
    let conditions ← loopItems (·.isName "if") (orTest inner)
    return .item (first :: targets ++ source :: conditions)
  return clauses.flatten

/-- Items up to a closing bracket after the first one, or the clauses that make it a
    comprehension. -/
def display (closing : String) (start : Nat) (first : Expr)
    (build : Span → List Expr → Expr) : Parser Expr := do
  if ← ask atComprehension then
    let clauses ← comprehension inner
    expectOp closing
    return .closure (← spanFrom start) (first :: clauses)
  else
    let more ← separated "," (·.isOp closing) (starOrNamed inner)
    expectOp closing
    return build (← spanFrom start) (first :: more)

/-- A parenthesised expression covers what stands between the parentheses; a tuple, a
    comprehension and a yield cover the parentheses too. -/
def paren (start : Nat) : Parser Expr := do
  if ← eatOp ")" then return .tuple (← spanFrom start) []
  else if ← ask (·.isName "yield") then
    let value ← yieldExpr inner
    expectOp ")"
    return value.withSpan (← spanFrom start)
  else
    let first ← starOrNamed inner
    if ← ask fun c => atComprehension c || c.isOp "," then
      display inner ")" start first .tuple
    else
      expectOp ")"
      return first

def list (start : Nat) : Parser Expr := do
  if ← eatOp "]" then return .list (← spanFrom start) []
  else
    let first ← starOrNamed inner
    display inner "]" start first .list

/-- The value of a dictionary entry whose key, if it has one, has been read. -/
def dictValue (key : Option Expr) : Parser (DictItem Expr) := do
  match key with
  | some k =>
    expectOp ":"
    return ⟨some k, ← test inner⟩
  | none => return ⟨none, ← binary inner⟩

def dictItem : Parser (DictItem Expr) := do
  if ← eatOp "**" then dictValue inner none
  else
    let key ← test inner
    dictValue inner (some key)

/-- The entries of a dictionary after the first one, or its comprehension clauses. -/
def dictFrom (start : Nat) (first : DictItem Expr) : Parser Expr := do
  if first.key.isSome && (← ask atComprehension) then
    let clauses ← comprehension inner
    expectOp "\x7d"
    return .closure (← spanFrom start) (first.key.toList ++ first.value :: clauses)
  else
    let more ← separated "," (·.isOp "\x7d") (dictItem inner)
    expectOp "\x7d"
    return .dict (← spanFrom start) (first :: more)

def brace (start : Nat) : Parser Expr := do
  if ← eatOp "\x7d" then return .dict (← spanFrom start) []
  else if ← eatOp "**" then
    let first ← dictValue inner none
    dictFrom inner start first
  else
    let first ← starOrNamed inner
    if ← ask (·.isOp ":") then
      let item ← dictValue inner (some first)
      dictFrom inner start item
    else display inner "\x7d" start first .set

/-- One argument of a call, positional or by keyword. -/
def argument : Parser (Expr ⊕ Keyword Expr) := do
  let start ← here
  if ← eatOp "**" then
    let value ← test inner
    return .inr ⟨none, value, ← spanFrom start⟩
  else if ← ask (·.isOp "*") then return .inl (← starOrTest inner)
  else if ← ask atKeywordArgument then
    let arg ← identifier
    let _ ← bump
    let value ← test inner
    return .inr ⟨some arg, value, ← spanFrom start⟩
  else
    let value ← namedTest inner
    if ← ask atComprehension then
      let clauses ← comprehension inner
      return .inl (.closure (← spanFrom start) (value :: clauses))
    else return .inl value

def arguments : Parser (List (Expr ⊕ Keyword Expr)) := do
  if ← ask (·.isOp ")") then return []
  else
    let first ← argument inner
    let more ← separated "," (·.isOp ")") (argument inner)
    return first :: more

/-- One index or slice of a subscript. -/
def slice : Parser (List Expr) := do
  let lower ←
    if ← ask fun c => c.isOp ":" || c.isOp "]" then pure []
    else pure [← starOrNamed inner]
  let bounds ← loop (·.isOp ":") fun _ => do
    if ← ask (·.isAnyOp [":", "]", ","]) then return .item []
    else return .item [← test inner]
  return lower ++ bounds.flatten

def subscript : Parser (List Expr) := do
  let first ← slice inner
  let more ← separated "," (·.isOp "]") (slice inner)
  return first ++ more.flatten

/-- One call, subscript or attribute, and those after it one level deeper. -/
def link (start : Nat) (base : Expr) : Parser Expr := do
  if ← eatOp "(" then
    let given ← arguments inner
    expectOp ")"
    let args := given.filterMap Sum.getLeft?
    let keywords := given.filterMap Sum.getRight?
    links inner start (.call (← spanFrom start) base args keywords)
  else if ← eatOp "[" then
    let parts ← subscript inner
    expectOp "]"
    links inner start (.compound (← spanFrom start) (base :: parts))
  else
    expectOp "."
    let attr ← identifier
    links inner start (.member (← spanFrom start) base attr)

end

end Parser

end WorkflowAudit.Script
