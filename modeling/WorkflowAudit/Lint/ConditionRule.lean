import WorkflowAudit.Lint.ExpressionRules
import WorkflowAudit.Script.Lexer

/-!
# Complexity of conditions

A condition is scored by its tokens. What stands in the arguments of a call, in a subscript or
in a container does not count; parentheses that only group do not hide what they hold.
-/

namespace WorkflowAudit.Lint

open Script

def symbolOperators : List String := [
  "+", "-", "*", "/", "//", "%", "**", "@", "&", "|", "^", "~", "<<", ">>", "<", ">", "<=", ">=",
  "==", "!="]

def wordOperators : List String := ["and", "or", "not", "is", "in"]

/-- Operators that count inside string constants. -/
def textOperators : List String := ["&&", "||", " and ", " or "]

def openingBrackets : List String := ["(", "[", "\x7b"]

def closingBrackets : List String := [")", "]", "\x7d"]

/-- Whether a bracket after this token belongs to an operand that ends with it. -/
def endsOperand (t : Token) : Bool :=
  match t.kind with
  | .name => !wordOperators.contains t.text && !(["if", "else", "lambda"].contains t.text)
  | .str | .number => true
  | .op => closingBrackets.contains t.text
  | _ => false

/-- State of the scoring: whether each open bracket hides its content, the token before, and
    the score. -/
structure Scoring where
  hidden : List Bool
  previous : Option Token
  score : Nat

/-- Operators that a token counts for; `not in` and `is not` count once. -/
def weight (previous : Option Token) (t : Token) : Nat :=
  let after (word : String) : Bool := previous.any (·.text = word)
  match t.kind with
  | .op => if symbolOperators.contains t.text then 1 else 0
  | .name =>
    if (t.text = "in" && after "not") || (t.text = "not" && after "is") then 0
    else if wordOperators.contains t.text then 1
    else 0
  | .str => textOperators.foldl (fun n op => n + Text.countOccurrences t.text op) 0
  | _ => 0

/-- One token of a condition. -/
def scoreToken (s : Scoring) (t : Token) : Scoring :=
  let isOp (texts : List String) : Bool := t.kind = .op && texts.contains t.text
  let next :=
    if isOp openingBrackets then
      let isGroup := t.text = "(" && !s.previous.any endsOperand
      { s with hidden := (!isGroup) :: s.hidden }
    else if isOp closingBrackets then { s with hidden := s.hidden.drop 1 }
    else if s.hidden.contains true then s
    else { s with score := s.score + weight s.previous t }
  { next with previous := some t }

/-- The score of the tokens that lie inside a span. -/
def complexity (tokens : List Token) (s : Span) : Nat :=
  ((tokens.filter fun t => s.contains t.span).foldl scoreToken ⟨[], none, 0⟩).score

def conditionFindings (maxOperators : Nat) (u : SourceUnit) :
    List (String × Location × Option String) :=
  match tokenize u.text with
  | .error _ => []
  | .ok tokens =>
    (conditions u).filterMap fun (call, condition) =>
      let score := complexity tokens condition.span
      if score ≤ maxOperators then none
      else some (s!"Complex condition (complexity: {score}); extract to a named variable",
        u.location call.span.start,
        some "Create: is_deploy_ready = condition1 & condition2 & condition3")

def complexConditions (maxOperators : Nat) : Rule SourceUnit :=
  check "WAG011" s!"Flag conditions with more than {maxOperators} operators" .style .low
    (conditionFindings maxOperators)

end WorkflowAudit.Lint
