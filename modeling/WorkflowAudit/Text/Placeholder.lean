import WorkflowAudit.Text.CharClass
import WorkflowAudit.Text.Search

/-!
# Expressions in texts

An expression is written between `${{` and the next closing pair on the same line. A text
falls into expressions and the characters between them.
-/

namespace WorkflowAudit.Text

/-- What follows a given start of a text. -/
def stripStart? (start : List Char) (cs : List Char) : Option (List Char) :=
  if start.isPrefixOf cs then some (cs.drop start.length) else none

def expressionOpening : List Char := ['$', '\x7b', '\x7b']

def expressionClosing : List Char := ['\x7d', '\x7d']

/-- The text before the next closing pair on the line, and the text after the pair. -/
def cutClosing? : List Char → Option (List Char × List Char)
  | [] => none
  | c :: cs =>
    match stripStart? expressionClosing (c :: cs) with
    | some rest => some ([], rest)
    | none =>
      if c = '\n' then none
      else (cutClosing? cs).map fun (body, rest) => (c :: body, rest)

/-- The body of the expression that a text starts with, and what follows it. -/
def expressionAt? (cs : List Char) : Option (List Char × List Char) :=
  (stripStart? expressionOpening cs).bind cutClosing?

theorem length_stripStart? {start cs rest : List Char} (h : stripStart? start cs = some rest) :
    rest.length ≤ cs.length := by
  unfold stripStart? at h
  split at h
  · simp only [Option.some.injEq] at h
    subst h
    simp
  · simp at h

theorem length_cutClosing? {cs body rest : List Char}
    (h : cutClosing? cs = some (body, rest)) : rest.length < cs.length := by
  induction cs generalizing body with
  | nil => simp [cutClosing?] at h
  | cons c cs ih =>
    unfold cutClosing? at h
    split at h
    · rename_i after hs
      simp only [Option.some.injEq, Prod.mk.injEq] at h
      obtain ⟨-, rfl⟩ := h
      unfold stripStart? at hs
      split at hs
      · simp only [Option.some.injEq] at hs
        subst hs
        simp only [List.length_drop, expressionClosing, List.length_cons, List.length_nil]
        omega
      · simp at hs
    · split at h
      · simp at h
      · cases hc : cutClosing? cs with
        | none => simp [hc] at h
        | some found =>
          obtain ⟨b, r⟩ := found
          simp only [hc, Option.map_some, Option.some.injEq, Prod.mk.injEq] at h
          obtain ⟨-, rfl⟩ := h
          have := ih hc
          simp only [List.length_cons]
          omega

theorem length_expressionAt? {cs body rest : List Char}
    (h : expressionAt? cs = some (body, rest)) : rest.length < cs.length := by
  unfold expressionAt? at h
  cases hs : stripStart? expressionOpening cs with
  | none => simp [hs] at h
  | some after =>
    simp only [hs, Option.bind_some] at h
    have := length_cutClosing? h
    have := length_stripStart? hs
    omega

/-- A character outside expressions, or the body of an expression. -/
inductive Piece where
  | plain (c : Char)
  | expression (body : List Char)
deriving DecidableEq, Repr

/-- The pieces of a text, each expression taken as far left as possible. -/
def pieces : List Char → List Piece
  | [] => []
  | c :: cs =>
    match _found : expressionAt? (c :: cs) with
    | some (body, rest) => .expression body :: pieces rest
    | none => .plain c :: pieces cs
termination_by cs => cs.length
decreasing_by
  · exact length_expressionAt? _found
  · simp

/-- The bodies of the expressions of a text. -/
def expressions (text : String) : List (List Char) :=
  (pieces text.toList).filterMap fun
    | .plain _ => none
    | .expression body => some body

/-- A text with a blank in place of each expression. -/
def withoutExpressions (text : String) : String :=
  String.ofList ((pieces text.toList).map fun
    | .plain c => c
    | .expression _ => ' ')

def hasExpression (text : String) : Bool := !(expressions text).isEmpty

/-! ## Expressions of a given form -/

/-- What a reader finds at the leftmost place where it succeeds, and whether it took the whole
    text. -/
def firstRead (read : List Char → Option (α × List Char)) : Bool → List Char → Option (α × Bool)
  | atStart, cs =>
    match read cs with
    | some (found, rest) => some (found, atStart && rest.isEmpty)
    | none =>
      match cs with
      | [] => none
      | _ :: cs => firstRead read false cs

/-- A reader inside an expression, with white space around what it reads. -/
def insideExpression (read : List Char → Option (α × List Char)) (cs : List Char) :
    Option (α × List Char) := do
  let body ← stripStart? expressionOpening cs
  let (found, after) ← read (body.dropWhile isWhiteSpace)
  let rest ← stripStart? expressionClosing (after.dropWhile isWhiteSpace)
  some (found, rest)

/-- Functions that tell how a run went so far. -/
def statusFunctions : List String := ["always", "failure", "success", "cancelled"]

/-- A call of a status function. -/
def statusCall? (cs : List Char) : Option (String × List Char) :=
  statusFunctions.findSome? fun name =>
    (stripStart? (name ++ "()").toList cs).map fun rest => (name, rest)

/-- The name of a secret. -/
def secretName? (cs : List Char) : Option (String × List Char) := do
  let after ← stripStart? "secrets.".toList cs
  let name := after.takeWhile isWord
  if name.isEmpty then none else some (String.ofList name, after.drop name.length)

/-- The first status function called by an expression of its own, and whether that is the whole
    text. -/
def statusExpression? (text : String) : Option (String × Bool) :=
  firstRead (insideExpression statusCall?) true text.toList

/-- The first secret named by an expression of its own, and whether that is the whole text. -/
def secretExpression? (text : String) : Option (String × Bool) :=
  firstRead (insideExpression secretName?) true text.toList

end WorkflowAudit.Text
