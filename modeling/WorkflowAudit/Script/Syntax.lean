import WorkflowAudit.Text.Span

/-!
# Syntax trees of declaration scripts

Only the shapes that the analyses look at are told apart: calls, names, attributes, constants
and containers. Operators, subscripts and conditionals are one shape with their operands, and
lambdas and comprehensions another one, whose parts see names of their own. Clauses of compound
statements stand beside each other as blocks.
-/

namespace WorkflowAudit.Script

/-- A constant. -/
inductive Literal where
  /-- A string with its escapes decoded and adjacent literals joined. -/
  | str (value : String)
  | bytes
  /-- A formatted string, whose content is not looked at. -/
  | formatted
  /-- A number as written. -/
  | number (text : String)
  | bool (value : Bool)
  | none
  | ellipsis
deriving DecidableEq, Repr, Inhabited

/-- A keyword argument; without a name it is a mapping spread into the call. -/
structure Keyword (ε : Type) where
  arg : Option String
  value : ε
  span : Span
deriving Repr, BEq

/-- An entry of a dictionary display; without a key it is a mapping spread into it. -/
structure DictItem (ε : Type) where
  key : Option ε
  value : ε
deriving Repr, BEq

/-- An expression; each carries the bytes that it covers. -/
inductive Expr where
  | name (span : Span) (id : String)
  | member (span : Span) (value : Expr) (attr : String)
  | call (span : Span) (func : Expr) (args : List Expr) (keywords : List (Keyword Expr))
  | literal (span : Span) (value : Literal)
  | dict (span : Span) (items : List (DictItem Expr))
  | list (span : Span) (items : List Expr)
  | tuple (span : Span) (items : List Expr)
  | set (span : Span) (items : List Expr)
  | starred (span : Span) (value : Expr)
  /-- A lambda or comprehension. -/
  | closure (span : Span) (parts : List Expr)
  /-- Operands of operators, subscripts and conditionals. -/
  | compound (span : Span) (parts : List Expr)
deriving Repr, BEq, Inhabited

/-- An imported name, possibly under another one. -/
structure Alias where
  name : String
  asName : Option String
deriving DecidableEq, Repr, Inhabited

/-- A statement, or one clause of a compound statement. -/
inductive Stmt where
  | assign (span : Span) (targets : List Expr) (value : Expr)
  | annAssign (span : Span) (target annotation : Expr) (value : Option Expr)
  | augAssign (span : Span) (target value : Expr)
  | expr (span : Span) (value : Expr)
  | importNames (span : Span) (names : List Alias)
  | importFrom (span : Span) (source : Option String) (level : Nat) (names : List Alias)
  /-- A clause with its keyword, the name it defines, the header expressions that are parsed,
      and its statements. -/
  | block (span : Span) (keyword : String) (name : Option String) (header : List Expr)
      (body : List Stmt)
  /-- Any other simple statement, or a decorator. -/
  | other (span : Span) (keyword : String) (exprs : List Expr)
deriving Repr, BEq, Inhabited

/-- A parsed script with the line starts of its text. -/
structure Module where
  body : List Stmt
  lines : LineIndex
deriving Repr, BEq

namespace Expr

def span : Expr → Span
  | .name s _ | .member s _ _ | .call s _ _ _ | .literal s _ | .dict s _ | .list s _
  | .tuple s _ | .set s _ | .starred s _ | .closure s _ | .compound s _ => s

/-- The same expression said to cover other bytes. -/
def withSpan (s : Span) : Expr → Expr
  | .name _ id => .name s id
  | .member _ v a => .member s v a
  | .call _ f as ks => .call s f as ks
  | .literal _ v => .literal s v
  | .dict _ is => .dict s is
  | .list _ is => .list s is
  | .tuple _ is => .tuple s is
  | .set _ is => .set s is
  | .starred _ v => .starred s v
  | .closure _ ps => .closure s ps
  | .compound _ ps => .compound s ps

def asString? : Expr → Option String
  | .literal _ (.str s) => some s
  | _ => none

def asName? : Expr → Option String
  | .name _ id => some id
  | _ => none

end Expr

/-- The parts of a call. -/
structure Call where
  span : Span
  func : Expr
  args : List Expr
  keywords : List (Keyword Expr)
deriving Repr, BEq

def Expr.asCall? : Expr → Option Call
  | .call span func args keywords => some ⟨span, func, args, keywords⟩
  | _ => none

namespace Call

/-- The last name of what is called: `f` in `f(...)` and in `m.f(...)`. -/
def callee? (call : Call) : Option String :=
  match call.func with
  | .name _ id => some id
  | .member _ _ attr => some attr
  | _ => none

def isCallTo (call : Call) (name : String) : Bool := call.callee? == some name

/-- The value of the first keyword argument with a name. -/
def keyword? (call : Call) (name : String) : Option Expr :=
  (call.keywords.find? fun k => k.arg == some name).map (·.value)

end Call

/-- The name that an import binds: the new name, or the first part of a dotted one. -/
def Alias.boundName (a : Alias) : String :=
  match a.asName with
  | some name => name
  | none => String.ofList (a.name.toList.takeWhile (· ≠ '.'))

namespace Stmt

def span : Stmt → Span
  | .assign s _ _ | .annAssign s _ _ _ | .augAssign s _ _ | .expr s _ | .importNames s _
  | .importFrom s _ _ _ | .block s _ _ _ _ | .other s _ _ => s

/-- The expressions that belong to a statement itself. -/
def exprs : Stmt → List Expr
  | .assign _ targets value => targets ++ [value]
  | .annAssign _ target annotation value => [target, annotation] ++ value.toList
  | .augAssign _ target value => [target, value]
  | .expr _ value => [value]
  | .block _ _ _ header _ => header
  | .other _ _ exprs => exprs
  | .importNames .. | .importFrom .. => []

/-- The statements inside a block. -/
def inner : Stmt → List Stmt
  | .block _ _ _ _ body => body
  | _ => []

def isSimple : Stmt → Bool
  | .block .. => false
  | _ => true

/-- The name and value of `name = value` or `name: annotation = value`. -/
def binding? : Stmt → Option (String × Expr)
  | .assign _ [.name _ id] value => some (id, value)
  | .annAssign _ (.name _ id) _ (some value) => some (id, value)
  | _ => none

end Stmt

end WorkflowAudit.Script
