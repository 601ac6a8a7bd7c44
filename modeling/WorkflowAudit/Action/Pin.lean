import WorkflowAudit.Text.CharClass
import WorkflowAudit.Text.Digits
import WorkflowAudit.Text.Search

/-!
# Pinning of actions

A reference `owner/repository@ref` is pinned when its ref cannot move: a full commit hash or a
version tag. Local actions need no pin.
-/

namespace WorkflowAudit

/-- How an action reference is pinned. -/
inductive Pin where
  | pinned
  /-- There is no ref. -/
  | unpinned
  /-- The ref looks like a branch. -/
  | branch (ref : String)
deriving DecidableEq, Repr

namespace Action

def isLocal (reference : String) : Bool := Text.startsWith reference "./"

/-- A full commit hash in either case. -/
def isCommitHash (ref : String) : Bool :=
  ref.toList.length = 40 && ref.toList.all Text.isHexDigit

/-- What follows the first at sign decides; anything that starts like a version or has a point
    counts as a version. -/
def pin (reference : String) : Pin :=
  if isLocal reference then .pinned
  else
    match Text.cutAt? '@' reference with
    | none => .unpinned
    | some (_, ref) =>
      if isCommitHash ref || Text.startsWith ref "v" || Text.contains ref "." then .pinned
      else .branch ref

/-- Numbers with single points between them; `afterDigit` tells whether a digit came just
    before. -/
def isDottedNumber (afterDigit : Bool) : List Char → Bool
  | [] => afterDigit
  | c :: cs =>
    if c = '.' then afterDigit && isDottedNumber false cs
    else Text.isDecimalDigit c && isDottedNumber true cs

/-- A tag such as `v4` or `v4.1.2`. -/
def isVersionTag (ref : String) : Bool :=
  match ref.toList with
  | 'v' :: number => isDottedNumber false number
  | _ => false

def isLowerHexDigit (c : Char) : Bool := c.isDigit || ('a' ≤ c && c ≤ 'f')

/-- A full commit hash in lower case. -/
def isLowerCommitHash (ref : String) : Bool :=
  ref.toList.length = 40 && ref.toList.all isLowerHexDigit

/-- Whether a reference ends in an at sign and a full commit hash or a version tag. -/
def isStrictlyPinned (reference : String) : Bool :=
  isLocal reference ||
    (reference.toList.contains '@' &&
      let ref := Text.afterLast '@' reference
      isLowerCommitHash ref || isVersionTag ref)

/-- The reference without its ref. -/
def name (reference : String) : String :=
  ((Text.cutAt? '@' reference).map Prod.fst).getD reference

/-- The owner and repository of a reference, without a path inside the repository. -/
def repository (reference : String) : String :=
  match Text.cutAt? '/' (name reference) with
  | none => name reference
  | some (owner, path) =>
    owner ++ "/" ++ ((Text.cutAt? '/' path).map Prod.fst).getD path

end Action

end WorkflowAudit
