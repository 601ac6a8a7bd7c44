import WorkflowAudit.Data.Sorting
import WorkflowAudit.Text.Span

/-!
# Edits of a text

Edits are collected against one text and applied together. They come in groups, and a group is
applied as a whole or not at all: it is dropped when one of its edits is no range of the text,
or overlaps an edit accepted before it.
-/

namespace WorkflowAudit

/-- A range of a text and what to put there; an empty range is an insertion. -/
structure Edit where
  span : Span
  text : String
deriving DecidableEq, Repr

def Edit.insertion (offset : Nat) (text : String) : Edit := ⟨.point offset, text⟩

/-- Groups of edits in the order in which they were queued. -/
structure EditBuffer where
  groups : List (List Edit)
deriving DecidableEq, Repr

namespace EditBuffer

def empty : EditBuffer := ⟨[]⟩

/-- The buffer with one more group; a group without edits is not queued. -/
def pushGroup (b : EditBuffer) (group : List Edit) : EditBuffer :=
  if group.isEmpty then b else ⟨b.groups ++ [group]⟩

def push (b : EditBuffer) (e : Edit) : EditBuffer := b.pushGroup [e]

def size (b : EditBuffer) : Nat := b.groups.length

def isEmpty (b : EditBuffer) : Bool := b.groups.isEmpty

/-- Whether a span is a range of a text, cut at character boundaries. -/
def isRange (cs : List Char) (s : Span) : Bool := (Text.slice? cs s.start s.stop).isSome

/-- Whether no edit overlaps an edit before it in its group, or one of `accepted`. -/
def isFree (accepted : List Edit) : List Edit → Bool
  | [] => true
  | e :: es => !accepted.any (·.span.overlaps e.span) && isFree (accepted ++ [e]) es

/-- The edits of the groups that are accepted, with the number of these groups. -/
def accept (cs : List Char) (groups : List (List Edit)) : List Edit × Nat :=
  groups.foldl (fun (accepted, count) group =>
    if group.all (fun e => isRange cs e.span) && isFree accepted group then
      (accepted ++ group, count + 1)
    else (accepted, count)) ([], 0)

/-- Edits from left to right. At one offset, insertions come before a replacement. -/
def before (a b : Edit) : Bool :=
  a.span.start < b.span.start || (a.span.start = b.span.start && a.span.stop ≤ b.span.stop)

/-- The characters before and after an offset; past the end there is nothing. -/
def cut (cs : List Char) (offset : Nat) : List Char × List Char :=
  (Text.splitAt? cs offset).getD (cs, [])

/-- The rest of a text that begins at `offset`, with edits made from left to right. -/
def splice (offset : Nat) (cs : List Char) : List Edit → List Char
  | [] => cs
  | e :: es =>
    let (untouched, after) := cut cs (e.span.start - offset)
    let (_, rest) := cut after e.span.length
    untouched ++ e.text.toList ++ splice e.span.stop rest es

/-- The text with all accepted groups applied, and their number. -/
def apply (b : EditBuffer) (source : String) : String × Nat :=
  let (accepted, count) := accept source.toList b.groups
  (String.ofList (splice 0 source.toList (sortBy before accepted)), count)

end EditBuffer

end WorkflowAudit
