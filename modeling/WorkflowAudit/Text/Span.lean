/-!
# Byte spans and positions in a text

A text is measured in UTF-8 bytes. Offsets count from 0, lines and columns from 1.
`splitAt?` cuts a text at an offset and refuses one that is out of range or lies inside
a character, so every other cut is defined through it.
-/

namespace WorkflowAudit

namespace Text

/-- Number of bytes of a run of characters. -/
def byteLength : List Char → Nat
  | [] => 0
  | c :: cs => c.utf8Size + byteLength cs

/-- The characters before and after a byte offset, if it is a character boundary. -/
def splitAt? : List Char → Nat → Option (List Char × List Char)
  | cs, 0 => some ([], cs)
  | [], _ + 1 => none
  | c :: cs, n + 1 =>
    if c.utf8Size ≤ n + 1 then
      (splitAt? cs (n + 1 - c.utf8Size)).map fun (before, after) => (c :: before, after)
    else none

/-- The characters between two offsets. -/
def slice? (cs : List Char) (start stop : Nat) : Option (List Char) := do
  let (_, after) ← splitAt? cs start
  if start ≤ stop then
    let (inside, _) ← splitAt? after (stop - start)
    some inside
  else none

end Text

/-- Half-open byte range `[start, stop)` of a text. -/
structure Span where
  /-- First byte. -/
  start : Nat
  /-- One past the last byte. -/
  stop : Nat
deriving DecidableEq, Repr, Inhabited

namespace Span

/-- The empty span at an offset. -/
def point (offset : Nat) : Span := ⟨offset, offset⟩

/-- The smallest span that covers both. -/
def join (a b : Span) : Span := ⟨min a.start b.start, max a.stop b.stop⟩

/-- Number of bytes covered; an inverted span covers none. -/
def length (s : Span) : Nat := s.stop - s.start

def isEmpty (s : Span) : Bool := s.stop ≤ s.start

/-- Whether `b` lies entirely inside `a`. -/
def contains (a b : Span) : Bool := a.start ≤ b.start && b.stop ≤ a.stop

/-- Whether each span starts before the other one stops. -/
def overlaps (a b : Span) : Bool := a.start < b.stop && b.start < a.stop

/-- The text covered, or nothing when the span is no range of the text. -/
def slice (s : Span) (text : String) : String :=
  match Text.slice? text.toList s.start s.stop with
  | some cs => String.ofList cs
  | none => ""

end Span

/-- Where a violation was found. -/
inductive Location where
  /-- A line and a byte column of a source file. -/
  | source (filePath : String) (line column : Nat)
  /-- A slash-separated path into a resolved workflow. -/
  | object (path : String)
deriving DecidableEq, Repr

namespace Location

/-- `file:line:column`, or the logical path. -/
def describe : Location → String
  | .source file line column => s!"{file}:{line}:{column}"
  | .object path => path

end Location

/-- The offsets at which the lines of a text begin, in increasing order. -/
structure LineIndex where
  starts : Array Nat
  /-- The first line begins where the text begins. -/
  first : starts[0]? = some 0
  increasing : starts.toList.Pairwise (· < ·)
deriving DecidableEq, Repr

namespace LineIndex

/-- Offsets just after each line feed, for characters that begin at `offset`. -/
def startsFrom (offset : Nat) : List Char → List Nat
  | [] => []
  | c :: cs =>
    let next := offset + c.utf8Size
    if c = '\n' then next :: startsFrom next cs else startsFrom next cs

theorem lt_of_mem_startsFrom {offset start : Nat} {cs : List Char}
    (h : start ∈ startsFrom offset cs) : offset < start := by
  induction cs generalizing offset with
  | nil => cases h
  | cons c cs ih =>
    have := c.utf8Size_pos
    rw [startsFrom] at h
    split at h
    case isTrue =>
      rcases List.mem_cons.mp h with rfl | h
      · omega
      · have := ih h
        omega
    case isFalse =>
      have := ih h
      omega

theorem pairwise_startsFrom (offset : Nat) (cs : List Char) :
    (startsFrom offset cs).Pairwise (· < ·) := by
  induction cs generalizing offset with
  | nil => exact .nil
  | cons c cs ih =>
    rw [startsFrom]
    split
    · exact List.pairwise_cons.mpr ⟨fun _ h => lt_of_mem_startsFrom h, ih _⟩
    · exact ih _

def ofText (text : String) : LineIndex where
  starts := (0 :: startsFrom 0 text.toList).toArray
  first := rfl
  increasing := List.pairwise_cons.mpr
    ⟨fun _ h => lt_of_mem_startsFrom h, pairwise_startsFrom 0 text.toList⟩

def lineCount (index : LineIndex) : Nat := index.starts.size

/-- The position of `offset` among increasing `starts`, or else the position at which it would
    have to be inserted. It is looked for from `low` up to `high`, and each turn halves what is
    left. -/
def searchFrom (starts : Array Nat) (offset low high : Nat) (ordered : low ≤ high)
    (within : high ≤ starts.size) : Except (Fin (starts.size + 1)) (Fin starts.size) :=
  if _h : low < high then
    let middle := (low + high) / 2
    have : middle < starts.size := by omega
    if starts[middle] = offset then .ok ⟨middle, this⟩
    else if starts[middle] < offset then
      searchFrom starts offset (middle + 1) high (by omega) within
    else searchFrom starts offset low middle (by omega) (by omega)
  else .error ⟨low, by omega⟩
termination_by high - low

def search (index : LineIndex) (offset : Nat) :
    Except (Fin (index.starts.size + 1)) (Fin index.starts.size) :=
  searchFrom index.starts offset 0 index.starts.size (Nat.zero_le _) (Nat.le_refl _)

theorem size_pos (index : LineIndex) : 0 < index.starts.size :=
  (Array.getElem?_eq_some_iff.mp index.first).1

/-- Position of the line that holds an offset; offsets past the end belong to the last line. -/
def position (index : LineIndex) (offset : Nat) : Fin index.starts.size :=
  match index.search offset with
  | .ok found => found
  | .error next => ⟨next - 1, by have := index.size_pos; omega⟩

/-- Offset at which the line that holds `offset` begins. -/
def lineStart (index : LineIndex) (offset : Nat) : Nat := index.starts[index.position offset]

/-- Line of an offset. -/
def lineOf (index : LineIndex) (offset : Nat) : Nat := index.position offset + 1

/-- Line and byte column of an offset. -/
def lineColumn (index : LineIndex) (offset : Nat) : Nat × Nat :=
  (index.lineOf offset, offset - index.lineStart offset + 1)

end LineIndex

end WorkflowAudit
