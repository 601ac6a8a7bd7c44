import WorkflowAudit.Text.CharRange

/-!
# Character classes

Identifiers follow the properties Alphabetic and Number; patterns follow the wider word
class, which also holds marks, connectors and the two joiners. Patterns know fewer characters
than identifiers: those of version 16 of the standard. Letter case is known as far as ASCII
letters are concerned.
-/

namespace WorkflowAudit.Text

def inRanges (ranges : List (Nat × Nat)) (c : Char) : Bool :=
  ranges.any fun (low, high) => low ≤ c.toNat && c.toNat ≤ high

def isAscii (c : Char) : Bool := c.toNat < 128

def isAlphabetic (c : Char) : Bool :=
  if isAscii c then c.isAlpha else inRanges CharRange.alphabetic c

/-- Alphabetic, or of one of the number categories; letter numbers are alphabetic already. -/
def isAlphanumeric (c : Char) : Bool :=
  if isAscii c then c.isAlphanum
  else inRanges CharRange.alphabetic c || inRanges CharRange.decimalDigit c ||
    inRanges CharRange.otherNumber c

/-- Whether a character beyond ASCII has one of some properties and is known to patterns. -/
def hasKnownProperty (properties : List (List (Nat × Nat))) (c : Char) : Bool :=
  properties.any (inRanges · c) && !inRanges CharRange.recent c

/-- The digit class of patterns. -/
def isDecimalDigit (c : Char) : Bool :=
  if isAscii c then c.isDigit else hasKnownProperty [CharRange.decimalDigit] c

def isWhiteSpace (c : Char) : Bool := inRanges CharRange.whiteSpace c

/-- The word class of patterns. -/
def isWord (c : Char) : Bool :=
  if isAscii c then c.isAlphanum || c = '_'
  else c = '\u200c' || c = '\u200d' ||
    hasKnownProperty [CharRange.alphabetic, CharRange.decimalDigit, CharRange.mark,
      CharRange.connector] c

/-! ## Letter case -/

/-- ASCII letters in lower case, everything else as it is. -/
def asciiLowercase (text : String) : String := String.ofList (text.toList.map Char.toLower)

/-- The lower case of a character as far as ASCII letters arise from it: the Kelvin sign gives
    `k`, and the dotted capital I gives an `i` with a dot above. Other characters stay. -/
def lowerChar (c : Char) : List Char :=
  if c = '\u212a' then ['k']
  else if c = '\u0130' then ['i', '\u0307']
  else [c.toLower]

/-- A text in lower case, for comparison with ASCII words. -/
def lowercase (text : String) : String := String.ofList (text.toList.flatMap lowerChar)

/-- The ASCII letter that a character equals when case is ignored: the Kelvin sign is a `k` and
    the long s an `s`. -/
def foldCase (c : Char) : Char :=
  if c = '\u212a' then 'k'
  else if c = '\u017f' then 's'
  else c.toLower

end WorkflowAudit.Text
