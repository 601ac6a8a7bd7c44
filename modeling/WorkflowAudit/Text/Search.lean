/-!
# Searching in texts
-/

namespace WorkflowAudit.Text

/-- Whether `needle` stands somewhere in a text. -/
def occursIn (needle : List Char) : List Char → Bool
  | [] => needle.isEmpty
  | c :: cs => needle.isPrefixOf (c :: cs) || occursIn needle cs

/-- Whether a text contains another one. -/
def contains (text needle : String) : Bool := occursIn needle.toList text.toList

def startsWith (text start : String) : Bool := start.toList.isPrefixOf text.toList

/-- Number of occurrences of a non-empty `needle` that do not overlap, found from the left. -/
def countFrom (needle : List Char) : Nat → List Char → Nat
  | _, [] => 0
  | skip + 1, _ :: cs => countFrom needle skip cs
  | 0, c :: cs =>
    if needle.isPrefixOf (c :: cs) then countFrom needle (needle.length - 1) cs + 1
    else countFrom needle 0 cs

def countOccurrences (text needle : String) : Nat := countFrom needle.toList 0 text.toList

/-- The parts before and after the first occurrence of a character. -/
def cutAt? (separator : Char) (text : String) : Option (String × String) :=
  let before := text.toList.takeWhile (· ≠ separator)
  match text.toList.dropWhile (· ≠ separator) with
  | [] => none
  | _ :: after => some (String.ofList before, String.ofList after)

/-- The text after the last occurrence of a character. -/
def afterLast (separator : Char) (text : String) : String :=
  String.ofList (text.toList.reverse.takeWhile (· ≠ separator)).reverse

/-- Every occurrence of some characters changed into another one. -/
def replaceChars (olds : List Char) (new : Char) (text : String) : String :=
  String.ofList (text.toList.map fun c => if olds.contains c then new else c)

end WorkflowAudit.Text
