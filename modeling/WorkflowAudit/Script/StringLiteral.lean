import WorkflowAudit.Text.Digits
import WorkflowAudit.Text.Span

/-!
# Contents of string literals

A string token is a prefix, an opening quote or three, the body and the same quotes again.
In a raw literal the body is the content; in any other, escapes are decoded from left to right
and a backslash that starts no escape stays as it is.
-/

namespace WorkflowAudit.Script

/-- A decoded literal: its prefix flags and content. -/
structure StringPiece where
  value : String
  isFormatted : Bool
  isBytes : Bool
deriving DecidableEq, Repr

namespace StringPiece

def isOctal (c : Char) : Bool := '0' ≤ c && c ≤ '7'

/-- The number that hexadecimal digits write; a plus sign may stand before them. -/
def hexCode? (digits : List Char) : Option Nat :=
  let digits := if digits.head? == some '+' then digits.drop 1 else digits
  if !digits.isEmpty && digits.all Text.isHexDigit then
    some (Text.hexadecimalValue digits)
  else none

/-- Digits of the escapes `\x`, `\u` and `\U`. -/
def hexWidth? : Char → Option Nat
  | 'x' => some 2
  | 'u' => some 4
  | 'U' => some 8
  | _ => none

/-- What a letter after a backslash stands for. -/
def simpleEscape? : Char → Option Char
  | 'n' => some '\n'
  | 't' => some '\t'
  | 'r' => some '\r'
  | 'a' => some '\x07'
  | 'b' => some '\x08'
  | 'f' => some '\x0c'
  | 'v' => some '\x0b'
  | '\\' => some '\\'
  | '\'' => some '\''
  | '"' => some '"'
  | _ => none

/-- The character of an escape that begins with `c` after a backslash, and how many of the
    characters after `c` belong to it. -/
def escape? (c : Char) (cs : List Char) : Option (List Char × Nat) :=
  if c = '\n' then some ([], 0)
  else if isOctal c then
    let more := (cs.take 2).takeWhile isOctal
    let code := Text.ofDigits 8 Text.digitValue (c :: more)
    (Text.charOfCode? code).map fun ch => ([ch], more.length)
  else
    match simpleEscape? c, hexWidth? c with
    | some ch, _ => some ([ch], 0)
    | none, some width =>
      let digits := cs.take width
      if digits.length = width then
        (hexCode? digits).bind fun code => (Text.charOfCode? code).map fun ch => ([ch], width)
      else none
    | none, none => none

def unescape : List Char → List Char
  | [] => []
  | c :: cs =>
    if c ≠ '\\' then c :: unescape cs
    else
      match cs with
      | [] => ['\\']
      | e :: rest =>
        match escape? e rest with
        | some (chars, n) => chars ++ unescape (rest.drop n)
        | none => '\\' :: e :: unescape rest
termination_by cs => cs.length
decreasing_by
  all_goals simp only [List.length_cons, List.length_drop]; omega

def isQuote (c : Char) : Bool := c = '\'' || c = '"'

/-- Number of quotes on each side of a literal that begins with its opening quote. -/
def quoteWidth : List Char → Nat
  | q :: q₂ :: q₃ :: rest => if q₂ = q && q₃ = q && 3 ≤ Text.byteLength rest then 3 else 1
  | _ => 1

/-- The piece that a string token stands for. -/
def ofToken? (token : String) : Option StringPiece :=
  let flags := (token.toList.takeWhile (!isQuote ·)).map Char.toLower
  let body := token.toList.dropWhile (!isQuote ·)
  let width := quoteWidth body
  let size := Text.byteLength body
  if size < 2 * width then none
  else
    (Text.slice? body width (size - width)).map fun inner => {
      value := String.ofList (if flags.contains 'r' then inner else unescape inner)
      isFormatted := flags.contains 'f'
      isBytes := flags.contains 'b' }

end StringPiece

end WorkflowAudit.Script
