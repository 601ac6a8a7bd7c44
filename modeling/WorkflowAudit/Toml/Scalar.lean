import WorkflowAudit.Data.Binary64
import WorkflowAudit.Text.Digits
import WorkflowAudit.Toml.Reader

/-!
# Values

Values of a TOML document, and how strings, numbers and dates are read.
-/

namespace WorkflowAudit.Toml

inductive Value where
  | string (value : String)
  | integer (value : Int)
  /-- A float; `none` stands for what is no finite number. -/
  | float (value : Option Binary64)
  | boolean (value : Bool)
  /-- A date or time in its normal form. -/
  | moment (text : String)
  | array (items : List Value)
  | table (entries : List (String × Value))
deriving Repr, Inhabited

open Reader

/-! ## Strings -/

/-- Characters that stand for themselves in a string with escapes. -/
def isUnescaped (c : Char) : Bool := isPlain c && c ≠ '"' && c ≠ '\\'

/-- The character that digits name. -/
def codeEscape (width : Nat) : Reader Char := do
  let digits ← count width Text.isHexDigit
  ofOption (Text.charOfCode? (Text.hexadecimalValue digits))

def escape : Reader Char := do
  char '\\'
  match ← satisfy fun _ => true with
  | 'b' => return '\x08'
  | 'f' => return '\x0c'
  | 'n' => return '\n'
  | 'r' => return '\r'
  | 't' => return '\t'
  | '"' => return '"'
  | '\\' => return '\\'
  | 'u' => codeEscape 4
  | 'U' => codeEscape 8
  | _ => fail

def basicString : Reader String := do
  char '"'
  let cs ← many (oneOf [satisfy isUnescaped, escape]) (← remaining)
  char '"'
  return String.ofList cs

def literalString : Reader String := do
  char '\''
  let cs ← takeWhile fun c => isPlain c && c ≠ '\''
  char '\''
  return String.ofList cs

/-- A line break written as a line feed. -/
def keptBreak : Reader (List Char) := do
  lineBreak
  return ['\n']

/-- A backslash at the end of a line: it joins the next text to the line. -/
def joinedLines : Reader (List Char) := do
  char '\\'
  blanks
  lineBreak
  let _ ← many (oneOf [do let _ ← satisfy isBlank, lineBreak]) (← remaining)
  return []

/-- A string over several lines. One or two quotes may stand anywhere inside it, and just before
    the closing ones. -/
def longString (quote : Char) (content : Reader (List Char)) : Reader String := do
  let _ ← count 3 (· == quote)
  let _ ← maybe lineBreak
  let piece := oneOf [content,
    do return (← count 2 (· == quote)) ++ (← content),
    do return (← count 1 (· == quote)) ++ (← content)]
  let pieces ← many piece (← remaining)
  let last ← oneOf [count 5 (· == quote), count 4 (· == quote), count 3 (· == quote)]
  return String.ofList (pieces.flatten ++ last.drop 3)

def longBasicString : Reader String :=
  longString '"' (oneOf [do return [← satisfy isUnescaped], joinedLines, do return [← escape],
    keptBreak])

def longLiteralString : Reader String :=
  longString '\'' (oneOf [do return [← satisfy fun c => isPlain c && c ≠ '\''], keptBreak])

def string : Reader String :=
  oneOf [longBasicString, basicString, longLiteralString, literalString]

/-! ## Numbers -/

/-- Digits with single underscores between them. -/
def digits (isDigit : Char → Bool) : Reader (List Char) := do
  let first ← satisfy isDigit
  let next : Reader Char := oneOf [satisfy isDigit, do char '_'; satisfy isDigit]
  return first :: (← many next (← remaining))

/-- Whether a minus sign stands first; a plus sign may. -/
def sign : Reader Bool := do
  match ← maybe (satisfy fun c => c = '+' || c = '-') with
  | some c => return c = '-'
  | none => return false

/-- A sign and digits without a leading zero. -/
def decimalDigits : Reader (Bool × List Char) := do
  let negative ← sign
  let nonZero : Reader (List Char) := fun cs =>
    if cs.head? = some '0' then none else digits Char.isDigit cs
  let ds ← oneOf [nonZero, count 1 Char.isDigit]
  return (negative, ds)

/-- An integer that fits 64 bits. -/
def bounded (n : Int) : Reader Int :=
  if Int64.minValue.toInt ≤ n && n ≤ Int64.maxValue.toInt then pure n else fail

def isOctalDigit (c : Char) : Bool := '0' ≤ c && c ≤ '7'

def isBinaryDigit (c : Char) : Bool := c = '0' || c = '1'

/-- An integer in a base that its first two characters name. -/
def basedInteger (mark : String) (base : Nat) (isDigit : Char → Bool) : Reader Int := do
  text mark
  let ds ← digits isDigit
  bounded (Text.ofDigits base Text.hexValue ds)

def decimalInteger : Reader Int := do
  let (negative, ds) ← decimalDigits
  let n : Int := Text.decimalValue ds
  bounded (if negative then -n else n)

def integer : Reader Int :=
  oneOf [basedInteger "0x" 16 Text.isHexDigit, basedInteger "0o" 8 isOctalDigit,
    basedInteger "0b" 2 isBinaryDigit, decimalInteger]

def exponent : Reader Int := do
  let _ ← satisfy fun c => c = 'e' || c = 'E'
  let negative ← sign
  let n : Int := Text.decimalValue (← digits Char.isDigit)
  return if negative then -n else n

/-- A float with a fraction or an exponent. One that is too large is refused, except below
    zero, where it is infinite. -/
def decimalFloat : Reader (Option Binary64) := do
  let (negative, whole) ← decimalDigits
  let fractional : Reader (List Char × Int) := do
    char '.'
    let fraction ← digits Char.isDigit
    return (fraction, (← maybe exponent).getD 0)
  let (fraction, power) ← oneOf [do return ([], ← exponent), fractional]
  let value := Binary64.ofDecimal negative (Text.decimalValue (whole ++ fraction))
    (power - fraction.length)
  if value.isNone && !negative then fail else return value

def specialFloat : Reader (Option Binary64) := do
  let _ ← sign
  oneOf [text "inf", text "nan"]
  return none

def float : Reader (Option Binary64) := oneOf [decimalFloat, specialFloat]

/-! ## Dates and times -/

/-- A number of `width` digits within bounds. -/
def field (width low high : Nat) : Reader Nat := do
  let n := Text.decimalValue (← count width Char.isDigit)
  if low ≤ n && n ≤ high then return n else fail

def padded (width n : Nat) : String :=
  let ds := toString n
  String.ofList (List.replicate (width - ds.length) '0') ++ ds

def isLeapYear (year : Nat) : Bool := year % 4 = 0 && (year % 100 ≠ 0 || year % 400 = 0)

def daysOf (year month : Nat) : Nat :=
  if month = 2 then if isLeapYear year then 29 else 28
  else if [4, 6, 9, 11].contains month then 30
  else 31

def date : Reader String := do
  let year ← field 4 0 9999
  char '-'
  let month ← field 2 1 12
  char '-'
  let day ← field 2 1 31
  if day ≤ daysOf year month then
    return s!"{padded 4 year}-{padded 2 month}-{padded 2 day}"
  else fail

/-- Digits of a second, at most nine, without zeros at the end. -/
def secondFraction : Reader String := do
  char '.'
  let first ← satisfy Char.isDigit
  let more ← takeWhile Char.isDigit
  let kept := (((first :: more).take 9).reverse.dropWhile (· == '0')).reverse
  return if kept.isEmpty then "" else "." ++ String.ofList kept

def time : Reader String := do
  let hour ← field 2 0 23
  char ':'
  let minute ← field 2 0 59
  char ':'
  let second ← field 2 0 60
  let fraction := (← maybe secondFraction).getD ""
  return s!"{padded 2 hour}:{padded 2 minute}:{padded 2 second}" ++ fraction

/-- The difference from universal time; a difference of nothing has a plus sign. -/
def offset : Reader String :=
  oneOf [
    do
      let _ ← satisfy fun c => c = 'Z' || c = 'z'
      return "Z",
    do
      let mark ← satisfy fun c => c = '+' || c = '-'
      let hour ← field 2 0 23
      char ':'
      let minute ← field 2 0 59
      let shown := if mark = '-' && (hour ≠ 0 || minute ≠ 0) then "-" else "+"
      return shown ++ s!"{padded 2 hour}:{padded 2 minute}"]

def dateTime : Reader String := do
  let day ← date
  let rest ← maybe do
    let _ ← satisfy fun c => c = 'T' || c = 't' || c = ' '
    let moment ← time
    return "T" ++ moment ++ (← maybe offset).getD ""
  return day ++ rest.getD ""

def scalar : Reader Value :=
  oneOf [
    do return .string (← string),
    do return .moment (← oneOf [dateTime, time]),
    do return .float (← float),
    do return .integer (← integer),
    do text "true"; return .boolean true,
    do text "false"; return .boolean false]

end WorkflowAudit.Toml
