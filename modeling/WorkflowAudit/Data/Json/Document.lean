import WorkflowAudit.Data.Json
import WorkflowAudit.Text.Digits

/-!
# JSON documents

Reading happens in two stages. `Document.read` turns text into its syntax: members of objects
in order and with repetitions, numbers as written. Where the text stops being JSON the syntax
holds a `malformed` node and ends. Decoders then take values from the syntax in document order,
so of two problems the one that stands first is reported.
-/

namespace WorkflowAudit

/-- A number as written: sign, digits before and after the point, exponent. -/
structure NumberLiteral where
  negative : Bool
  whole : List Char
  fraction : Option (List Char)
  exponent : Option (Bool × List Char)
deriving DecidableEq, Repr

/-- The syntax of a JSON text. A string without content holds half of a surrogate pair. -/
inductive Document where
  | null
  | bool (value : Bool)
  | number (literal : NumberLiteral)
  | string (content : Option String)
  | array (items : List Document)
  | object (members : List (Option String × Document))
  | malformed
deriving Repr, Inhabited

namespace NumberLiteral

/-- Largest significand that is kept while reading digits. -/
def maxSignificand : Nat := UInt64.size - 1

/-- Digits taken into a significand until one more would exceed 64 bits, with the digits that
    are left over. -/
def absorb (significand : Nat) : List Char → Nat × List Char
  | [] => (significand, [])
  | c :: cs =>
    let next := 10 * significand + Text.digitValue c
    if next ≤ maxSignificand then absorb next cs else (significand, c :: cs)

/-- `x * 10 ^ exponent`, rounded after each step: one multiplication or division by a power of
    ten that is itself rounded. Very small results are reached in steps of `10 ^ -308`. -/
def scale (x : Binary64) (exponent : Int) : Option Binary64 := do
  if x.isZero then some x
  else if exponent < -308 then
    let step ← Binary64.ofDecimal false 1 308
    let smaller ← x.div step
    scale smaller (exponent + 308)
  else if exponent > 308 then none
  else
    let power ← Binary64.ofDecimal false 1 exponent.natAbs
    if exponent < 0 then x.div power else x.mul power
termination_by (-exponent).toNat
decreasing_by omega

/-- The exponent that a literal writes, if it fits 32 bits. -/
def writtenExponent? (lit : NumberLiteral) : Option Int :=
  match lit.exponent with
  | none => some 0
  | some (negative, digits) =>
    let n := Text.decimalValue digits
    if n < 0x80000000 then some (if negative then -(n : Int) else n) else none

/-- The value of a literal. A whole number that fits 64 bits stays exact; any other literal is
    a double, and one too large for a double has no value. -/
def toJson? (lit : NumberLiteral) : Option Json :=
  let (significand, rest) := absorb 0 lit.whole
  let signed (x : Binary64) : Json := .float { x with negative := lit.negative }
  match lit.fraction, lit.exponent, rest with
  | none, none, [] =>
    if !lit.negative then some (.int significand)
    else if significand = 0 || significand > 0x8000000000000000 then
      (Binary64.ofNat significand).map signed
    else some (.int (-(significand : Int)))
  | fraction, _, rest =>
    let (significand, unread) := absorb significand (fraction.getD [])
    let places := (fraction.getD []).length - unread.length
    match lit.writtenExponent? with
    | some e => do
      let x ← Binary64.ofNat significand
      let scaled ← scale x (rest.length - places + e)
      some (signed scaled)
    | none =>
      let shrinks := lit.exponent.any Prod.fst
      if significand = 0 || shrinks then some (signed (.zero false)) else none

end NumberLiteral

namespace Document

/-! ## Lexemes -/

def isBlank (c : Char) : Bool := c = ' ' || c = '\n' || c = '\t' || c = '\r'

/-- Characters of a string after its opening quote, up to and with the closing one. -/
def stringTail? : List Char → Option Nat
  | [] => none
  | '"' :: _ => some 1
  | '\\' :: 'u' :: a :: b :: c :: d :: cs =>
    if [a, b, c, d].all Text.isHexDigit then (stringTail? cs).map (· + 6) else none
  | '\\' :: e :: cs =>
    if "\"\\/bfnrt".toList.contains e then (stringTail? cs).map (· + 2) else none
  | c :: cs => if c.toNat < 0x20 then none else (stringTail? cs).map (· + 1)

/-- The text between the quotes: escapes stand for characters, and a pair of surrogate escapes
    for one character. Half a pair has no text. -/
def unescape? : List Char → Option (List Char)
  | [] => some []
  | '\\' :: 'u' :: a :: b :: c :: d :: cs =>
    let code := Text.hexadecimalValue [a, b, c, d]
    if code < 0xd800 || code ≥ 0xe000 then (unescape? cs).map (Char.ofNat code :: ·)
    else if code ≥ 0xdc00 then none
    else
      match cs with
      | '\\' :: 'u' :: e :: f :: g :: h :: rest =>
        let low := Text.hexadecimalValue [e, f, g, h]
        if 0xdc00 ≤ low && low < 0xe000 then
          (unescape? rest).map
            (Char.ofNat (0x10000 + (code - 0xd800) * 0x400 + (low - 0xdc00)) :: ·)
        else none
      | _ => none
  | '\\' :: e :: cs =>
    let c :=
      if e = 'b' then '\x08' else if e = 'f' then '\x0c' else if e = 'n' then '\n'
      else if e = 'r' then '\r' else if e = 't' then '\t' else e
    (unescape? cs).map (c :: ·)
  | c :: cs => (unescape? cs).map (c :: ·)

/-- A number at the front of a text, with its length. -/
def number? (cs : List Char) : Option (NumberLiteral × Nat) := do
  let negative := cs.head? == some '-'
  let afterSign := if negative then cs.drop 1 else cs
  let whole := afterSign.takeWhile Char.isDigit
  if whole.isEmpty || (whole.length > 1 && whole.head? == some '0') then none
  else
    let afterWhole := afterSign.drop whole.length
    let (fraction, afterFraction) ←
      match afterWhole with
      | '.' :: rest =>
        let digits := rest.takeWhile Char.isDigit
        if digits.isEmpty then none else some (some digits, rest.drop digits.length)
      | rest => some (none, rest)
    let (exponent, after) ←
      match afterFraction with
      | c :: rest =>
        if c = 'e' || c = 'E' then
          let shrinks := rest.head? == some '-'
          let unsigned := if shrinks || rest.head? == some '+' then rest.drop 1 else rest
          let digits := unsigned.takeWhile Char.isDigit
          if digits.isEmpty then none
          else some (some (shrinks, digits), unsigned.drop digits.length)
        else some (none, c :: rest)
      | [] => some (none, [])
    some (⟨negative, whole, fraction, exponent⟩, cs.length - after.length)

/-! ## Syntax -/

/-- What follows a part that was read: fewer characters than there were before it. -/
structure Rest (cs : List Char) where
  chars : List Char
  shorter : chars.length < cs.length

def skipBlanks (cs : List Char) : List Char := cs.dropWhile isBlank

theorem length_skipBlanks (cs : List Char) : (skipBlanks cs).length ≤ cs.length :=
  (List.dropWhile_sublist _).length_le

/-- The rest after the first `n + 1` characters. -/
def Rest.after (c : Char) (cs : List Char) (n : Nat) : Rest (c :: cs) :=
  ⟨cs.drop n, by simp only [List.length_drop, List.length_cons]; omega⟩

mutual
/-- The value at the front of a text that does not start with a blank. No rest means that
    reading stopped at a malformed place. -/
def readValue (cs : List Char) : Document × Option (Rest cs) :=
  match cs with
  | [] => (.malformed, none)
  | '\x7b' :: r =>
    match h : skipBlanks r with
    | '\x7d' :: after =>
      (.object [], some ⟨after, by
        have := length_skipBlanks r
        simp only [h, List.length_cons] at this ⊢; omega⟩)
    | r' =>
      let (members, rest) := readMembers r'
      (.object members, rest.map fun s => ⟨s.chars, by
        have := length_skipBlanks r
        have := s.shorter
        simp only [h, List.length_cons] at *; omega⟩)
  | '[' :: r =>
    match h : skipBlanks r with
    | ']' :: after =>
      (.array [], some ⟨after, by
        have := length_skipBlanks r
        simp only [h, List.length_cons] at this ⊢; omega⟩)
    | r' =>
      let (items, rest) := readItems r'
      (.array items, rest.map fun s => ⟨s.chars, by
        have := length_skipBlanks r
        have := s.shorter
        simp only [h, List.length_cons] at *; omega⟩)
  | '"' :: r =>
    match stringTail? r with
    | some n =>
      (.string ((unescape? (r.take (n - 1))).map String.ofList), some (.after '"' r n))
    | none => (.malformed, none)
  | c :: r =>
    if "true".toList.isPrefixOf (c :: r) then (.bool true, some (.after c r 3))
    else if "false".toList.isPrefixOf (c :: r) then (.bool false, some (.after c r 4))
    else if "null".toList.isPrefixOf (c :: r) then (.null, some (.after c r 3))
    else
      match number? (c :: r) with
      | some (literal, n) => (.number literal, some (.after c r (n - 1)))
      | none => (.malformed, none)
termination_by 2 * cs.length
decreasing_by
  all_goals
    have := length_skipBlanks r
    simp only [h, List.length_cons] at *
    omega

/-- The items of an array, from the first one to the closing bracket. -/
def readItems (cs : List Char) : List Document × Option (Rest cs) :=
  match readValue cs with
  | (item, none) => ([item], none)
  | (item, some rest) =>
    match h : skipBlanks rest.chars with
    | ',' :: r =>
      let (items, final) := readItems (skipBlanks r)
      (item :: items, final.map fun s => ⟨s.chars, by
        have := rest.shorter
        have := length_skipBlanks rest.chars
        have := length_skipBlanks r
        have := s.shorter
        simp only [h, List.length_cons] at *; omega⟩)
    | ']' :: r =>
      ([item], some ⟨r, by
        have := rest.shorter
        have := length_skipBlanks rest.chars
        simp only [h, List.length_cons] at *; omega⟩)
    | _ => ([item, .malformed], none)
termination_by 2 * cs.length + 1
decreasing_by
  · omega
  · have := rest.shorter
    have := length_skipBlanks rest.chars
    have := length_skipBlanks r
    simp only [h, List.length_cons] at *
    omega

/-- The members of an object, from the first key to the closing brace. -/
def readMembers (cs : List Char) : List (Option String × Document) × Option (Rest cs) :=
  match cs with
  | '"' :: r =>
    match stringTail? r with
    | none => ([(none, .malformed)], none)
    | some n =>
      let key := (unescape? (r.take (n - 1))).map String.ofList
      match h : skipBlanks (r.drop n) with
      | ':' :: r₁ =>
        match readValue (skipBlanks r₁) with
        | (value, none) => ([(key, value)], none)
        | (value, some rest) =>
          match h₂ : skipBlanks rest.chars with
          | ',' :: r₂ =>
            let (members, final) := readMembers (skipBlanks r₂)
            ((key, value) :: members, final.map fun s => ⟨s.chars, by
              have := rest.shorter
              have := length_skipBlanks (r.drop n)
              have := length_skipBlanks r₁
              have := length_skipBlanks rest.chars
              have := length_skipBlanks r₂
              have := s.shorter
              simp only [h, h₂, List.length_cons, List.length_drop] at *; omega⟩)
          | '\x7d' :: r₂ =>
            ([(key, value)], some ⟨r₂, by
              have := rest.shorter
              have := length_skipBlanks (r.drop n)
              have := length_skipBlanks r₁
              have := length_skipBlanks rest.chars
              simp only [h, h₂, List.length_cons, List.length_drop] at *; omega⟩)
          | _ => ([(key, value), (none, .malformed)], none)
      | _ => ([(key, .malformed)], none)
  | _ => ([(none, .malformed)], none)
termination_by 2 * cs.length + 1
decreasing_by
  · have := length_skipBlanks (r.drop n)
    have := length_skipBlanks r₁
    simp only [h, List.length_cons, List.length_drop] at *
    omega
  · have := rest.shorter
    have := length_skipBlanks (r.drop n)
    have := length_skipBlanks r₁
    have := length_skipBlanks rest.chars
    have := length_skipBlanks r₂
    simp only [h, h₂, List.length_cons, List.length_drop] at *
    omega
end

/-- The syntax of a text, and whether nothing but blanks follows it. -/
def read (text : String) : Document × Bool :=
  match readValue (skipBlanks text.toList) with
  | (document, some rest) => (document, (skipBlanks rest.chars).isEmpty)
  | (document, none) => (document, false)

end Document

end WorkflowAudit
