/-!
# Digits

Values of ASCII digits and of runs of them.
-/

namespace WorkflowAudit.Text

def digitValue (c : Char) : Nat := c.toNat - '0'.toNat

def isHexDigit (c : Char) : Bool :=
  c.isDigit || ('a' ≤ c && c ≤ 'f') || ('A' ≤ c && c ≤ 'F')

def hexValue (c : Char) : Nat :=
  if c.isDigit then c.toNat - '0'.toNat
  else if 'a' ≤ c then c.toNat - 'a'.toNat + 10
  else c.toNat - 'A'.toNat + 10

/-- The number that digits write in a base, the most significant digit first. -/
def ofDigits (base : Nat) (value : Char → Nat) (digits : List Char) : Nat :=
  digits.foldl (fun n c => base * n + value c) 0

def decimalValue (digits : List Char) : Nat := ofDigits 10 digitValue digits

def hexadecimalValue (digits : List Char) : Nat := ofDigits 16 hexValue digits

/-- The character with a given code, unless the code is a surrogate or out of range. -/
def charOfCode? (code : Nat) : Option Char :=
  if code < 0xd800 || (0xdfff < code && code < 0x110000) then some (Char.ofNat code) else none

end WorkflowAudit.Text
