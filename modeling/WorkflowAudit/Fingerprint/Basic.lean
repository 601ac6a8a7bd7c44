import WorkflowAudit.Fingerprint.Blake3
import WorkflowAudit.Text.Digits

/-!
# Fingerprints of files

A fingerprint is the hash of a file's path, time of modification and size. It is written as 64
hexadecimal digits.
-/

namespace WorkflowAudit

structure Fingerprint where
  bytes : List UInt8
  length_eq : bytes.length = 32
deriving DecidableEq

/-- Why a text is no fingerprint. -/
inductive FingerprintError where
  | invalidHex
  /-- The number of bytes that the digits write. -/
  | invalidLength (length : Nat)
deriving DecidableEq, Repr

def FingerprintError.message : FingerprintError → String
  | .invalidHex => "Invalid hex encoding"
  | .invalidLength length => s!"Invalid fingerprint length: {length} bytes"

namespace Fingerprint

def ofBytes (bytes : List UInt8) : Fingerprint := ⟨Blake3.hash bytes, Blake3.length_hash bytes⟩

def ofText (text : String) : Fingerprint := ofBytes text.toUTF8.toList

/-- What is hashed for a file. Times count nanoseconds from 1970, and earlier ones as 0. -/
def fileKey (path : String) (modified : Int) (size : Nat) : String :=
  s!"{path}:{modified.toNat}:{size}"

def ofFile (path : String) (modified : Int) (size : Nat) : Fingerprint :=
  ofText (fileKey path modified size)

def hexDigit (n : Nat) : Char := Nat.digitChar n

def hexByte (b : UInt8) : List Char := [hexDigit (b.toNat / 16), hexDigit (b.toNat % 16)]

def toHex (f : Fingerprint) : String := String.ofList (f.bytes.flatMap hexByte)

/-- The bytes that pairs of hexadecimal digits write, in either case. -/
def bytesOfHex : List Char → Option (List UInt8)
  | [] => some []
  | a :: b :: rest =>
    if Text.isHexDigit a && Text.isHexDigit b then
      (bytesOfHex rest).map (UInt8.ofNat (16 * Text.hexValue a + Text.hexValue b) :: ·)
    else none
  | [_] => none

def ofHex (text : String) : Except FingerprintError Fingerprint :=
  match bytesOfHex text.toList with
  | none => .error .invalidHex
  | some bytes =>
    if h : bytes.length = 32 then .ok ⟨bytes, h⟩ else .error (.invalidLength bytes.length)

end Fingerprint

end WorkflowAudit
