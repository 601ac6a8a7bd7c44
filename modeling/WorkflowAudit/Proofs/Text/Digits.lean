import Mathlib.Data.String.Basic
import WorkflowAudit.Text.Digits

/-! # Digits that are read back

A number has the value of its own digits, so no other number has them.
-/

namespace WorkflowAudit.Text

theorem decimalValue_toDigits (n : Nat) : decimalValue (Nat.toDigits 10 n) = n := by
  have read := Nat.ofDigitChars_ten_toDigits (n := n)
  rwa [Nat.ofDigitChars_eq_foldl] at read

theorem toDigits_injective : Function.Injective (Nat.toDigits 10) :=
  Function.LeftInverse.injective decimalValue_toDigits

end WorkflowAudit.Text
