import Mathlib.Data.List.Basic
import WorkflowAudit.Data.Json
import WorkflowAudit.Data.Json.Document

/-! # Strings and numbers as they are written

What the printers write for a string or a whole number is read as one lexeme: the reader finds the end
of a quoted string and gives back its characters, and it takes the digits of a number up to a character
that cannot go on with one.
-/

namespace WorkflowAudit

namespace Json

/-- A whole number as it is written. -/
def literalOf (n : Int) : NumberLiteral := ⟨n < 0, Nat.toDigits 10 n.natAbs, none, none⟩

/-- The double negative zero as it is written. -/
def negativeZero : NumberLiteral := ⟨true, ['0'], some ['0'], none⟩

end Json

/-! ## Strings -/

namespace Document

/-- The character that a letter after a backslash stands for. -/
def unescaped (e : Char) : Char :=
  if e = 'b' then '\x08' else if e = 'f' then '\x0c' else if e = 'n' then '\n'
  else if e = 'r' then '\r' else if e = 't' then '\t' else e

theorem hexDigits_of_control :
    ∀ n < 0x20, Text.hexadecimalValue ['0', '0', Json.hexDigit (n / 16), Json.hexDigit n] = n ∧
      ['0', '0', Json.hexDigit (n / 16), Json.hexDigit n].all Text.isHexDigit = true := by
  decide

/-- A character is written behind a backslash, by its code, or as it is. -/
theorem escapeChar_cases (c : Char) :
    (∃ e, Json.escapeChar c = ['\\', e] ∧ e ≠ 'u' ∧ "\"\\/bfnrt".toList.contains e = true ∧
      unescaped e = c) ∨
    (c.toNat < 0x20 ∧ Json.escapeChar c =
      ['\\', 'u', '0', '0', Json.hexDigit (c.toNat / 16), Json.hexDigit c.toNat]) ∨
    (c ≠ '"' ∧ c ≠ '\\' ∧ 0x20 ≤ c.toNat ∧ Json.escapeChar c = [c]) := by
  by_cases quote : c = '"'
  · subst quote
    exact .inl ⟨'"', rfl, by decide, by decide, rfl⟩
  by_cases backslash : c = '\\'
  · subst backslash
    exact .inl ⟨'\\', rfl, by decide, by decide, rfl⟩
  by_cases backspace : c = '\x08'
  · subst backspace
    exact .inl ⟨'b', rfl, by decide, by decide, rfl⟩
  by_cases tab : c = '\t'
  · subst tab
    exact .inl ⟨'t', rfl, by decide, by decide, rfl⟩
  by_cases lineFeed : c = '\n'
  · subst lineFeed
    exact .inl ⟨'n', rfl, by decide, by decide, rfl⟩
  by_cases formFeed : c = '\x0c'
  · subst formFeed
    exact .inl ⟨'f', rfl, by decide, by decide, rfl⟩
  by_cases carriage : c = '\r'
  · subst carriage
    exact .inl ⟨'r', rfl, by decide, by decide, rfl⟩
  simp only [Json.escapeChar, quote, backslash, backspace, tab, lineFeed, formFeed, carriage,
    if_false]
  by_cases control : c.toNat < 0x20
  · exact .inr (.inl ⟨control, by simp only [control, if_true]⟩)
  · exact .inr (.inr ⟨quote, backslash, by omega, by simp only [control, if_false]⟩)

theorem stringTail?_escapeChar (c : Char) (cs : List Char) :
    stringTail? (Json.escapeChar c ++ cs) =
      (stringTail? cs).map (· + (Json.escapeChar c).length) := by
  rcases escapeChar_cases c with ⟨e, written, other, known, -⟩ | ⟨control, written⟩ |
    ⟨quote, backslash, printable, written⟩
  · rw [written, List.cons_append, List.cons_append, List.nil_append, stringTail?]
    · simp only [known, if_true, List.length_cons, List.length_nil]
    · rintro a b c d rest rfl
      exact absurd rfl other
  · obtain ⟨-, digits⟩ := hexDigits_of_control c.toNat control
    rw [written]
    simp only [List.cons_append, List.nil_append, stringTail?, digits, if_true, List.length_cons,
      List.length_nil]
  · rw [written, List.cons_append, List.nil_append, stringTail?]
    · simp only [Nat.not_lt.mpr printable, if_false, List.length_cons, List.length_nil]
    · exact quote
    · rintro a b c d rest rfl
      exact absurd rfl backslash
    · rintro e rest rfl
      exact absurd rfl backslash

theorem unescape?_escapeChar (c : Char) (cs : List Char) :
    unescape? (Json.escapeChar c ++ cs) = (unescape? cs).map (c :: ·) := by
  rcases escapeChar_cases c with ⟨e, written, other, known, rfl⟩ | ⟨control, written⟩ |
    ⟨quote, backslash, printable, written⟩
  · rw [written, List.cons_append, List.cons_append, List.nil_append, unescape?]
    · rfl
    · rintro a b c d rest rfl
      exact absurd rfl other
  · obtain ⟨code, -⟩ := hexDigits_of_control c.toNat control
    have low : c.toNat < 0xd800 := by omega
    rw [written, List.cons_append, List.cons_append, List.cons_append, List.cons_append,
      List.cons_append, List.cons_append, List.nil_append, unescape?.eq_def]
    simp only [code, low, decide_true, Bool.true_or, if_true, Char.ofNat_toNat]
  · rw [written, List.cons_append, List.nil_append, unescape?]
    · rintro a b c d rest rfl
      exact absurd rfl backslash
    · rintro e rest rfl
      exact absurd rfl backslash

theorem stringTail?_quoted (s : List Char) (rest : List Char) :
    stringTail? (s.flatMap Json.escapeChar ++ '"' :: rest) =
      some ((s.flatMap Json.escapeChar).length + 1) := by
  induction s with
  | nil => rfl
  | cons c s ih =>
      rw [List.flatMap_cons, List.append_assoc, stringTail?_escapeChar, ih, Option.map_some,
        List.length_append]
      congr 1
      omega

theorem unescape?_quoted (s : List Char) : unescape? (s.flatMap Json.escapeChar) = some s := by
  induction s with
  | nil => rfl
  | cons c s ih => rw [List.flatMap_cons, unescape?_escapeChar, ih, Option.map_some]

theorem toList_quote (s : String) :
    (Json.quote s).toList = '"' :: (s.toList.flatMap Json.escapeChar ++ ['"']) := by
  simp [Json.quote]

/-! ## Numbers -/

/-- A character that could go on with a number. -/
def continuesNumber (c : Char) : Bool := c.isDigit || c = '.' || c = 'e' || c = 'E'

/-- What follows a value does not go on with a number. -/
def Ends (rest : List Char) : Prop := ∀ c cs, rest = c :: cs → continuesNumber c = false

theorem takeWhile_isDigit {digits rest : List Char} (all : ∀ c ∈ digits, c.isDigit = true)
    (ends : Ends rest) : (digits ++ rest).takeWhile Char.isDigit = digits := by
  rw [List.takeWhile_append_of_pos all]
  cases rest with
  | nil => simp
  | cons c cs =>
      have stops := ends c cs rfl
      simp only [continuesNumber, Bool.or_eq_false_iff] at stops
      simp [stops.1.1.1]

/-- A number without point and exponent. -/
theorem number?_digits (negative : Bool) {digits rest : List Char}
    (all : ∀ c ∈ digits, c.isDigit = true) (any : digits ≠ [])
    (lead : digits.length > 1 → digits.head? ≠ some '0') (ends : Ends rest) :
    number? ((if negative then ['-'] else []) ++ (digits ++ rest)) =
      some (⟨negative, digits, none, none⟩,
        ((if negative then ['-'] else []) ++ digits).length) := by
  obtain ⟨d, ds, rfl⟩ := List.exists_cons_of_ne_nil any
  have first : d.isDigit = true := all d List.mem_cons_self
  have noSign : d ≠ '-' := by
    rintro rfl
    cases first
  have sign : (((if negative then ['-'] else []) ++ (d :: ds ++ rest)).head? == some '-') =
      negative := by
    cases negative <;> simp [noSign]
  have afterSign : (if negative then ((if negative then ['-'] else []) ++ (d :: ds ++ rest)).drop 1
      else (if negative then ['-'] else []) ++ (d :: ds ++ rest)) = d :: ds ++ rest := by
    cases negative <;> rfl
  have plain : ((d :: ds).length > 1 && (d :: ds).head? == some '0') = false := by
    rw [Bool.and_eq_false_iff]
    by_cases long : (d :: ds).length > 1
    · exact .inr (by simpa using lead long)
    · exact .inl (by simpa using long)
  simp only [number?, sign, afterSign, takeWhile_isDigit all ends, plain, List.isEmpty_cons,
    Bool.or_false, Bool.false_eq_true, if_false, List.drop_left]
  cases rest with
  | nil => simp
  | cons c cs =>
      have stops := ends c cs rfl
      simp only [continuesNumber, Bool.or_eq_false_iff, decide_eq_false_iff_not] at stops
      simp [stops]
      omega

theorem head?_toDigits_ne_zero {n : Nat} (positive : 0 < n) :
    (Nat.toDigits 10 n).head? ≠ some '0' := by
  induction n using Nat.strongRecOn with
  | ind n ih =>
      rw [Nat.toDigits_eq_if (by decide)]
      split
      · rename_i small
        have digits : ∀ d < 10, 0 < d → d.digitChar ≠ '0' := by decide
        simpa using digits n small positive
      · rename_i large
        have front := ih (n / 10) (by omega) (by omega)
        rwa [List.head?_append_of_ne_nil _ Nat.toDigits_ne_nil]

theorem toList_toString (n : Int) :
    (toString n).toList = (if n < 0 then ['-'] else []) ++ Nat.toDigits 10 n.natAbs := by
  cases n with
  | ofNat m =>
      have text : toString (Int.ofNat m) = m.repr := rfl
      rw [text, Nat.toList_repr]
      simp
  | negSucc m =>
      have text : toString (Int.negSucc m) = "-" ++ (m + 1).repr := rfl
      rw [text, String.toList_append, Nat.toList_repr]
      simp

theorem number?_literalOf (n : Int) {rest : List Char} (ends : Ends rest) :
    number? ((toString n).toList ++ rest) = some (Json.literalOf n, (toString n).toList.length) := by
  have digits : ∀ c ∈ Nat.toDigits 10 n.natAbs, c.isDigit = true :=
    fun c => Nat.isDigit_of_mem_toDigits (by decide) (by decide)
  have lead : (Nat.toDigits 10 n.natAbs).length > 1 →
      (Nat.toDigits 10 n.natAbs).head? ≠ some '0' := by
    intro long
    refine head?_toDigits_ne_zero (Nat.pos_of_ne_zero fun zero => ?_)
    rw [zero, Nat.toDigits_zero] at long
    simp at long
  have read := number?_digits (decide (n < 0)) digits Nat.toDigits_ne_nil lead ends
  rw [toList_toString, List.append_assoc]
  simp only [decide_eq_true_eq] at read
  rw [read, Json.literalOf]

end Document

end WorkflowAudit
