import Mathlib.Data.String.Basic
import WorkflowAudit.Data.Json.Decoder
import WorkflowAudit.Proofs.Data.Json.Spelling
import WorkflowAudit.Proofs.Text.Digits

/-! # Free values

A value that was decoded from a document whose numbers are whole is decoded again from its own
syntax. Numbers keep their value, and the fields of an object, once sorted, stay where they are.
-/

namespace WorkflowAudit

open Decoder

/-! ## Whole numbers -/

/-- A number without point and exponent that fits 64 bits, with or without a sign. -/
def NumberLiteral.isWhole (literal : NumberLiteral) : Bool :=
  literal.fraction.isNone && literal.exponent.isNone &&
    Text.decimalValue literal.whole ≤
      if literal.negative then 0x8000000000000000 else NumberLiteral.maxSignificand

mutual
/-- Whether every number of a document is whole. -/
def Document.isWhole : Document → Bool
  | .number literal => literal.isWhole
  | .array items => isWholeItems items
  | .object members => isWholeMembers members
  | _ => true

def Document.isWholeItems : List Document → Bool
  | [] => true
  | d :: ds => isWhole d && isWholeItems ds

def Document.isWholeMembers : List (Option String × Document) → Bool
  | [] => true
  | (_, d) :: ms => isWhole d && isWholeMembers ms
end

namespace NumberLiteral

theorem le_foldl_digits (digits : List Char) (n : Nat) :
    n ≤ digits.foldl (fun n c => 10 * n + Text.digitValue c) n := by
  induction digits generalizing n with
  | nil => exact Nat.le_refl n
  | cons c digits ih =>
      calc n ≤ 10 * n + Text.digitValue c := by omega
        _ ≤ _ := ih _

/-- Digits whose value fits are all taken. -/
theorem absorb_of_le {digits : List Char} {n : Nat}
    (fits : digits.foldl (fun n c => 10 * n + Text.digitValue c) n ≤ maxSignificand) :
    absorb n digits = (digits.foldl (fun n c => 10 * n + Text.digitValue c) n, []) := by
  induction digits generalizing n with
  | nil => rfl
  | cons c digits ih =>
      have next : 10 * n + Text.digitValue c ≤ maxSignificand :=
        Nat.le_trans (le_foldl_digits digits _) fits
      simp only [absorb, next, if_true]
      exact ih fits

/-- The value of a whole number: exact, or negative zero. -/
theorem toJson?_of_isWhole {literal : NumberLiteral} (whole : literal.isWhole = true) :
    literal.toJson? =
      if literal.negative then
        if Text.decimalValue literal.whole = 0 then some (.float (.zero true))
        else some (.int (-(Text.decimalValue literal.whole : Int)))
      else some (.int (Text.decimalValue literal.whole)) := by
  obtain ⟨negative, digits, fraction, exponent⟩ := literal
  simp only [isWhole, Bool.and_eq_true, Option.isNone_iff_eq_none, decide_eq_true_eq] at whole
  obtain ⟨⟨rfl, rfl⟩, fits⟩ := whole
  have absorbed : absorb 0 digits = (Text.decimalValue digits, []) := by
    refine absorb_of_le (Nat.le_trans fits ?_)
    split <;> decide
  simp only [toJson?, absorbed]
  cases negative with
  | false => simp
  | true =>
      simp only [if_true] at fits
      by_cases zero : Text.decimalValue digits = 0
      · rw [zero]
        rfl
      · simp [zero, Nat.not_lt.mpr fits]

end NumberLiteral

namespace Json

/-- A whole number that a document can give. -/
def Ranged (n : Int) : Prop := -0x8000000000000000 ≤ n ∧ n ≤ NumberLiteral.maxSignificand

theorem toJson?_literalOf {n : Int} (ranged : Ranged n) :
    (literalOf n).toJson? = some (.int n) := by
  obtain ⟨low, high⟩ := ranged
  have whole : (literalOf n).isWhole = true := by
    simp only [literalOf, NumberLiteral.isWhole, Option.isNone_none, Bool.true_and,
      Text.decimalValue_toDigits, decide_eq_true_eq]
    split <;> omega
  rw [NumberLiteral.toJson?_of_isWhole whole]
  simp only [literalOf, Text.decimalValue_toDigits, decide_eq_true_eq]
  split
  · rw [if_neg (by omega)]
    congr 2
    omega
  · congr 2
    omega

theorem toJson?_negativeZero : negativeZero.toJson? = some (.float (.zero true)) := by
  simp [negativeZero, NumberLiteral.toJson?, NumberLiteral.absorb, Text.digitValue,
    NumberLiteral.maxSignificand, NumberLiteral.writtenExponent?, Binary64.ofNat,
    Binary64.roundQuotient, NumberLiteral.scale, Binary64.isZero, Binary64.zero]

/-! ## Order of fields -/

/-- Fields in strictly ascending order of their keys. -/
def Ascending (fields : List (String × Json)) : Prop := fields.Pairwise fun f g => f.1 < g.1

theorem mem_insertField {k : String} {v : Json} {fields : List (String × Json)}
    {f : String × Json} (member : f ∈ insertField k v fields) : f = (k, v) ∨ f ∈ fields := by
  induction fields with
  | nil => exact .inl (by simpa [insertField] using member)
  | cons g fields ih =>
      rw [insertField] at member
      split at member
      · exact (List.mem_cons.mp member).imp_right fun later => List.mem_cons_of_mem _ later
      · split at member
        · exact List.mem_cons.mp member
        · rcases List.mem_cons.mp member with rfl | later
          · exact .inr List.mem_cons_self
          · exact (ih later).imp_right (List.mem_cons_of_mem _)

theorem ascending_insertField (k : String) (v : Json) {fields : List (String × Json)}
    (ascending : Ascending fields) : Ascending (insertField k v fields) := by
  induction fields with
  | nil => exact List.pairwise_singleton _ _
  | cons g fields ih =>
      obtain ⟨above, rest⟩ := List.pairwise_cons.mp ascending
      rw [insertField]
      split
      · rename_i same
        subst same
        exact List.pairwise_cons.mpr ⟨above, rest⟩
      · rename_i differs
        split
        · rename_i below
          refine List.pairwise_cons.mpr ⟨?_, ascending⟩
          exact List.forall_mem_cons.mpr ⟨below, fun f later => String.lt_trans below (above f later)⟩
        · rename_i notBelow
          have first : g.1 < k := lt_of_le_of_ne (not_lt.mp notBelow) (Ne.symm differs)
          refine List.pairwise_cons.mpr ⟨fun f member => ?_, ih rest⟩
          rcases mem_insertField member with rfl | later
          · exact first
          · exact above f later

theorem insertField_last {k : String} (v : Json) {fields : List (String × Json)}
    (below : ∀ f ∈ fields, f.1 < k) : insertField k v fields = fields ++ [(k, v)] := by
  induction fields with
  | nil => rfl
  | cons g fields ih =>
      obtain ⟨first, rest⟩ := List.forall_mem_cons.mp below
      have differs : k ≠ g.1 := by
        rintro rfl
        exact String.lt_irrefl _ first
      rw [insertField, if_neg differs, if_neg (String.lt_asymm first), ih rest, List.cons_append]

theorem ascending_sortFields (fields : List (String × Json)) : Ascending (sortFields fields) := by
  rw [sortFields]
  refine List.foldlRecOn fields _ List.Pairwise.nil fun sorted ascending f _ => ?_
  exact ascending_insertField f.1 f.2 ascending

theorem mem_of_mem_sortFields {fields : List (String × Json)} {f : String × Json}
    (member : f ∈ sortFields fields) : f ∈ fields := by
  have inside : ∀ g ∈ sortFields fields, g ∈ fields := by
    rw [sortFields]
    refine List.foldlRecOn (motive := fun sorted => ∀ g ∈ sorted, g ∈ fields) fields _
      (fun g none => absurd none List.not_mem_nil) fun sorted older h given g found => ?_
    rcases mem_insertField found with rfl | member
    · exact given
    · exact older g member
  exact inside f member

theorem sortFields_of_ascending {fields : List (String × Json)} (ascending : Ascending fields) :
    sortFields fields = fields := by
  have appended : ∀ sorted, Ascending (sorted ++ fields) →
      fields.foldl (fun sorted f => insertField f.1 f.2 sorted) sorted = sorted ++ fields := by
    clear ascending
    induction fields with
    | nil => simp
    | cons f fields ih =>
        intro sorted ascending
        have below : ∀ g ∈ sorted, g.1 < f.1 := fun g member =>
          (List.pairwise_append.mp ascending).2.2 g member f List.mem_cons_self
        rw [List.foldl_cons, insertField_last f.2 below, ih _ (by simpa using ascending)]
        simp
  exact appended [] ascending

/-! ## Values read back -/

/-- A value that is decoded from its own syntax when the given number of levels is left. -/
def Free (levels : Nat) (v : Json) : Prop := v.Whole ∧ json? levels v.syntaxOf = some v

theorem wholeItems_iff {items : List Json} : WholeItems items ↔ ∀ v ∈ items, v.Whole := by
  induction items with
  | nil => simp [WholeItems]
  | cons v vs ih => simp [WholeItems, ih]

theorem wholeFields_iff {fields : List (String × Json)} :
    WholeFields fields ↔ ∀ f ∈ fields, f.2.Whole := by
  induction fields with
  | nil => simp [WholeFields]
  | cons f fs ih => simp [WholeFields, ih]

theorem jsonItems?_of_free {levels : Nat} {items : List Json}
    (free : ∀ v ∈ items, Free levels v) : jsonItems? levels (syntaxItems items) = some items := by
  induction items with
  | nil => rfl
  | cons v vs ih =>
      obtain ⟨first, rest⟩ := List.forall_mem_cons.mp free
      simp only [syntaxItems, jsonItems?, first.2, ih rest]

theorem jsonMembers?_of_free {levels : Nat} {fields : List (String × Json)}
    (free : ∀ f ∈ fields, Free levels f.2) :
    jsonMembers? levels (syntaxFields fields) = some fields := by
  induction fields with
  | nil => rfl
  | cons f fs ih =>
      obtain ⟨first, rest⟩ := List.forall_mem_cons.mp free
      simp only [syntaxFields, jsonMembers?, first.2, ih rest]

theorem free_null (levels : Nat) : Free levels .null := ⟨trivial, rfl⟩

theorem free_bool (levels : Nat) (b : Bool) : Free levels (.bool b) := ⟨trivial, rfl⟩

theorem free_str (levels : Nat) (s : String) : Free levels (.str s) := ⟨trivial, rfl⟩

theorem free_int (levels : Nat) {n : Int} (ranged : Ranged n) : Free levels (.int n) :=
  ⟨trivial, toJson?_literalOf ranged⟩

theorem free_arr {levels : Nat} (more : 1 < levels) {items : List Json}
    (free : ∀ v ∈ items, Free (levels - 1) v) : Free levels (.arr items) := by
  refine ⟨wholeItems_iff.mpr fun v member => (free v member).1, ?_⟩
  simp only [syntaxOf, json?, Nat.not_le.mpr more, if_false, jsonItems?_of_free free,
    Option.map_some]

theorem free_obj {levels : Nat} (more : 1 < levels) {fields : List (String × Json)}
    (ascending : Ascending fields) (free : ∀ f ∈ fields, Free (levels - 1) f.2) :
    Free levels (.obj fields) := by
  refine ⟨wholeFields_iff.mpr fun f member => (free f member).1, ?_⟩
  simp only [syntaxOf, json?, Nat.not_le.mpr more, if_false, jsonMembers?_of_free free,
    Option.map_some, sortFields_of_ascending ascending]

/-- The number of a whole literal is decoded from its own syntax. -/
theorem free_toJson? (levels : Nat) {literal : NumberLiteral} {v : Json}
    (whole : literal.isWhole = true) (found : literal.toJson? = some v) : Free levels v := by
  have bound := whole
  simp only [NumberLiteral.isWhole, Bool.and_eq_true, decide_eq_true_eq] at bound
  rw [NumberLiteral.toJson?_of_isWhole whole] at found
  split at found
  · rename_i negative
    rw [if_pos negative] at bound
    split at found
    · cases found
      exact ⟨rfl, toJson?_negativeZero⟩
    · cases found
      exact free_int levels (by constructor <;> omega)
  · rename_i positive
    rw [if_neg positive] at bound
    cases found
    exact free_int levels (by constructor <;> omega)

mutual
/-- What is decoded from a document with whole numbers is decoded again from its own syntax. -/
theorem free_of_json? (levels : Nat) (d : Document) (whole : d.isWhole = true) {v : Json}
    (found : json? levels d = some v) : Free levels v := by
  cases d with
  | null =>
      cases found
      exact free_null levels
  | bool b =>
      cases found
      exact free_bool levels b
  | number literal =>
      rw [Document.isWhole] at whole
      exact free_toJson? levels whole found
  | string content =>
      obtain ⟨s, -, rfl⟩ := Option.map_eq_some_iff.mp found
      exact free_str levels s
  | array items =>
      rw [Document.isWhole] at whole
      rw [json?] at found
      split at found
      · cases found
      · rename_i more
        obtain ⟨vs, inside, rfl⟩ := Option.map_eq_some_iff.mp found
        exact free_arr (Nat.not_le.mp more) (free_of_jsonItems? (levels - 1) items whole inside)
  | object members =>
      rw [Document.isWhole] at whole
      rw [json?] at found
      split at found
      · cases found
      · rename_i more
        obtain ⟨fields, inside, rfl⟩ := Option.map_eq_some_iff.mp found
        have free := free_of_jsonMembers? (levels - 1) members whole inside
        exact free_obj (Nat.not_le.mp more) (ascending_sortFields fields) fun f member =>
          free f (mem_of_mem_sortFields member)
  | malformed => cases found

theorem free_of_jsonItems? (levels : Nat) (ds : List Document)
    (whole : Document.isWholeItems ds = true) {vs : List Json}
    (found : jsonItems? levels ds = some vs) : ∀ v ∈ vs, Free levels v := by
  cases ds with
  | nil =>
      cases found
      exact fun v none => nomatch none
  | cons d ds =>
      rw [Document.isWholeItems, Bool.and_eq_true] at whole
      rw [jsonItems?] at found
      split at found
      · rename_i first rest
        cases found
        exact List.forall_mem_cons.mpr
          ⟨free_of_json? levels d whole.1 first, free_of_jsonItems? levels ds whole.2 rest⟩
      · cases found

theorem free_of_jsonMembers? (levels : Nat) (ms : List (Option String × Document))
    (whole : Document.isWholeMembers ms = true) {fields : List (String × Json)}
    (found : jsonMembers? levels ms = some fields) : ∀ f ∈ fields, Free levels f.2 := by
  cases ms with
  | nil =>
      cases found
      exact fun f none => nomatch none
  | cons m ms =>
      obtain ⟨_ | key, d⟩ := m
      · cases found
      rw [Document.isWholeMembers, Bool.and_eq_true] at whole
      simp only [jsonMembers?] at found
      split at found
      · rename_i first rest
        cases found
        exact List.forall_mem_cons.mpr
          ⟨free_of_json? levels d whole.1 first, free_of_jsonMembers? levels ms whole.2 rest⟩
      · cases found
end

end Json

end WorkflowAudit
