import Mathlib.Data.List.Forall2
import WorkflowAudit.Proofs.Data.Json.Literal
import WorkflowAudit.Proofs.Data.Json.Reading

/-! # Texts that spell a JSON value

Every value has one syntax, and both printers spell it: the reader takes that syntax from the text of
a value, whether it is written on one line or on several. Doubles are left out except for negative
zero, the only one that whole numbers can give.
-/

namespace WorkflowAudit

open Document

/-! ## Syntax of values -/

namespace Json

mutual
/-- The syntax of a value whose only double is negative zero. -/
def syntaxOf : Json → Document
  | .null => .null
  | .bool b => .bool b
  | .int n => .number (literalOf n)
  | .float _ => .number negativeZero
  | .str s => .string (some s)
  | .arr items => .array (syntaxItems items)
  | .obj fields => .object (syntaxFields fields)

def syntaxItems : List Json → List Document
  | [] => []
  | v :: vs => syntaxOf v :: syntaxItems vs

def syntaxFields : List (String × Json) → List (Option String × Document)
  | [] => []
  | (k, v) :: fs => (some k, syntaxOf v) :: syntaxFields fs
end

mutual
/-- A value whose only double is negative zero. -/
def Whole : Json → Prop
  | .float x => x = .zero true
  | .arr items => WholeItems items
  | .obj fields => WholeFields fields
  | _ => True

def WholeItems : List Json → Prop
  | [] => True
  | v :: vs => Whole v ∧ WholeItems vs

def WholeFields : List (String × Json) → Prop
  | [] => True
  | (_, v) :: fs => Whole v ∧ WholeFields fs
end

end Json

namespace Document

/-! ## Blanks -/

/-- Characters that the reader skips between values. -/
def Blank (gap : List Char) : Prop := ∀ c ∈ gap, isBlank c = true

theorem blank_nil : Blank [] := fun _ inside => nomatch inside

theorem blank_singleton {c : Char} (blank : isBlank c = true) : Blank [c] :=
  List.forall_mem_singleton.mpr blank

theorem skipBlanks_append {gap : List Char} (blank : Blank gap) (cs : List Char) :
    skipBlanks (gap ++ cs) = skipBlanks cs :=
  List.dropWhile_append_of_pos blank

theorem skipBlanks_cons {c : Char} (cs : List Char) (visible : isBlank c = false) :
    skipBlanks (c :: cs) = c :: cs := by
  simp [skipBlanks, visible]

theorem ends_nil : Ends [] := fun _ _ same => nomatch same

theorem ends_cons {c : Char} {cs : List Char} (stops : continuesNumber c = false) :
    Ends (c :: cs) := by
  intro d ds same
  obtain ⟨rfl, rfl⟩ := List.cons.inj same
  exact stops

theorem continuesNumber_of_isBlank {c : Char} (blank : isBlank c = true) :
    continuesNumber c = false := by
  simp only [isBlank, Bool.or_eq_true, decide_eq_true_eq] at blank
  rcases blank with ((rfl | rfl) | rfl) | rfl <;> decide

theorem ends_append {gap cs : List Char} (blank : Blank gap) (ends : Ends cs) :
    Ends (gap ++ cs) := by
  cases gap with
  | nil => exact ends
  | cons c gap => exact ends_cons (continuesNumber_of_isBlank (blank c List.mem_cons_self))

/-! ## Spelling -/

/-- Whatever follows a text, `takes` gets something from it, blanks before it included. -/
def SpellsFor {α : Type} (takes : List Char → α → List Char → Prop) (text : List Char) (a : α) :
    Prop :=
  ∀ rest, Ends rest → takes (skipBlanks (text ++ rest)) a rest

/-- The reader takes a document from a text. -/
abbrev Spells : List Char → Document → Prop := SpellsFor Takes

/-- The reader takes a member of an object from a text. -/
abbrev SpellsMember : List Char → Option String × Document → Prop := SpellsFor TakesMember

theorem SpellsFor.after {α : Type} {takes : List Char → α → List Char → Prop}
    {gap text : List Char} {a : α} (spells : SpellsFor takes text a) (blank : Blank gap) :
    SpellsFor takes (gap ++ text) a := by
  intro rest ends
  rw [List.append_assoc, skipBlanks_append blank]
  exact spells rest ends

/-- What stands between the opening quote and the closing one, and what follows. -/
private theorem quoted_split (inside rest : List Char) :
    (inside ++ '"' :: rest).take (inside.length + 1 - 1) = inside ∧
      (inside ++ '"' :: rest).drop (inside.length + 1) = rest := by
  constructor
  · rw [Nat.add_sub_cancel, List.take_left]
  · rw [Nat.add_comm, ← List.drop_drop, List.drop_one]
    simp

private theorem skipBlanks_quote (s : String) (rest : List Char) :
    skipBlanks ((Json.quote s).toList ++ rest) =
      '"' :: (s.toList.flatMap Json.escapeChar ++ '"' :: rest) := by
  rw [toList_quote, List.cons_append, skipBlanks_cons _ (by decide), List.append_assoc]
  rfl

theorem spells_quote (s : String) : Spells (Json.quote s).toList (.string (some s)) := by
  intro rest _
  have taken := takes_string (stringTail?_quoted s.toList rest)
  obtain ⟨inside, after⟩ := quoted_split (s.toList.flatMap Json.escapeChar) rest
  rwa [inside, after, unescape?_quoted, Option.map_some, String.ofList_toList,
    ← skipBlanks_quote] at taken

theorem spells_int (n : Int) : Spells (toString n).toList (.number (Json.literalOf n)) := by
  intro rest ends
  have read := number?_literalOf n ends
  obtain ⟨c, cs, spelled⟩ : ∃ c cs, (toString n).toList = c :: cs :=
    List.exists_cons_of_ne_nil (by
      rw [toList_toString]
      exact List.append_ne_nil_of_right_ne_nil _ Nat.toDigits_ne_nil)
  have begins : c.isDigit = true ∨ c = '-' := by
    rw [toList_toString] at spelled
    split at spelled
    · exact .inr (List.cons.inj spelled).1.symm
    · rw [List.nil_append] at spelled
      exact .inl (Nat.isDigit_of_mem_toDigits (by decide) (by decide)
        (spelled ▸ List.mem_cons_self))
  have visible : isBlank c = false := by
    rw [Bool.eq_false_iff]
    intro blank
    have stops := continuesNumber_of_isBlank blank
    rcases begins with digit | rfl
    · simp [continuesNumber, digit] at stops
    · cases blank
  rw [spelled, List.cons_append, List.length_cons] at read
  have taken := takes_number begins read
  rwa [List.drop_left, ← skipBlanks_cons _ visible, ← List.cons_append, ← spelled] at taken

theorem spells_negativeZero :
    Spells ((Binary64.zero true).render Json.floatLayout).toList (.number Json.negativeZero) := by
  intro rest ends
  have read : number? ('-' :: '0' :: '.' :: '0' :: rest) = some (Json.negativeZero, 3 + 1) := by
    cases rest with
    | nil => decide
    | cons c cs =>
        have stops := ends c cs rfl
        simp only [continuesNumber, Bool.or_eq_false_iff, decide_eq_false_iff_not] at stops
        simp [number?, stops, Json.negativeZero]
  exact takes_number (.inr rfl) read

theorem spells_null : Spells "null".toList .null := fun _ _ => takes_null

theorem spells_true : Spells "true".toList (.bool true) := fun _ _ => takes_true

theorem spells_false : Spells "false".toList (.bool false) := fun _ _ => takes_false

/-- A member: a quoted key, a colon and a value. -/
theorem spellsMember (key : String) {text : List Char} {d : Document} (value : Spells text d) :
    SpellsMember ((Json.quote key).toList ++ ':' :: text) (some key, d) := by
  intro rest ends
  rw [List.append_assoc, skipBlanks_quote]
  obtain ⟨inside, after⟩ := quoted_split (key.toList.flatMap Json.escapeChar) (':' :: text ++ rest)
  refine ⟨_, _, text ++ rest, rfl, stringTail?_quoted key.toList _, ?_, ?_, value rest ends⟩
  · rw [inside, unescape?_quoted, Option.map_some, String.ofList_toList]
  · rw [after]
    exact skipBlanks_cons _ (by decide)

section Sequences

variable {α : Type} (one : List Char → α → List Char → Prop)
  (many : List Char → List α → List Char → Prop) {close : Char}
  (last : ∀ {cs a rest after}, one cs a rest → skipBlanks rest = close :: after → many cs [a] after)
  (more : ∀ {cs a rest after as final}, one cs a rest → skipBlanks rest = ',' :: after →
    many (skipBlanks after) as final → many cs (a :: as) final)

include last more

/-- Items or members with commas between them, up to what closes them. -/
theorem takes_intercalate {gap closing rest : List Char} (blank : Blank gap)
    {texts : List (List Char)} {as : List α} (spelled : List.Forall₂ (SpellsFor one) texts as)
    (any : texts ≠ []) (ends : Ends closing) (closes : skipBlanks closing = close :: rest) :
    many (skipBlanks ((',' :: gap).intercalate texts ++ closing)) as rest := by
  induction spelled with
  | nil => exact absurd rfl any
  | @cons text a texts as item items ih =>
      cases items with
      | nil =>
          rw [List.intercalate_singleton]
          exact last (item closing ends) closes
      | cons next others =>
          have later := ih (List.cons_ne_nil _ _)
          rw [List.intercalate_cons_cons, List.append_assoc, List.append_assoc, List.cons_append]
          refine more (item _ (ends_cons (by decide))) (skipBlanks_cons _ (by decide)) ?_
          rwa [skipBlanks_append blank]

/-- What opens a sequence, the sequence and what closes it. -/
theorem spellsFor_sequence (takes : List Char → List α → List Char → Prop) {start : Char}
    {opening gap closing : List Char} {texts : List (List Char)} {as : List α}
    (empty : ∀ {r after}, skipBlanks r = close :: after → takes (start :: r) [] after)
    (any : ∀ {r as rest}, many (skipBlanks r) as rest → takes (start :: r) as rest)
    (visible : isBlank start = false ∧ isBlank close = false)
    (stops : continuesNumber close = false)
    (blanks : Blank opening ∧ Blank gap ∧ Blank closing)
    (spelled : List.Forall₂ (SpellsFor one) texts as) :
    SpellsFor takes (start :: (opening ++ (',' :: gap).intercalate texts ++ closing ++ [close]))
      as := by
  obtain ⟨blankOpening, blankGap, blankClosing⟩ := blanks
  intro rest _
  rw [List.cons_append, skipBlanks_cons _ visible.1]
  have closes : skipBlanks (closing ++ close :: rest) = close :: rest := by
    rw [skipBlanks_append blankClosing, skipBlanks_cons _ visible.2]
  have text : opening ++ (',' :: gap).intercalate texts ++ closing ++ [close] ++ rest =
      opening ++ ((',' :: gap).intercalate texts ++ (closing ++ close :: rest)) := by simp
  rw [text]
  cases spelled with
  | nil =>
      refine empty ?_
      rw [skipBlanks_append blankOpening, List.intercalate_nil, List.nil_append, closes]
  | cons item items =>
      refine any ?_
      rw [skipBlanks_append blankOpening]
      exact takes_intercalate one many last more blankGap (.cons item items) (List.cons_ne_nil _ _)
        (ends_append blankClosing (ends_cons stops)) closes

end Sequences

section Brackets

variable {opening gap closing : List Char} {texts : List (List Char)}
  (blanks : Blank opening ∧ Blank gap ∧ Blank closing)

include blanks

theorem spells_array {ds : List Document} (spelled : List.Forall₂ Spells texts ds) :
    Spells ('[' :: (opening ++ (',' :: gap).intercalate texts ++ closing ++ [']'])) (.array ds) :=
  spellsFor_sequence Takes TakesItems takesItems_last takesItems_cons
    (fun cs ds rest => Takes cs (.array ds) rest) takes_array_nil takes_array ⟨rfl, rfl⟩ rfl blanks
    spelled

theorem spells_object {ms : List (Option String × Document)}
    (spelled : List.Forall₂ SpellsMember texts ms) :
    Spells ('\x7b' :: (opening ++ (',' :: gap).intercalate texts ++ closing ++ ['\x7d']))
      (.object ms) :=
  spellsFor_sequence TakesMember TakesMembers takesMembers_last takesMembers_cons
    (fun cs ms rest => Takes cs (.object ms) rest) takes_object_nil takes_object ⟨rfl, rfl⟩ rfl
    blanks spelled

end Brackets

/-! ## Printers -/

mutual
theorem spells_compact (v : Json) (whole : v.Whole) : Spells v.compact.toList v.syntaxOf := by
  cases v with
  | null => exact spells_null
  | bool b => cases b; exacts [spells_false, spells_true]
  | int n => exact spells_int n
  | float x =>
      rw [Json.Whole] at whole
      rw [Json.compact, whole]
      exact spells_negativeZero
  | str s => exact spells_quote s
  | arr items =>
      rw [Json.Whole] at whole
      have spelled := spells_array ⟨blank_nil, blank_nil, blank_nil⟩ (spells_compactItems items whole)
      simpa [Json.compact, Json.syntaxOf, String.toList_intercalate] using spelled
  | obj fields =>
      rw [Json.Whole] at whole
      have spelled :=
        spells_object ⟨blank_nil, blank_nil, blank_nil⟩ (spells_compactFields fields whole)
      simpa [Json.compact, Json.syntaxOf, String.toList_intercalate] using spelled

theorem spells_compactItems (items : List Json) (whole : Json.WholeItems items) :
    List.Forall₂ Spells ((Json.compactItems items).map String.toList) (Json.syntaxItems items) := by
  cases items with
  | nil => exact .nil
  | cons v vs =>
      rw [Json.WholeItems] at whole
      exact .cons (spells_compact v whole.1) (spells_compactItems vs whole.2)

theorem spells_compactFields (fields : List (String × Json)) (whole : Json.WholeFields fields) :
    List.Forall₂ SpellsMember ((Json.compactFields fields).map String.toList)
      (Json.syntaxFields fields) := by
  cases fields with
  | nil => exact .nil
  | cons f fs =>
      obtain ⟨k, v⟩ := f
      rw [Json.WholeFields] at whole
      have member := spellsMember k (spells_compact v whole.1)
      refine .cons ?_ (spells_compactFields fs whole.2)
      simpa using member
end

theorem blank_indentation (depth : Nat) : Blank (Json.indentation depth).toList := by
  intro c inside
  rw [Json.indentation, String.toList_ofList] at inside
  rw [List.eq_of_mem_replicate inside]
  rfl

private theorem toList_block (opening closing : String) (depth : Nat) {lines : List String}
    (any : lines ≠ []) :
    (Json.block opening closing depth lines).toList =
      opening.toList ++ (['\n'] ++ [',', '\n'].intercalate
        (lines.map fun line => (Json.indentation (depth + 1)).toList ++ line.toList) ++
        ('\n' :: (Json.indentation depth).toList) ++ closing.toList) := by
  simp [Json.block, any, String.toList_intercalate, Function.comp_def]

private theorem blanks_of_block (depth : Nat) :
    Blank ['\n'] ∧ Blank ['\n'] ∧ Blank ('\n' :: (Json.indentation depth).toList) :=
  ⟨blank_singleton rfl, blank_singleton rfl,
    List.forall_mem_cons.mpr ⟨rfl, blank_indentation depth⟩⟩

/-- Items on lines of their own, or none between the brackets. -/
theorem spells_block_array {depth : Nat} {lines : List String} {ds : List Document}
    (spelled : List.Forall₂ Spells (lines.map String.toList) ds) :
    Spells (Json.block "[" "]" depth lines).toList (.array ds) := by
  by_cases any : lines = []
  · subst any
    simpa [Json.block] using spells_array ⟨blank_nil, blank_nil, blank_nil⟩ spelled
  · rw [toList_block _ _ _ any]
    refine spells_array (blanks_of_block depth) ?_
    rw [List.forall₂_map_left_iff] at spelled ⊢
    exact spelled.imp fun _ _ item => item.after (blank_indentation _)

/-- Members on lines of their own, or none between the braces. -/
theorem spells_block_object {depth : Nat} {lines : List String}
    {ms : List (Option String × Document)}
    (spelled : List.Forall₂ SpellsMember (lines.map String.toList) ms) :
    Spells (Json.block "\x7b" "\x7d" depth lines).toList (.object ms) := by
  by_cases any : lines = []
  · subst any
    simpa [Json.block] using spells_object ⟨blank_nil, blank_nil, blank_nil⟩ spelled
  · rw [toList_block _ _ _ any]
    refine spells_object (blanks_of_block depth) ?_
    rw [List.forall₂_map_left_iff] at spelled ⊢
    exact spelled.imp fun _ _ member => member.after (blank_indentation _)

mutual
theorem spells_prettyAt (depth : Nat) (v : Json) (whole : v.Whole) :
    Spells (v.prettyAt depth).toList v.syntaxOf := by
  cases v with
  | null => rw [Json.prettyAt]; exact spells_null
  | bool b => cases b <;> rw [Json.prettyAt]; exacts [spells_false, spells_true]
  | int n => rw [Json.prettyAt]; exact spells_int n
  | float x =>
      rw [Json.Whole] at whole
      rw [Json.prettyAt, whole]
      exact spells_negativeZero
  | str s => rw [Json.prettyAt]; exact spells_quote s
  | arr items =>
      rw [Json.Whole] at whole
      rw [Json.prettyAt]
      exact spells_block_array (spells_prettyItems (depth + 1) items whole)
  | obj fields =>
      rw [Json.Whole] at whole
      rw [Json.prettyAt]
      exact spells_block_object (spells_prettyFields (depth + 1) fields whole)

theorem spells_prettyItems (depth : Nat) (items : List Json) (whole : Json.WholeItems items) :
    List.Forall₂ Spells ((Json.prettyItems depth items).map String.toList)
      (Json.syntaxItems items) := by
  cases items with
  | nil => exact .nil
  | cons v vs =>
      rw [Json.WholeItems] at whole
      exact .cons (spells_prettyAt depth v whole.1) (spells_prettyItems depth vs whole.2)

theorem spells_prettyFields (depth : Nat) (fields : List (String × Json))
    (whole : Json.WholeFields fields) :
    List.Forall₂ SpellsMember ((Json.prettyFields depth fields).map String.toList)
      (Json.syntaxFields fields) := by
  cases fields with
  | nil => exact .nil
  | cons f fs =>
      obtain ⟨k, v⟩ := f
      rw [Json.WholeFields] at whole
      have value := (spells_prettyAt depth v whole.1).after (blank_singleton (c := ' ') rfl)
      refine .cons ?_ (spells_prettyFields depth fs whole.2)
      simpa using spellsMember k value
end

/-- The text of a value is read as the syntax that it spells, and nothing is left. -/
theorem read_of_spells {text : String} {d : Document} (spells : Spells text.toList d) :
    read text = (d, true) := by
  have taken := spells [] ends_nil
  rw [List.append_nil] at taken
  obtain ⟨_, taken⟩ := taken
  simp only [read, taken]
  rfl

theorem read_compact {v : Json} (whole : v.Whole) : read v.compact = (v.syntaxOf, true) :=
  read_of_spells (spells_compact v whole)

theorem read_pretty {v : Json} (whole : v.Whole) : read v.pretty = (v.syntaxOf, true) :=
  read_of_spells (spells_prettyAt 0 v whole)

end Document

end WorkflowAudit
