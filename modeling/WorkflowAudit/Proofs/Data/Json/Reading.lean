import Mathlib.Data.List.Basic
import WorkflowAudit.Data.Json
import WorkflowAudit.Data.Json.Document

/-! # What the reader takes from a text

The reader of documents takes a value from the front of a text and leaves the rest. One rule for each
kind of value says what it takes. From these rules follows when a text spells a document: blanks may
stand before it, and whatever follows it must not go on with a number.
-/

namespace WorkflowAudit

namespace Document

/-- The reader takes a document from the front of a text. -/
def Takes (cs : List Char) (d : Document) (rest : List Char) : Prop :=
  ∃ shorter, readValue cs = (d, some ⟨rest, shorter⟩)

/-- The reader takes the items of an array with its closing bracket. -/
def TakesItems (cs : List Char) (ds : List Document) (rest : List Char) : Prop :=
  ∃ shorter, readItems cs = (ds, some ⟨rest, shorter⟩)

/-- The reader takes the members of an object with its closing brace. -/
def TakesMembers (cs : List Char) (ms : List (Option String × Document)) (rest : List Char) :
    Prop :=
  ∃ shorter, readMembers cs = (ms, some ⟨rest, shorter⟩)

/-- The reader takes the key of a member, a colon and the value. -/
def TakesMember (cs : List Char) (m : Option String × Document) (rest : List Char) : Prop :=
  ∃ r n after, cs = '"' :: r ∧ stringTail? r = some n ∧
    m.1 = (unescape? (r.take (n - 1))).map String.ofList ∧
    skipBlanks (r.drop n) = ':' :: after ∧ Takes (skipBlanks after) m.2 rest

variable {cs r rest after : List Char} {d : Document} {ds : List Document}
  {m : Option String × Document} {ms : List (Option String × Document)}

/-! ## Words, strings and numbers -/

theorem takes_null : Takes ('n' :: 'u' :: 'l' :: 'l' :: rest) .null rest := by
  refine ⟨by simp only [List.length_cons]; omega, ?_⟩
  rw [readValue]
  · simp [Rest.after]
  all_goals simp

theorem takes_true : Takes ('t' :: 'r' :: 'u' :: 'e' :: rest) (.bool true) rest := by
  refine ⟨by simp only [List.length_cons]; omega, ?_⟩
  rw [readValue]
  · simp [Rest.after]
  all_goals simp

theorem takes_false : Takes ('f' :: 'a' :: 'l' :: 's' :: 'e' :: rest) (.bool false) rest := by
  refine ⟨by simp only [List.length_cons]; omega, ?_⟩
  rw [readValue]
  · simp [Rest.after]
  all_goals simp

theorem takes_string {n : Nat} (closes : stringTail? r = some n) :
    Takes ('"' :: r) (.string ((unescape? (r.take (n - 1))).map String.ofList)) (r.drop n) := by
  refine ⟨by simp only [List.length_cons, List.length_drop]; omega, ?_⟩
  rw [readValue]
  simp only [closes, Rest.after]

/-- What begins with a digit or a sign is read as a number. -/
theorem takes_number {c : Char} {literal : NumberLiteral} {n : Nat}
    (begins : c.isDigit = true ∨ c = '-') (number : number? (c :: r) = some (literal, n + 1)) :
    Takes (c :: r) (.number literal) (r.drop n) := by
  have other : ∀ d : Char, d.isDigit = false → d ≠ '-' → c ≠ d := by
    rintro d noDigit noSign rfl
    exact begins.elim (by simp [noDigit]) noSign
  refine ⟨by simp only [List.length_cons, List.length_drop]; omega, ?_⟩
  rw [readValue]
  · have noTrue := other 't' (by decide) (by decide)
    have noFalse := other 'f' (by decide) (by decide)
    have noNull := other 'n' (by decide) (by decide)
    simp [noTrue.symm, noFalse.symm, noNull.symm, number, Rest.after]
  · exact other _ (by decide) (by decide)
  · exact other _ (by decide) (by decide)
  · exact other _ (by decide) (by decide)

/-! ## Arrays and objects -/

theorem takes_array_nil (closes : skipBlanks r = ']' :: after) :
    Takes ('[' :: r) (.array []) after := by
  have shorter := length_skipBlanks r
  rw [closes, List.length_cons] at shorter
  refine ⟨by simp only [List.length_cons]; omega, ?_⟩
  rw [readValue]
  split
  · rename_i found
    obtain ⟨-, rfl⟩ := List.cons.inj (closes.symm.trans found)
    rfl
  · rename_i other
    exact absurd closes (other after)

theorem not_takesItems_bracket : ¬ TakesItems (']' :: r) ds rest := by
  rintro ⟨shorter, taken⟩
  have stops : readValue (']' :: r) = (.malformed, none) := by
    rw [readValue] <;> simp [number?]
  rw [readItems, stops] at taken
  simp at taken

theorem takes_array (items : TakesItems (skipBlanks r) ds rest) :
    Takes ('[' :: r) (.array ds) rest := by
  have unclosed : ∀ after, skipBlanks r ≠ ']' :: after :=
    fun after found => not_takesItems_bracket (found ▸ items)
  obtain ⟨shorter, taken⟩ := items
  have shorter' := length_skipBlanks r
  refine ⟨by simp only [List.length_cons]; omega, ?_⟩
  rw [readValue]
  split
  · rename_i found
    exact absurd found (unclosed _)
  · simp only [taken, Option.map_some]

theorem takesItems_last (item : Takes cs d rest) (closes : skipBlanks rest = ']' :: after) :
    TakesItems cs [d] after := by
  obtain ⟨shorter, taken⟩ := item
  have shorter' := length_skipBlanks rest
  rw [closes, List.length_cons] at shorter'
  refine ⟨by omega, ?_⟩
  rw [readItems, taken]
  dsimp only
  split
  · rename_i found
    cases closes.symm.trans found
  · rename_i found
    obtain ⟨-, rfl⟩ := List.cons.inj (closes.symm.trans found)
    rfl
  · rename_i _ other
    exact absurd closes (other after)

theorem takesItems_cons {final : List Char} (item : Takes cs d rest)
    (goesOn : skipBlanks rest = ',' :: after) (items : TakesItems (skipBlanks after) ds final) :
    TakesItems cs (d :: ds) final := by
  obtain ⟨shorter, taken⟩ := item
  obtain ⟨shorterItems, takenItems⟩ := items
  have shorter' := length_skipBlanks rest
  have shorterAfter := length_skipBlanks after
  rw [goesOn, List.length_cons] at shorter'
  refine ⟨by omega, ?_⟩
  rw [readItems, taken]
  dsimp only
  split
  · rename_i found
    obtain ⟨-, rfl⟩ := List.cons.inj (goesOn.symm.trans found)
    simp only [takenItems, Option.map_some]
  · rename_i found
    cases goesOn.symm.trans found
  · rename_i other _
    exact absurd goesOn (other after)

theorem takes_object_nil (closes : skipBlanks r = '\x7d' :: after) :
    Takes ('\x7b' :: r) (.object []) after := by
  have shorter := length_skipBlanks r
  rw [closes, List.length_cons] at shorter
  refine ⟨by simp only [List.length_cons]; omega, ?_⟩
  rw [readValue]
  split
  · rename_i found
    obtain ⟨-, rfl⟩ := List.cons.inj (closes.symm.trans found)
    rfl
  · rename_i other
    exact absurd closes (other after)

theorem not_takesMembers_brace : ¬ TakesMembers ('\x7d' :: r) ms rest := by
  rintro ⟨shorter, taken⟩
  rw [readMembers] at taken
  · simp at taken
  all_goals simp

theorem takes_object (members : TakesMembers (skipBlanks r) ms rest) :
    Takes ('\x7b' :: r) (.object ms) rest := by
  have unclosed : ∀ after, skipBlanks r ≠ '\x7d' :: after :=
    fun after found => not_takesMembers_brace (found ▸ members)
  obtain ⟨shorter, taken⟩ := members
  have shorter' := length_skipBlanks r
  refine ⟨by simp only [List.length_cons]; omega, ?_⟩
  rw [readValue]
  split
  · rename_i found
    exact absurd found (unclosed _)
  · simp only [taken, Option.map_some]

theorem takesMembers_last (member : TakesMember cs m rest)
    (closes : skipBlanks rest = '\x7d' :: after) : TakesMembers cs [m] after := by
  obtain ⟨r, n, value, rfl, closesKey, key, colon, shorter, taken⟩ := member
  have shorterKey := length_skipBlanks (r.drop n)
  have shorterValue := length_skipBlanks value
  have shorterRest := length_skipBlanks rest
  rw [colon, List.length_cons, List.length_drop] at shorterKey
  rw [closes, List.length_cons] at shorterRest
  refine ⟨by simp only [List.length_cons]; omega, ?_⟩
  rw [readMembers]
  simp only [closesKey]
  split
  · rename_i found
    obtain ⟨-, rfl⟩ := List.cons.inj (colon.symm.trans found)
    simp only [taken]
    split
    · rename_i found
      cases closes.symm.trans found
    · rename_i found
      obtain ⟨-, rfl⟩ := List.cons.inj (closes.symm.trans found)
      rw [← key]
    · rename_i _ other
      exact absurd closes (other after)
  · rename_i other
    exact absurd colon (other value)

theorem takesMembers_cons {final : List Char} (member : TakesMember cs m rest)
    (goesOn : skipBlanks rest = ',' :: after) (members : TakesMembers (skipBlanks after) ms final) :
    TakesMembers cs (m :: ms) final := by
  obtain ⟨r, n, value, rfl, closesKey, key, colon, shorter, taken⟩ := member
  obtain ⟨shorterMembers, takenMembers⟩ := members
  have shorterKey := length_skipBlanks (r.drop n)
  have shorterValue := length_skipBlanks value
  have shorterRest := length_skipBlanks rest
  have shorterAfter := length_skipBlanks after
  rw [colon, List.length_cons, List.length_drop] at shorterKey
  rw [goesOn, List.length_cons] at shorterRest
  refine ⟨by simp only [List.length_cons]; omega, ?_⟩
  rw [readMembers]
  simp only [closesKey]
  split
  · rename_i found
    obtain ⟨-, rfl⟩ := List.cons.inj (colon.symm.trans found)
    simp only [taken]
    split
    · rename_i found
      obtain ⟨-, rfl⟩ := List.cons.inj (goesOn.symm.trans found)
      simp only [takenMembers, Option.map_some, ← key]
    · rename_i found
      cases goesOn.symm.trans found
    · rename_i other _
      exact absurd goesOn (other after)
  · rename_i other
    exact absurd colon (other value)

end Document

end WorkflowAudit
