import Mathlib.Data.List.Basic
import Mathlib.Logic.ExistsUnique
import Mathlib.Logic.Relation
import WorkflowAudit.Script.StringLiteral

/-! # Escapes in string literals

The content of a literal is read from left to right, an escape at a time, by rules that leave no choice.
Decoding follows these rules with one exception: a code may begin with a plus sign in place of its first
digit. A text in which the reading meets no such code is decoded as the rules say. Any other text comes
out shorter.
-/

namespace WorkflowAudit.Script.StringPiece

open Text

/-! ## Rules -/

/-- What a letter, a quote or a backslash stands for behind a backslash. -/
def letterEscapes : List (Char × Char) :=
  [('n', '\n'), ('t', '\t'), ('r', '\r'), ('a', '\x07'), ('b', '\x08'), ('f', '\x0c'), ('v', '\x0b'),
    ('\\', '\\'), ('\'', '\''), ('"', '"')]

/-- How many digits a code has behind its letter. -/
def codeWidths : List (Char × Nat) := [('x', 2), ('u', 4), ('U', 8)]

/-- An escape at the start of what stands behind a backslash, with the characters that it stands for and
what follows it. -/
inductive Escape : List Char → List Char → List Char → Prop where
  /-- A line feed joins two lines. -/
  | join {rest : List Char} : Escape ('\n' :: rest) [] rest
  | letter {e c : Char} {rest : List Char} : (e, c) ∈ letterEscapes → Escape (e :: rest) [c] rest
  /-- One to three octal digits, as many as there are. -/
  | octal {digits rest : List Char} : digits ≠ [] → digits.length ≤ 3 →
      (∀ d ∈ digits, isOctal d = true) →
      (digits.length < 3 → ∀ d ∈ rest.head?, isOctal d = false) →
      Escape (digits ++ rest) [Char.ofNat (ofDigits 8 digitValue digits)] rest
  /-- Hexadecimal digits that name a character. -/
  | code {e : Char} {width : Nat} {digits rest : List Char} : (e, width) ∈ codeWidths →
      digits.length = width → (∀ d ∈ digits, isHexDigit d = true) →
      (hexadecimalValue digits).isValidChar →
      Escape (e :: (digits ++ rest)) [Char.ofNat (hexadecimalValue digits)] rest

/-- A code with a plus sign in place of its first digit. -/
inductive SignedCode : List Char → List Char → List Char → Prop where
  | code {e : Char} {width : Nat} {digits rest : List Char} : (e, width) ∈ codeWidths →
      digits.length + 1 = width → (∀ d ∈ digits, isHexDigit d = true) →
      (hexadecimalValue digits).isValidChar →
      SignedCode (e :: '+' :: (digits ++ rest)) [Char.ofNat (hexadecimalValue digits)] rest

/-- An escape, or a code with a sign. -/
def LooseEscape (cs piece rest : List Char) : Prop := Escape cs piece rest ∨ SignedCode cs piece rest

section Reading

variable (Known : List Char → List Char → List Char → Prop)

/-- One step of a reading that knows some escapes: what the text begins with stands for a piece. -/
inductive Step : List Char → List Char → List Char → Prop where
  | plain {c : Char} {rest : List Char} : c ≠ '\\' → Step (c :: rest) [c] rest
  | escape {cs piece rest : List Char} : Known cs piece rest → Step ('\\' :: cs) piece rest
  /-- A backslash that begins no escape stays, and so does the character behind it. -/
  | kept {e : Char} {rest : List Char} : (∀ piece left, ¬ Known (e :: rest) piece left) →
      Step ('\\' :: e :: rest) ['\\', e] rest
  | last : Step ['\\'] ['\\'] []

/-- The content of a text, read from left to right. -/
inductive Decodes : List Char → List Char → Prop where
  | nil : Decodes [] []
  | step {cs piece rest out : List Char} : Step Known cs piece rest → Decodes rest out →
      Decodes cs (piece ++ out)

/-- The reading of one text comes to another one. -/
inductive Reaches : List Char → List Char → Prop where
  | here {cs : List Char} : Reaches cs cs
  | step {cs piece rest left : List Char} : Step Known cs piece rest → Reaches rest left →
      Reaches cs left

/-- Escapes of which at most one stands at the start of a text, and takes some of it. -/
structure Unambiguous : Prop where
  takes : ∀ {cs piece rest}, Known cs piece rest → rest.length < cs.length
  single : ∀ {cs piece piece' rest rest'}, Known cs piece rest → Known cs piece' rest' →
    piece = piece' ∧ rest = rest'

end Reading

/-- The reading of a text by the rules comes to a code with a sign. -/
def MeetsSign (cs : List Char) : Prop :=
  ∃ body piece left, Reaches Escape cs ('\\' :: body) ∧ SignedCode body piece left

variable {cs rest piece piece' rest' left out out' digits : List Char} {e c : Char} {n width : Nat}
  {Known : List Char → List Char → List Char → Prop}

/-! ## Readings -/

theorem Unambiguous.step (clear : Unambiguous Known) (first : Step Known cs piece rest)
    (second : Step Known cs piece' rest') : piece = piece' ∧ rest = rest' := by
  cases first with
  | plain differs =>
      cases second with
      | plain => exact ⟨rfl, rfl⟩
      | escape | kept | last => exact absurd rfl differs
  | escape known =>
      cases second with
      | plain differs => exact absurd rfl differs
      | escape again => exact clear.single known again
      | kept none => exact absurd known (none _ _)
      | last => exact absurd (clear.takes known) (Nat.not_lt_zero _)
  | kept none =>
      cases second with
      | plain differs => exact absurd rfl differs
      | escape known => exact absurd known (none _ _)
      | kept => exact ⟨rfl, rfl⟩
  | last =>
      cases second with
      | plain differs => exact absurd rfl differs
      | escape known => exact absurd (clear.takes known) (Nat.not_lt_zero _)
      | last => exact ⟨rfl, rfl⟩

theorem Unambiguous.exists_step (clear : Unambiguous Known) (some : cs ≠ []) :
    ∃ piece rest, Step Known cs piece rest ∧ rest.length < cs.length := by
  obtain ⟨c, cs, rfl⟩ := List.exists_cons_of_ne_nil some
  by_cases plain : c ≠ '\\'
  · exact ⟨_, _, .plain plain, Nat.lt_succ_self _⟩
  · obtain rfl := not_not.mp plain
    by_cases begins : ∃ piece rest, Known cs piece rest
    · obtain ⟨piece, rest, known⟩ := begins
      exact ⟨_, _, .escape known, Nat.lt_succ_of_lt (clear.takes known)⟩
    · simp only [not_exists] at begins
      cases cs with
      | nil => exact ⟨_, _, .last, Nat.zero_lt_one⟩
      | cons e rest => exact ⟨_, _, .kept begins, by simp only [List.length_cons]; omega⟩

theorem Unambiguous.exists_decodes (clear : Unambiguous Known) (cs : List Char) :
    ∃ out, Decodes Known cs out := by
  induction size : cs.length using Nat.strongRecOn generalizing cs with
  | ind size' ih =>
      by_cases some : cs = []
      · subst some
        exact ⟨[], .nil⟩
      · obtain ⟨piece, rest, step, shorter⟩ := clear.exists_step some
        obtain ⟨out, decodes⟩ := ih _ (size ▸ shorter) rest rfl
        exact ⟨_, .step step decodes⟩

theorem Unambiguous.decodes (clear : Unambiguous Known) (first : Decodes Known cs out)
    (second : Decodes Known cs out') : out = out' := by
  induction first generalizing out' with
  | nil =>
      cases second with
      | nil => rfl
      | step step => cases step
  | step step _ ih =>
      cases second with
      | nil => cases step
      | step again rest =>
          obtain ⟨rfl, rfl⟩ := clear.step step again
          rw [ih rest]

/-! ## The tables and the decoder -/

theorem simpleEscape?_eq_some_iff : simpleEscape? e = some c ↔ (e, c) ∈ letterEscapes := by
  constructor
  · intro found
    unfold simpleEscape? at found
    split at found <;> cases found <;> decide
  · intro member
    simp only [letterEscapes, List.mem_cons, Prod.mk.injEq, List.not_mem_nil, or_false] at member
    rcases member with ⟨rfl, rfl⟩ | ⟨rfl, rfl⟩ | ⟨rfl, rfl⟩ | ⟨rfl, rfl⟩ | ⟨rfl, rfl⟩ | ⟨rfl, rfl⟩ |
      ⟨rfl, rfl⟩ | ⟨rfl, rfl⟩ | ⟨rfl, rfl⟩ | ⟨rfl, rfl⟩ <;> rfl

theorem hexWidth?_eq_some_iff : hexWidth? e = some width ↔ (e, width) ∈ codeWidths := by
  constructor
  · intro found
    unfold hexWidth? at found
    split at found <;> cases found <;> decide
  · intro member
    simp only [codeWidths, List.mem_cons, Prod.mk.injEq, List.not_mem_nil, or_false] at member
    rcases member with ⟨rfl, rfl⟩ | ⟨rfl, rfl⟩ | ⟨rfl, rfl⟩ <;> rfl

/-- The rules are about different characters behind the backslash. -/
theorem letterEscapes_apart : ∀ entry ∈ letterEscapes, entry.1 ≠ '\n' ∧ isOctal entry.1 = false := by
  decide

theorem codeWidths_apart : ∀ entry ∈ codeWidths, entry.1 ≠ '\n' ∧ isOctal entry.1 = false ∧
    simpleEscape? entry.1 = none ∧ 2 ≤ entry.2 := by decide

theorem charOfCode?_eq_some_iff {code : Nat} :
    charOfCode? code = some c ↔ code.isValidChar ∧ Char.ofNat code = c := by
  simp [charOfCode?, Nat.isValidChar]

theorem hexCode?_of_digits (some : digits ≠ []) (hex : ∀ d ∈ digits, isHexDigit d = true) :
    hexCode? digits = .some (hexadecimalValue digits) := by
  have unsigned : digits.head? ≠ .some '+' := fun first =>
    absurd (hex '+' (List.mem_of_head? first)) (by decide)
  simp [hexCode?, unsigned, some, List.all_eq_true.mpr hex]

theorem hexCode?_of_sign (some : digits ≠ []) (hex : ∀ d ∈ digits, isHexDigit d = true) :
    hexCode? ('+' :: digits) = .some (hexadecimalValue digits) := by
  simp [hexCode?, some, List.all_eq_true.mpr hex]

theorem exists_digits_of_hexCode? {code : Nat} (read : hexCode? cs = some code) :
    ∃ digits, (cs = digits ∨ cs = '+' :: digits) ∧ (∀ d ∈ digits, isHexDigit d = true) ∧
      hexadecimalValue digits = code := by
  by_cases signed : cs.head? = some '+'
  · obtain ⟨digits, rfl⟩ := List.head?_eq_some_iff.mp signed
    obtain ⟨⟨-, hex⟩, value⟩ : (digits ≠ [] ∧ ∀ d ∈ digits, isHexDigit d = true) ∧
        hexadecimalValue digits = code := by simpa [hexCode?] using read
    exact ⟨digits, .inr rfl, hex, value⟩
  · obtain ⟨⟨-, hex⟩, value⟩ : (cs ≠ [] ∧ ∀ d ∈ cs, isHexDigit d = true) ∧
        hexadecimalValue cs = code := by simpa [hexCode?, signed] using read
    exact ⟨cs, .inl rfl, hex, value⟩

/-- A run of at most so many characters of a class takes as many as it can. -/
theorem takeWhile_take_spec (accepts : Char → Bool) (most : Nat) (cs : List Char) :
    ∃ rest, cs = (cs.take most).takeWhile accepts ++ rest ∧
      ((cs.take most).takeWhile accepts).length ≤ most ∧
      (((cs.take most).takeWhile accepts).length < most → ∀ d ∈ rest.head?, accepts d = false) := by
  induction most generalizing cs with
  | zero => exact ⟨cs, by simp, by simp, fun more => absurd more (by simp)⟩
  | succ most ih =>
      cases cs with
      | nil => exact ⟨[], by simp, by simp, by simp⟩
      | cons c cs =>
          obtain ⟨rest, split, bounded, ends⟩ := ih cs
          cases holds : accepts c with
          | false => exact ⟨c :: cs, by simp [holds], by simp [holds], by simp [holds]⟩
          | true =>
              refine ⟨rest, ?_, ?_, ?_⟩
              · rw [List.take_succ_cons, List.takeWhile_cons_of_pos holds, List.cons_append, ← split]
              · rw [List.take_succ_cons, List.takeWhile_cons_of_pos holds, List.length_cons]
                omega
              · rw [List.take_succ_cons, List.takeWhile_cons_of_pos holds, List.length_cons]
                exact fun more => ends (by omega)

theorem takeWhile_take_append {accepts : Char → Bool} {most : Nat}
    (all : ∀ d ∈ digits, accepts d = true) (bounded : digits.length ≤ most)
    (ends : digits.length < most → ∀ d ∈ rest.head?, accepts d = false) :
    ((digits ++ rest).take most).takeWhile accepts = digits := by
  rw [List.take_append, List.take_of_length_le bounded, List.takeWhile_append_of_pos all,
    List.append_right_eq_self]
  by_cases full : digits.length < most
  · obtain ⟨more, spare⟩ : ∃ more, most - digits.length = more + 1 :=
      ⟨most - digits.length - 1, by omega⟩
    cases rest with
    | nil => rw [List.take_nil, List.takeWhile_nil]
    | cons d rest => simp [spare, ends full d rfl]
  · rw [Nat.sub_eq_zero_of_le (Nat.le_of_not_lt full), List.take_zero, List.takeWhile_nil]

/-- Three octal digits name a character. -/
theorem octal_isValidChar (short : digits.length ≤ 3) (octal : ∀ d ∈ digits, isOctal d = true) :
    (ofDigits 8 digitValue digits).isValidChar := by
  have small : ∀ d ∈ digits, digitValue d ≤ 7 := by
    intro d member
    obtain ⟨-, most⟩ : '0' ≤ d ∧ d ≤ '7' := by simpa [isOctal] using octal d member
    have code : d.toNat ≤ 55 := most
    have zero : '0'.toNat = 48 := rfl
    rw [digitValue]
    omega
  have bounded : ofDigits 8 digitValue digits < 512 := by
    rcases digits with _ | ⟨a, _ | ⟨b, _ | ⟨c, _ | ⟨d, more⟩⟩⟩⟩
    · simp [ofDigits]
    all_goals simp only [List.forall_mem_cons, List.length_cons] at small short
    all_goals simp only [ofDigits, List.foldl_cons, List.foldl_nil]; omega
  exact .inl (by omega)

/-! ## What is decoded -/

theorem looseEscape_of_escape? (found : escape? e cs = some (piece, n)) :
    LooseEscape (e :: cs) piece (cs.drop n) := by
  unfold escape? at found
  split at found
  · rename_i join
    subst join
    cases found
    exact .inl .join
  · split at found
    · rename_i octal
      obtain ⟨ch, named, same⟩ := Option.map_eq_some_iff.mp found
      obtain ⟨valid, rfl⟩ := charOfCode?_eq_some_iff.mp named
      cases same
      obtain ⟨rest, split, bounded, ends⟩ := takeWhile_take_spec isOctal 2 cs
      have all : ∀ d ∈ (cs.take 2).takeWhile isOctal, isOctal d = true :=
        fun d member => List.all_eq_true.mp List.all_takeWhile d member
      generalize (cs.take 2).takeWhile isOctal = more at split bounded ends all
      subst split
      rw [List.drop_left]
      have longer : (e :: more).length ≤ 3 := Nat.succ_le_succ bounded
      have digits : ∀ d ∈ e :: more, isOctal d = true := List.forall_mem_cons.mpr ⟨octal, all⟩
      exact .inl (.octal (List.cons_ne_nil _ _) longer digits fun fewer =>
        ends (Nat.lt_of_succ_lt_succ fewer))
    · split at found
      · rename_i ch _ letter
        cases found
        exact .inl (.letter (simpleEscape?_eq_some_iff.mp letter))
      · rename_i width letter hex
        dsimp only at found
        split at found
        · rename_i enough
          obtain ⟨code, read, found⟩ := Option.bind_eq_some_iff.mp found
          obtain ⟨ch, named, same⟩ := Option.map_eq_some_iff.mp found
          obtain ⟨valid, rfl⟩ := charOfCode?_eq_some_iff.mp named
          cases same
          obtain ⟨digits, spelled, all, rfl⟩ := exists_digits_of_hexCode? read
          have member := hexWidth?_eq_some_iff.mp hex
          have split := List.take_append_drop n cs
          rcases spelled with spelled | spelled <;> rw [spelled] at split enough <;>
            rw [← split, ← enough]
          · rw [List.drop_left]
            exact .inl (.code member enough all valid)
          · rw [List.drop_left]
            exact .inr (.code member enough all valid)
        · cases found
      · cases found

theorem escape?_of_looseEscape (begins : LooseEscape (e :: cs) piece rest) :
    ∃ n, escape? e cs = some (piece, n) ∧ cs.drop n = rest := by
  rcases begins with begins | begins
  · generalize whole : e :: cs = body at begins
    cases begins with
    | join =>
        obtain ⟨rfl, rfl⟩ := List.cons.inj whole
        exact ⟨0, rfl, rfl⟩
    | letter member =>
        obtain ⟨rfl, rfl⟩ := List.cons.inj whole
        obtain ⟨other, plain⟩ := letterEscapes_apart _ member
        refine ⟨0, ?_, rfl⟩
        simp only [escape?, other, plain, simpleEscape?_eq_some_iff.mpr member, Bool.false_eq_true,
          if_false]
    | @octal digits _ some short octal ends =>
        obtain ⟨d, more, rfl⟩ := List.exists_cons_of_ne_nil some
        rw [List.cons_append] at whole
        obtain ⟨rfl, rfl⟩ := List.cons.inj whole
        obtain ⟨first, later⟩ := List.forall_mem_cons.mp octal
        have other : e ≠ '\n' := by
          rintro rfl
          cases first
        have named := charOfCode?_eq_some_iff.mpr ⟨octal_isValidChar short octal, rfl⟩
        have taken := takeWhile_take_append later (Nat.le_of_succ_le_succ short)
          fun fewer => ends (Nat.succ_lt_succ fewer)
        refine ⟨more.length, ?_, List.drop_left⟩
        simp only [escape?, other, first, taken, named, if_false, if_true, Option.map_some]
    | @code _ width digits _ member enough hex valid =>
        obtain ⟨rfl, rfl⟩ := List.cons.inj whole
        obtain ⟨other, plain, letter, wide⟩ := codeWidths_apart _ member
        subst enough
        have some : digits ≠ [] := List.ne_nil_of_length_pos (Nat.lt_of_lt_of_le Nat.zero_lt_two wide)
        have named := charOfCode?_eq_some_iff.mpr ⟨valid, rfl⟩
        refine ⟨digits.length, ?_, List.drop_left⟩
        simp only [escape?, other, plain, letter, hexWidth?_eq_some_iff.mpr member,
          List.take_left, hexCode?_of_digits some hex, named, Bool.false_eq_true, if_false, if_true,
          Option.bind_some, Option.map_some]
  · generalize whole : e :: cs = body at begins
    cases begins with
    | @code _ width digits _ member enough hex valid =>
        obtain ⟨rfl, rfl⟩ := List.cons.inj whole
        obtain ⟨other, plain, letter, wide⟩ := codeWidths_apart _ member
        subst enough
        have some : digits ≠ [] := List.ne_nil_of_length_pos (Nat.le_of_succ_le_succ wide)
        have named := charOfCode?_eq_some_iff.mpr ⟨valid, rfl⟩
        have taken : ('+' :: (digits ++ rest)).take (digits.length + 1) = '+' :: digits := by simp
        refine ⟨digits.length + 1, ?_, by simp⟩
        simp only [escape?, other, plain, letter, hexWidth?_eq_some_iff.mpr member, taken,
          List.length_cons, hexCode?_of_sign some hex, named, Bool.false_eq_true, if_false, if_true,
          Option.bind_some, Option.map_some]

theorem length_lt_of_looseEscape (begins : LooseEscape cs piece rest) : rest.length < cs.length := by
  rcases begins with begins | begins
  · cases begins with
    | join | letter => exact Nat.lt_succ_self _
    | octal some =>
        rw [List.length_append]
        have := List.length_pos_of_ne_nil some
        omega
    | code =>
        rw [List.length_cons, List.length_append]
        omega
  · cases begins with
    | code =>
        rw [List.length_cons, List.length_cons, List.length_append]
        omega

theorem unambiguous_looseEscape : Unambiguous LooseEscape where
  takes := length_lt_of_looseEscape
  single {cs piece piece' rest rest'} first second := by
    cases cs with
    | nil => exact absurd (length_lt_of_looseEscape first) (Nat.not_lt_zero _)
    | cons e cs =>
        obtain ⟨n, found, rfl⟩ := escape?_of_looseEscape first
        obtain ⟨m, again, rfl⟩ := escape?_of_looseEscape second
        obtain ⟨rfl, rfl⟩ := Prod.mk.inj (Option.some.inj (found.symm.trans again))
        exact ⟨rfl, rfl⟩

theorem unambiguous_escape : Unambiguous Escape where
  takes begins := unambiguous_looseEscape.takes (.inl begins)
  single first second := unambiguous_looseEscape.single (.inl first) (.inl second)

theorem unescape_plain (plain : c ≠ '\\') (cs : List Char) :
    unescape (c :: cs) = c :: unescape cs := by
  rw [unescape.eq_def]
  exact if_pos plain

theorem unescape_of_step (step : Step LooseEscape cs piece rest) :
    unescape cs = piece ++ unescape rest := by
  cases step with
  | plain plain => exact unescape_plain plain rest
  | @escape body _ _ begins =>
      cases body with
      | nil => exact absurd (unambiguous_looseEscape.takes begins) (Nat.not_lt_zero _)
      | cons e body =>
          obtain ⟨n, found, rfl⟩ := escape?_of_looseEscape begins
          rw [unescape.eq_def]
          simp [found]
  | @kept e _ none =>
      have nothing : escape? e rest = .none := by
        rw [Option.eq_none_iff_forall_ne_some]
        exact fun found known => none _ _ (looseEscape_of_escape? known)
      rw [unescape.eq_def]
      simp [nothing]
  | last => simp [unescape]

theorem decodes_iff_unescape : Decodes LooseEscape cs out ↔ out = unescape cs := by
  have forth : ∀ {cs out}, Decodes LooseEscape cs out → out = unescape cs := by
    intro cs out decodes
    induction decodes with
    | nil => rw [unescape]
    | step step _ ih => rw [unescape_of_step step, ih]
  refine ⟨forth, ?_⟩
  rintro rfl
  obtain ⟨out, decodes⟩ := unambiguous_looseEscape.exists_decodes cs
  exact forth decodes ▸ decodes

/-! ## Codes with a sign -/

theorem not_escape_of_signedCode (signed : SignedCode cs piece rest) : ¬ Escape cs piece' rest' := by
  intro begins
  obtain ⟨member, enough, -, -⟩ := signed
  rename_i e width digits
  obtain ⟨other, plain, letter, wide⟩ := codeWidths_apart _ member
  generalize whole : e :: '+' :: (digits ++ rest) = body at begins
  cases begins with
  | join => exact other (List.cons.inj whole).1
  | letter found =>
      rw [← (List.cons.inj whole).1] at found
      rw [simpleEscape?_eq_some_iff.mpr found] at letter
      cases letter
  | @octal digits' _ some _ octal =>
      obtain ⟨d, more, rfl⟩ := List.exists_cons_of_ne_nil some
      rw [List.cons_append] at whole
      have first := octal d List.mem_cons_self
      rw [← (List.cons.inj whole).1, plain] at first
      cases first
  | @code _ width' digits' _ found long hex =>
      obtain ⟨rfl, after⟩ := List.cons.inj whole
      have some : digits' ≠ [] := by
        rintro rfl
        have wide' := (codeWidths_apart _ found).2.2.2
        rw [← long] at wide'
        exact absurd wide' (Nat.not_succ_le_zero 1)
      obtain ⟨d, more, rfl⟩ := List.exists_cons_of_ne_nil some
      rw [List.cons_append] at after
      have first := hex d List.mem_cons_self
      rw [← (List.cons.inj after).1] at first
      cases first

theorem meetsSign_iff_of_step (step : Step Escape cs piece rest) :
    MeetsSign cs ↔ (∃ body piece left, cs = '\\' :: body ∧ SignedCode body piece left) ∨
      MeetsSign rest := by
  constructor
  · rintro ⟨body, found, left, reaches, signed⟩
    cases reaches with
    | here => exact .inl ⟨body, found, left, rfl, signed⟩
    | step again reaches =>
        obtain ⟨-, rfl⟩ := unambiguous_escape.step step again
        exact .inr ⟨body, found, left, reaches, signed⟩
  · rintro (⟨body, found, left, rfl, signed⟩ | ⟨body, found, left, reaches, signed⟩)
    · exact ⟨body, found, left, .here, signed⟩
    · exact ⟨body, found, left, .step step reaches, signed⟩

theorem Step.loosened (step : Step Escape cs piece rest)
    (unsigned : ¬ ∃ body piece left, cs = '\\' :: body ∧ SignedCode body piece left) :
    Step LooseEscape cs piece rest := by
  cases step with
  | plain plain => exact .plain plain
  | escape begins => exact .escape (.inl begins)
  | kept none =>
      refine .kept fun piece left begins => begins.elim (none piece left) fun signed => ?_
      exact unsigned ⟨_, piece, left, rfl, signed⟩
  | last => exact .last

theorem unescape_digits (hex : ∀ d ∈ digits, isHexDigit d = true) (left : List Char) :
    unescape (digits ++ left) = digits ++ unescape left := by
  induction digits with
  | nil => rfl
  | cons d digits ih =>
      obtain ⟨first, later⟩ := List.forall_mem_cons.mp hex
      have plain : d ≠ '\\' := by
        rintro rfl
        cases first
      rw [List.cons_append, unescape_plain plain, ih later, List.cons_append]

/-- A code with a sign stands for one character, where the rules keep it as it is written. -/
theorem length_unescape_of_signedCode {body : List Char} (signed : SignedCode body piece' left)
    (step : Step Escape ('\\' :: body) piece rest) (short : (unescape rest).length ≤ out.length) :
    (unescape ('\\' :: body)).length < (piece ++ out).length := by
  rw [unescape_of_step (.escape (.inr signed))]
  cases step with
  | plain plain => exact absurd rfl plain
  | escape begins => exact absurd begins (not_escape_of_signedCode signed)
  | kept =>
      obtain ⟨-, -, hex, -⟩ := signed
      rw [unescape_plain (by decide), unescape_digits hex] at short
      simp only [List.length_append, List.length_cons, List.length_nil] at short ⊢
      omega
  | last => cases signed

/-- A text with a code that has a sign comes out shorter than by the rules. -/
theorem unescape_of_decodes (decodes : Decodes Escape cs out) :
    (¬ MeetsSign cs ∧ unescape cs = out) ∨ (MeetsSign cs ∧ (unescape cs).length < out.length) := by
  induction decodes with
  | nil =>
      refine .inl ⟨?_, by rw [unescape]⟩
      rintro ⟨body, piece, left, reaches, -⟩
      cases reaches with
      | step step => cases step
  | @step cs piece rest out step _ ih =>
      by_cases signs : ∃ body piece left, cs = '\\' :: body ∧ SignedCode body piece left
      · have meets := (meetsSign_iff_of_step step).mpr (.inl signs)
        obtain ⟨body, found, left, rfl, signed⟩ := signs
        refine .inr ⟨meets, length_unescape_of_signedCode signed step ?_⟩
        exact ih.elim (fun same => Nat.le_of_eq (congrArg List.length same.2)) fun less =>
          Nat.le_of_lt less.2
      · have same := unescape_of_step (step.loosened signs)
        rw [meetsSign_iff_of_step step, or_iff_right signs, same]
        refine ih.imp (And.imp_right fun alone => by rw [alone]) (And.imp_right fun less => ?_)
        rw [List.length_append, List.length_append]
        omega

/-- The rules give every text one content, and decoding finds it unless the reading meets a code with a
sign. Decoding reads such codes as well, and otherwise by the same rules. -/
theorem unescape_by_rules (cs : List Char) :
    (∃! out, Decodes Escape cs out) ∧
    (Decodes Escape cs (unescape cs) ↔ ¬ MeetsSign cs) ∧
    ∀ out, Decodes LooseEscape cs out ↔ out = unescape cs := by
  obtain ⟨out, decodes⟩ := unambiguous_escape.exists_decodes cs
  have only : ∀ other, Decodes Escape cs other → other = out :=
    fun other again => unambiguous_escape.decodes again decodes
  refine ⟨⟨out, decodes, only⟩, ?_, fun out => decodes_iff_unescape⟩
  rcases unescape_of_decodes decodes with ⟨unsigned, same⟩ | ⟨meets, less⟩
  · exact iff_of_true (same ▸ decodes) unsigned
  · refine iff_of_false (fun again => ?_) (not_not.mpr meets)
    rw [only _ again] at less
    exact Nat.lt_irrefl _ less

example : unescape ['\\', 'x', '+', '4'] = ['\x04'] := by decide +kernel

end WorkflowAudit.Script.StringPiece
