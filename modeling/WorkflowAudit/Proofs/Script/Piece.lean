import Mathlib.Data.List.Infix
import Mathlib.Data.List.TakeWhile
import Mathlib.Tactic.Common
import WorkflowAudit.Script.Lexer

/-!
# The front of a text and what follows it

`front` looks ahead: the longest operator is taken, a name takes all that continues it, and two
quotes may be an empty literal or the start of a long one. This module says how far it looks.
From some place on a text may be replaced by one that goes on no operator and no exponent, and every
piece that ended before that place stays the same; a name, a number or a literal that ends just there
stays the same as well, unless the new text goes on it.
-/

namespace WorkflowAudit.Script.Lexer

/-- Characters that begin a name or a literal. -/
def beginsWord (c : Char) : Bool := startsName c || isQuote c

theorem beginsWord_of_isDigit {c : Char} (h : c.isDigit = true) : beginsWord c = false := by
  have hmem : c.toNat - 48 ∈ List.range 10 ∧ c = Char.ofNat (c.toNat - 48 + 48) := by
    simp only [Char.isDigit, Bool.and_eq_true, decide_eq_true_eq, ge_iff_le,
      UInt32.le_iff_toNat_le] at h
    have hlow : 48 ≤ c.toNat := h.1
    have hhigh : c.toNat ≤ 57 := h.2
    refine ⟨by rw [List.mem_range]; omega, ?_⟩
    rw [Nat.sub_add_cancel hlow, Char.ofNat_toNat]
  have hall : ∀ n ∈ List.range 10, beginsWord (Char.ofNat (n + 48)) = false := by decide
  rw [hmem.2]
  exact hall _ hmem.1

theorem isDigit_of_beginsWord {c : Char} (h : beginsWord c = true) : c.isDigit = false := by
  by_contra hdigit
  rw [Bool.not_eq_false] at hdigit
  rw [beginsWord_of_isDigit hdigit] at h
  cases h

theorem ne_of_beginsWord {c : Char} (h : beginsWord c = true) (d : Char)
    (hd : beginsWord d = false) : c ≠ d := by
  rintro rfl
  rw [h] at hd
  cases hd

/-- Characters with which no operator and no exponent goes on, and no line ends. -/
def breaks (c : Char) : Bool := beginsWord c || c = ' '

theorem breaks_of_beginsWord {c : Char} (h : beginsWord c = true) : breaks c = true := by
  rw [breaks, h, Bool.true_or]

theorem ne_lineFeed_of_breaks {c : Char} (h : breaks c = true) : c ≠ '\n' := by
  rintro rfl
  revert h
  decide

theorem continuesName_of_isQuote {c : Char} (h : isQuote c = true) : continuesName c = false := by
  simp only [isQuote, Bool.or_eq_true, decide_eq_true_eq] at h
  rcases h with rfl | rfl <;> decide

theorem isQuote_of_startsName {c : Char} (h : startsName c = true) : isQuote c = false := by
  by_contra hquote
  simp only [isQuote, Bool.not_eq_false, Bool.or_eq_true, decide_eq_true_eq] at hquote
  have hplain : startsName '"' = false ∧ startsName '\'' = false := by decide
  rcases hquote with rfl | rfl
  · cases hplain.1.symm.trans h
  · cases hplain.2.symm.trans h

theorem ne_of_isQuote {quote c : Char} (hquote : isQuote quote = true) (hc : isQuote c = false) :
    c ≠ quote := by
  rintro rfl
  cases hc.symm.trans hquote

/-! ## Literals -/

/-- Induction along the characters of a literal, where a backslash takes the next one with it. -/
theorem escaped_induction {motive : List Char → Prop} (nil : motive [])
    (lone : motive ['\\']) (escape : ∀ c cs, motive cs → motive ('\\' :: c :: cs))
    (plain : ∀ c cs, c ≠ '\\' → motive cs → motive (c :: cs)) : ∀ cs, motive cs
  | [] => nil
  | [c] => by
    by_cases hc : c = '\\'
    · exact hc ▸ lone
    · exact plain c [] hc nil
  | c :: d :: cs => by
    by_cases hc : c = '\\'
    · exact hc ▸ escape d cs (escaped_induction nil lone escape plain cs)
    · exact plain c (d :: cs) hc (escaped_induction nil lone escape plain (d :: cs))

theorem shortLiteralTail?_cons {c : Char} (quote : Char) (cs : List Char) (hc : c ≠ '\\') :
    shortLiteralTail? quote (c :: cs) =
      if c = quote then some 1 else if c = '\n' then none
        else (shortLiteralTail? quote cs).map (· + 1) :=
  shortLiteralTail?.eq_4 quote c cs (fun h _ => hc h) (fun _ _ h _ => hc h)

theorem longLiteralTail?_cons {c : Char} (quote : Char) (cs : List Char) (hc : c ≠ '\\') :
    longLiteralTail? quote (c :: cs) =
      if c = quote && [quote, quote].isPrefixOf cs then some 3
        else (longLiteralTail? quote cs).map (· + 1) :=
  longLiteralTail?.eq_4 quote c cs (fun h _ => hc h) (fun _ _ h _ => hc h)

theorem shortLiteralTail?_bounds {quote : Char} {cs : List Char} {n : Nat}
    (h : shortLiteralTail? quote cs = some n) : 0 < n ∧ n ≤ cs.length := by
  induction cs using escaped_induction generalizing n with
  | nil => simp [shortLiteralTail?] at h
  | lone => simp [shortLiteralTail?] at h
  | escape c cs ih =>
    obtain ⟨m, hm, rfl⟩ := Option.map_eq_some_iff.mp h
    have := ih hm
    simp only [List.length_cons]
    omega
  | plain c cs hc ih =>
    rw [shortLiteralTail?_cons quote cs hc] at h
    split at h
    · cases h
      simp
    · split at h
      · cases h
      · obtain ⟨m, hm, rfl⟩ := Option.map_eq_some_iff.mp h
        have := ih hm
        simp only [List.length_cons]
        omega

theorem longLiteralTail?_bounds {quote : Char} {cs : List Char} {n : Nat}
    (h : longLiteralTail? quote cs = some n) : 3 ≤ n ∧ n ≤ cs.length := by
  induction cs using escaped_induction generalizing n with
  | nil => simp [longLiteralTail?] at h
  | lone => simp [longLiteralTail?] at h
  | escape c cs ih =>
    obtain ⟨m, hm, rfl⟩ := Option.map_eq_some_iff.mp h
    have := ih hm
    simp only [List.length_cons]
    omega
  | plain c cs hc ih =>
    rw [longLiteralTail?_cons quote cs hc] at h
    split at h
    case isTrue hclose =>
      rw [Bool.and_eq_true, List.isPrefixOf_iff_prefix] at hclose
      have := hclose.2.length_le
      cases h
      simp only [List.length_cons, List.length_nil] at this ⊢
      omega
    case isFalse =>
      obtain ⟨m, hm, rfl⟩ := Option.map_eq_some_iff.mp h
      have := ih hm
      simp only [List.length_cons]
      omega

theorem shortLiteralTail?_append {quote : Char} {w rest : List Char} (rest' : List Char)
    (h : shortLiteralTail? quote (w ++ rest) = some w.length) :
    shortLiteralTail? quote (w ++ rest') = some w.length := by
  induction w using escaped_induction with
  | nil =>
    have := (shortLiteralTail?_bounds h).1
    simp at this
  | lone =>
    cases rest with
    | nil => simp [shortLiteralTail?] at h
    | cons c rest => simp [shortLiteralTail?] at h
  | escape c w ih =>
    obtain ⟨m, hm, hlength⟩ := Option.map_eq_some_iff.mp h
    obtain rfl : m = w.length := by simp only [List.length_cons] at hlength; omega
    simp [shortLiteralTail?, ih hm]
  | plain c w hc ih =>
    rw [List.cons_append, shortLiteralTail?_cons quote _ hc] at h ⊢
    split at h
    case isTrue hquote => rw [if_pos hquote, h]
    case isFalse hquote =>
      split at h
      case isTrue => cases h
      case isFalse hfeed =>
        obtain ⟨m, hm, hlength⟩ := Option.map_eq_some_iff.mp h
        obtain rfl : m = w.length := by simp only [List.length_cons] at hlength; omega
        rw [if_neg hquote, if_neg hfeed, ih hm]
        rfl

/-- A run of two that is no start of `w` is none of `w` and more, if `w` has two characters. -/
theorem isPrefixOf_append_of_length_le {pre w : List Char} (rest : List Char)
    (h : pre.length ≤ w.length) : pre.isPrefixOf (w ++ rest) = pre.isPrefixOf w := by
  rw [Bool.eq_iff_iff, List.isPrefixOf_iff_prefix, List.isPrefixOf_iff_prefix]
  exact ⟨fun hp => List.prefix_of_prefix_length_le hp (List.prefix_append w rest) h,
    fun hp => hp.trans (List.prefix_append w rest)⟩

theorem longLiteralTail?_append {quote : Char} {w rest : List Char} (rest' : List Char)
    (h : longLiteralTail? quote (w ++ rest) = some w.length) :
    longLiteralTail? quote (w ++ rest') = some w.length := by
  induction w using escaped_induction with
  | nil =>
    have := (longLiteralTail?_bounds h).1
    simp at this
  | lone =>
    have := (longLiteralTail?_bounds h).1
    simp at this
  | escape c w ih =>
    obtain ⟨m, hm, hlength⟩ := Option.map_eq_some_iff.mp h
    obtain rfl : m = w.length := by simp only [List.length_cons] at hlength; omega
    simp [longLiteralTail?, ih hm]
  | plain c w hc ih =>
    rw [List.cons_append, longLiteralTail?_cons quote _ hc] at h ⊢
    have hlong := (show 2 ≤ w.length by
      split at h
      · simp only [Option.some.injEq, List.length_cons] at h
        omega
      · obtain ⟨m, hm, hlength⟩ := Option.map_eq_some_iff.mp h
        have := (longLiteralTail?_bounds hm).1
        simp only [List.length_cons] at hlength
        omega)
    rw [isPrefixOf_append_of_length_le _ (by simpa using hlong)] at h ⊢
    split at h
    case isTrue hquote => rw [if_pos hquote, h]
    case isFalse hquote =>
      obtain ⟨m, hm, hlength⟩ := Option.map_eq_some_iff.mp h
      obtain rfl : m = w.length := by simp only [List.length_cons] at hlength; omega
      rw [if_neg hquote, ih hm]
      rfl

theorem literalTail?_length_le {quote : Char} {cs : List Char} {n : Nat}
    (h : literalTail? quote cs = some n) : n ≤ cs.length := by
  unfold literalTail? at h
  split at h
  case isTrue =>
    obtain ⟨m, hm, rfl⟩ := Option.map_eq_some_iff.mp h
    have := longLiteralTail?_bounds hm
    simp only [List.length_drop] at this
    omega
  case isFalse => exact (shortLiteralTail?_bounds h).2

theorem literalTail?_append {quote : Char} {w rest rest' : List Char}
    (hempty : w = [quote] → rest'.head? = some quote → rest.head? = some quote)
    (h : literalTail? quote (w ++ rest) = some w.length) :
    literalTail? quote (w ++ rest') = some w.length := by
  unfold literalTail? at h ⊢
  split at h
  case isTrue hlong =>
    obtain ⟨m, hm, hlength⟩ := Option.map_eq_some_iff.mp h
    have hbounds := longLiteralTail?_bounds hm
    have htwo : 2 ≤ w.length := by omega
    rw [isPrefixOf_append_of_length_le _ (by simpa using htwo)] at hlong ⊢
    rw [List.drop_append_of_le_length htwo] at hm ⊢
    obtain rfl : m = (w.drop 2).length := by rw [List.length_drop]; omega
    rw [if_pos hlong, longLiteralTail?_append rest' hm, Option.map_some, hlength]
  case isFalse hshort =>
    have hpos := (shortLiteralTail?_bounds h).1
    rw [if_neg, shortLiteralTail?_append rest' h]
    intro hopens
    match w, hpos with
    | [c], _ =>
      rw [List.isPrefixOf_iff_prefix] at hopens hshort
      simp only [List.cons_append, List.nil_append, List.cons_prefix_cons] at hopens hshort
      obtain ⟨rfl, cs, hcs⟩ := hopens
      have hrest := hempty rfl (by simp [← hcs])
      obtain ⟨tail, rfl⟩ := List.head?_eq_some_iff.mp hrest
      exact hshort ⟨rfl, tail, rfl⟩
    | c :: d :: w, _ =>
      rw [isPrefixOf_append_of_length_le _ (by simp)] at hopens hshort
      exact hshort hopens

/-! ## Numbers -/

/-- Whether a character, with what follows it, continues a number. -/
def joinsNumber (hasRadix : Bool) (last c : Char) (cs : List Char) : Bool :=
  continuesNumber c ||
    ((c = '+' || c = '-') && !hasRadix && (last = 'e' || last = 'E') && cs.head?.any Char.isDigit)

theorem numberTail_cons (hasRadix : Bool) (last c : Char) (cs : List Char) :
    numberTail hasRadix last (c :: cs) =
      if joinsNumber hasRadix last c cs then numberTail hasRadix c cs + 1 else 0 := by
  rw [numberTail, joinsNumber]
  cases continuesNumber c <;> simp

theorem continuesNumber_of_isDigit {c : Char} (h : c.isDigit = true) :
    continuesNumber c = true := by
  simp [continuesNumber, Char.isAlphanum, h]

theorem head?_append_of_numberTail {hasRadix : Bool} {last : Char} {w rest : List Char}
    (h : numberTail hasRadix last (w ++ rest) = w.length) (rest' : List Char)
    (hdigit : (w ++ rest).head?.any Char.isDigit = true) :
    (w ++ rest').head?.any Char.isDigit = true := by
  cases w with
  | cons d w => exact hdigit
  | nil =>
    cases rest with
    | nil => simp at hdigit
    | cons d rest =>
      have hjoins : joinsNumber hasRadix last d rest = true := by
        rw [joinsNumber, continuesNumber_of_isDigit (by simpa using hdigit), Bool.true_or]
      rw [List.nil_append, numberTail_cons, if_pos hjoins] at h
      simp at h

theorem numberTail_append {hasRadix : Bool} {last : Char} {w rest rest' : List Char}
    (h : numberTail hasRadix last (w ++ rest) = w.length)
    (hstop : numberTail hasRadix (w.getLastD last) rest' = 0) :
    numberTail hasRadix last (w ++ rest') = w.length := by
  induction w generalizing last with
  | nil => exact hstop
  | cons c w ih =>
    rw [List.cons_append, numberTail_cons] at h ⊢
    split at h
    case isFalse => simp at h
    case isTrue hjoins =>
      have hrest : numberTail hasRadix c (w ++ rest) = w.length := by simpa using h
      have hjoins' : joinsNumber hasRadix last c (w ++ rest') = true := by
        simp only [joinsNumber, Bool.or_eq_true, Bool.and_eq_true] at hjoins ⊢
        exact hjoins.imp_right fun hsign =>
          ⟨hsign.1, head?_append_of_numberTail hrest rest' hsign.2⟩
      rw [if_pos hjoins', ih hrest (by rwa [List.getLastD_cons] at hstop)]
      rfl

theorem numberTail_getLastD {hasRadix : Bool} {last : Char} {w rest : List Char}
    (h : numberTail hasRadix last (w ++ rest) = w.length) :
    numberTail hasRadix (w.getLastD last) rest = 0 := by
  induction w generalizing last with
  | nil => exact h
  | cons c w ih =>
    rw [List.cons_append, numberTail_cons] at h
    split at h
    case isFalse => simp at h
    case isTrue =>
      rw [List.getLastD_cons]
      exact ih (by simpa using h)

theorem numberTail_length_le (hasRadix : Bool) (last : Char) (cs : List Char) :
    numberTail hasRadix last cs ≤ cs.length := by
  induction cs generalizing last with
  | nil => simp [numberTail]
  | cons c cs ih =>
    rw [numberTail_cons]
    split
    · have := ih c
      simp only [List.length_cons]
      omega
    · exact Nat.zero_le _

/-! ## Operators -/

theorem prefix_append_iff {α : Type} {op u rest : List α} :
    op <+: u ++ rest ↔ op <+: u ∨ ∃ excess, op = u ++ excess ∧ excess <+: rest := by
  constructor
  · rintro ⟨after, h⟩
    rcases List.append_eq_append_iff.mp h with ⟨excess, hu, -⟩ | ⟨excess, hop, hrest⟩
    · exact .inl ⟨excess, hu.symm⟩
    · exact .inr ⟨excess, hop, after, hrest.symm⟩
  · rintro (h | ⟨excess, rfl, h⟩)
    · exact h.trans (List.prefix_append u rest)
    · exact (List.prefix_append_right_inj u).mpr h

/-- Texts that go on no operator and no exponent. -/
def Detached (rest : List Char) : Prop :=
  ∀ y ∈ rest.head?, y.isDigit = false ∧ ∀ op ∈ longOperators ++ mediumOperators, y ∉ op.tail

theorem detached_cons_of_breaks {y : Char} (rest : List Char) (hy : breaks y = true) :
    Detached (y :: rest) := by
  have htails : (longOperators ++ mediumOperators).all
      (fun op => op.tail.all fun c => !breaks c) = true := by decide
  simp only [Detached, List.head?_cons, Option.mem_def, Option.some.injEq, forall_eq']
  refine ⟨?_, fun op hop hmem => ?_⟩
  · rcases Bool.or_eq_true _ _ ▸ hy with hword | hblank
    · exact isDigit_of_beginsWord hword
    · rw [of_decide_eq_true hblank]
      rfl
  · have hplain := List.all_eq_true.mp (List.all_eq_true.mp htails op hop) y hmem
    rw [hy] at hplain
    cases hplain

/-- An operator is no longer in a text whose next character cannot stand in it. -/
theorem isPrefixOf_append {op u rest : List Char} (hu : u ≠ [])
    (hrest : ∀ y ∈ rest.head?, y ∉ op.tail) : op.isPrefixOf (u ++ rest) = op.isPrefixOf u := by
  rw [Bool.eq_iff_iff, List.isPrefixOf_iff_prefix, List.isPrefixOf_iff_prefix, prefix_append_iff]
  refine ⟨?_, .inl⟩
  rintro (h | ⟨excess, rfl, hover⟩)
  · exact h
  · cases excess with
    | nil => simp
    | cons y excess =>
      obtain ⟨c, u, rfl⟩ := List.exists_cons_of_ne_nil hu
      obtain ⟨rest, rfl⟩ := hover
      exact absurd (List.mem_append_right u List.mem_cons_self) (hrest y rfl)

theorem any_isPrefixOf_append_of_head {ops : List (List Char)} {u rest : List Char} (hu : u ≠ [])
    (hrest : ∀ y ∈ rest.head?, ∀ op ∈ ops, y ∉ op.tail) :
    (ops.any fun op => op.isPrefixOf (u ++ rest)) = ops.any fun op => op.isPrefixOf u := by
  rw [Bool.eq_iff_iff, List.any_eq_true, List.any_eq_true]
  refine exists_congr fun op => and_congr_right fun hop => ?_
  rw [isPrefixOf_append hu fun y hy => hrest y hy op hop]

/-- Whether one of some operators stands at the front can be told from the text up to `u`, if
    it is so, since they are no longer; and if it is not so, it is not so of `u`. -/
theorem any_isPrefixOf_append {ops : List (List Char)} {u rest : List Char}
    (h : (ops.any fun op => op.isPrefixOf (u ++ rest)) = true → ∀ op ∈ ops, op.length ≤ u.length) :
    (ops.any fun op => op.isPrefixOf (u ++ rest)) = ops.any fun op => op.isPrefixOf u := by
  cases hany : ops.any fun op => op.isPrefixOf (u ++ rest) with
  | true =>
    obtain ⟨op, hop, hprefix⟩ := List.any_eq_true.mp hany
    rw [isPrefixOf_append_of_length_le rest (h hany op hop)] at hprefix
    exact (List.any_eq_true.mpr ⟨op, hop, hprefix⟩).symm
  | false =>
    rw [List.any_eq_false] at hany
    refine (List.any_eq_false.mpr fun op hop hprefix => hany op hop ?_).symm
    rw [List.isPrefixOf_iff_prefix] at hprefix ⊢
    exact hprefix.trans (List.prefix_append u rest)

theorem operatorLength?_append {c : Char} {w mid rest rest' : List Char} (hrest' : Detached rest')
    (h : operatorLength? c (w ++ (mid ++ rest)) = some (w.length + 1)) :
    operatorLength? c (w ++ (mid ++ rest')) = some (w.length + 1) := by
  have hlongLength : ∀ op ∈ longOperators, op.length = 3 := by decide
  have hmediumLength : ∀ op ∈ mediumOperators, op.length = 2 := by decide
  have hne : c :: (w ++ mid) ≠ [] := by simp
  have hshape : ∀ after, c :: (w ++ (mid ++ after)) = (c :: (w ++ mid)) ++ after := by simp
  unfold operatorLength? at h ⊢
  rw [hshape,
    any_isPrefixOf_append_of_head hne fun y hy op hop => (hrest' y hy).2 op (List.mem_append_left _ hop),
    any_isPrefixOf_append_of_head hne fun y hy op hop => (hrest' y hy).2 op (List.mem_append_right _ hop)]
  rw [hshape, @any_isPrefixOf_append _ (c :: (w ++ mid)) rest] at h
  · split at h
    case isTrue hlong => rw [if_pos hlong, h]
    case isFalse hlong =>
      rw [if_neg hlong]
      rw [@any_isPrefixOf_append _ (c :: (w ++ mid)) rest] at h
      · exact h
      · intro hany op hop
        rw [if_pos hany] at h
        simp only [Option.some.injEq] at h
        rw [hmediumLength op hop, List.length_cons, List.length_append]
        omega
  · intro hany op hop
    rw [if_pos hany] at h
    simp only [Option.some.injEq] at h
    rw [hlongLength op hop, List.length_cons, List.length_append]
    omega

/-! ## Names -/

theorem length_takeWhile_append {p : Char → Bool} {w rest : List Char} :
    ((w ++ rest).takeWhile p).length = w.length ↔
      (∀ c ∈ w, p c = true) ∧ ∀ c ∈ rest.head?, p c = false := by
  induction w with
  | nil => cases rest with
    | nil => simp
    | cons c rest => cases hc : p c <;> simp [hc]
  | cons c w ih =>
    cases hc : p c with
    | true => simp [hc, ih]
    | false => simp [hc]

theorem takeWhile_append_eq {p : Char → Bool} {w rest : List Char}
    (h : ((w ++ rest).takeWhile p).length = w.length) : (w ++ rest).takeWhile p = w := by
  obtain ⟨hw, hrest⟩ := length_takeWhile_append.mp h
  rw [List.takeWhile_append_of_pos hw]
  cases rest with
  | nil => simp
  | cons c rest => simp [hrest c rfl]

/-! ## Pieces -/

theorem operatorLength?_pos {c : Char} {cs : List Char} {n : Nat}
    (h : operatorLength? c cs = some n) : 0 < n := by
  unfold operatorLength? at h
  split at h
  · cases h
    omega
  split at h
  · cases h
    omega
  split at h
  · cases h
    omega
  · cases h

theorem operatorLength?_le {c : Char} {cs : List Char} {n : Nat}
    (h : operatorLength? c cs = some n) : n ≤ cs.length + 1 := by
  have hlongLength : ∀ op ∈ longOperators, op.length = 3 := by decide
  have hmediumLength : ∀ op ∈ mediumOperators, op.length = 2 := by decide
  unfold operatorLength? at h
  split at h
  case isTrue hlong =>
    cases h
    obtain ⟨op, hop, hprefix⟩ := List.any_eq_true.mp hlong
    have := (List.isPrefixOf_iff_prefix.mp hprefix).length_le
    rwa [hlongLength op hop, List.length_cons] at this
  split at h
  case isTrue hmedium =>
    cases h
    obtain ⟨op, hop, hprefix⟩ := List.any_eq_true.mp hmedium
    have := (List.isPrefixOf_iff_prefix.mp hprefix).length_le
    rwa [hmediumLength op hop, List.length_cons] at this
  split at h
  · cases h
    omega
  · cases h

/-! ## What stands at the front -/

/-- What a word at the front of a text is. -/
def wordPiece (c : Char) (w : List Char) : List Char → Except SyntaxFault (Piece × Nat)
  | q :: after =>
    if isLiteralPrefix (c :: w) && isQuote q then
      match literalTail? q after with
      | some n => .ok (.token .str, w.length + 1 + n)
      | none => .error .unterminatedString
    else .ok (.token .name, w.length)
  | [] => .ok (.token .name, w.length)

/-- The pieces that a text can begin with, and the number of characters after the first one. -/
inductive Front : Char → List Char → Piece → Nat → Prop
  | blank {c cs} (h : c ∈ [' ', '\t', '\x0c', '\r']) : Front c cs .skipped 0
  | lineFeed {cs} : Front '\n' cs .lineFeed 0
  | comment {cs} : Front '#' cs .skipped (cs.takeWhile (· ≠ '\n')).length
  | join {cs} : Front '\\' ('\n' :: cs) .skipped 1
  | joinReturn {cs} : Front '\\' ('\r' :: '\n' :: cs) .skipped 2
  | literal {c cs n} (hquote : isQuote c = true) (h : literalTail? c cs = some n) :
      Front c cs (.token .str) n
  | number {c cs} (h : (c.isDigit || c = '.' && cs.head?.any Char.isDigit) = true) :
      Front c cs (.token .number) (numberTail (startsRadix c cs) c cs)
  | name {c cs} (hc : startsName c = true) :
      Front c cs (.token .name) (cs.takeWhile continuesName).length
  | prefixed {c q cs after n} (hc : startsName c = true) (hquote : isQuote q = true)
      (hafter : cs.drop (cs.takeWhile continuesName).length = q :: after)
      (h : literalTail? q after = some n) :
      Front c cs (.token .str) ((cs.takeWhile continuesName).length + 1 + n)
  | operator {c cs n} (h : operatorLength? c cs = some (n + 1)) : Front c cs (.token .op) n

theorem front_cases {c : Char} {cs : List Char} {p : Piece} {n : Nat}
    (h : front c cs = .ok (p, n)) : Front c cs p n := by
  unfold front at h
  dsimp only at h
  split at h
  case isTrue hblank =>
    cases h
    exact .blank (by simpa [or_assoc] using hblank)
  split at h
  case isTrue hfeed =>
    cases h
    exact hfeed ▸ .lineFeed
  split at h
  case isTrue hcomment =>
    cases h
    exact hcomment ▸ .comment
  split at h
  case isTrue hjoin =>
    subst hjoin
    split at h
    case isTrue hfeed =>
      cases h
      obtain ⟨rest, rfl⟩ := List.isPrefixOf_iff_prefix.mp hfeed
      exact .join
    split at h
    case isTrue hreturn =>
      cases h
      obtain ⟨rest, rfl⟩ := List.isPrefixOf_iff_prefix.mp hreturn
      exact .joinReturn
    case isFalse => cases h
  split at h
  case isTrue hquote =>
    split at h
    case h_1 m hm =>
      cases h
      exact .literal hquote hm
    case h_2 => cases h
  split at h
  case isTrue hnumber =>
    cases h
    exact .number hnumber
  split at h
  case isTrue hword =>
    split at h
    case h_1 q after hdrop =>
      split at h
      case isTrue hprefix =>
        split at h
        case h_1 m hm =>
          cases h
          exact .prefixed hword (Bool.and_eq_true_iff.mp hprefix).2 hdrop hm
        case h_2 => cases h
      case isFalse =>
        cases h
        exact .name hword
    case h_2 =>
      cases h
      exact .name hword
  case isFalse =>
    split at h
    case h_1 m hm =>
      cases h
      exact .operator (by rw [hm, Nat.sub_add_cancel (operatorLength?_pos hm)])
    case h_2 => cases h

theorem length_le_of_front {c : Char} {cs : List Char} {p : Piece} {n : Nat}
    (h : front c cs = .ok (p, n)) : n ≤ cs.length := by
  have htail := (List.takeWhile_prefix (l := cs) continuesName).length_le
  cases front_cases h with
  | blank | lineFeed => exact Nat.zero_le _
  | comment => exact (List.takeWhile_prefix _).length_le
  | join | joinReturn => simp
  | literal _ htail => exact literalTail?_length_le htail
  | number => exact numberTail_length_le _ _ _
  | name => exact htail
  | prefixed _ _ hafter hliteral =>
    have hlength := congrArg List.length hafter
    have := literalTail?_length_le hliteral
    simp only [List.length_drop, List.length_cons] at hlength
    omega
  | operator hlength =>
    have := operatorLength?_le hlength
    omega

theorem eq_lineFeed_of_front {c : Char} {cs : List Char} {n : Nat}
    (h : front c cs = .ok (.lineFeed, n)) : c = '\n' ∧ n = 0 := by
  cases front_cases h
  exact ⟨rfl, rfl⟩

theorem operatorLength?_of_front {c : Char} {cs : List Char} {n : Nat}
    (h : front c cs = .ok (.token .op, n)) : operatorLength? c cs = some (n + 1) := by
  cases front_cases h
  assumption

theorem isLexical_of_front {c : Char} {cs : List Char} {kind : TokenKind} {n : Nat}
    (h : front c cs = .ok (.token kind, n)) : kind.isLexical = true := by
  cases front_cases h <;> rfl

/-! ## The place where a text is replaced -/

/-- Whether a piece that ends just before a word is not changed by it. -/
def Piece.endsBefore (x : Char) : Piece → Bool
  | .token .name | .token .number => false
  | .token .str => !isQuote x
  | _ => true

/-- Whether a piece that ended just before `rest` is not changed by `rest'` in its place. -/
def Piece.EndsBefore (rest rest' : List Char) : Piece → Prop
  | .skipped => ∃ x ∈ rest.head?, x ≠ '\n'
  | .token .name => ∀ y ∈ rest'.head?, continuesName y = false ∧ isQuote y = false
  | .token .number => ∀ y ∈ rest'.head?, continuesNumber y = false ∧ y ≠ '+' ∧ y ≠ '-'
  | .token .str => ∀ y ∈ rest'.head?, isQuote y = false
  | _ => True

theorem Piece.EndsBefore.of_endsBefore {p : Piece} {x y : Char} (rest rest' : List Char)
    (hx : x ≠ '\n') (hy : p.endsBefore y = true) : p.EndsBefore (x :: rest) (y :: rest') := by
  cases p with
  | skipped => exact ⟨x, rfl, hx⟩
  | lineFeed => trivial
  | token kind =>
    cases kind with
    | str => simpa [EndsBefore, endsBefore] using hy
    | name | number => cases hy
    | _ => trivial

theorem front_comment_append {w mid rest : List Char} (rest' : List Char)
    (hrest : mid = [] → ∃ x ∈ rest.head?, x ≠ '\n')
    (h : ((w ++ (mid ++ rest)).takeWhile (· ≠ '\n')).length = w.length) :
    ((w ++ (mid ++ rest')).takeWhile (· ≠ '\n')).length = w.length := by
  rw [length_takeWhile_append] at h ⊢
  refine ⟨h.1, ?_⟩
  cases mid with
  | nil =>
    obtain ⟨x, hx, hne⟩ := hrest rfl
    exact absurd (by simpa using h.2 x hx) hne
  | cons m mid => exact h.2

/-- How a number that does not end at the place goes on after it. -/
theorem numberTail_append_cons {hasRadix : Bool} {last m : Char} {w mid rest rest' : List Char}
    (hrest' : Detached rest')
    (h : numberTail hasRadix last (w ++ (m :: mid ++ rest)) = w.length) :
    numberTail hasRadix last (w ++ (m :: mid ++ rest')) = w.length := by
  refine numberTail_append h ?_
  have hstop := numberTail_getLastD h
  rw [List.cons_append, numberTail_cons] at hstop ⊢
  split at hstop
  case isTrue => cases hstop
  case isFalse hjoins =>
    rw [if_neg]
    intro hjoins'
    simp only [joinsNumber, Bool.or_eq_true, Bool.and_eq_true] at hjoins hjoins'
    refine hjoins (hjoins'.imp_right fun hsign => ⟨hsign.1, ?_⟩)
    cases mid with
    | nil =>
      obtain ⟨y, hy, hdigit⟩ := (Option.any_eq_true _ _).mp hsign.2
      cases (hrest' y hy).1.symm.trans hdigit
    | cons => exact hsign.2

theorem numberTail_eq_zero {hasRadix : Bool} {last : Char} {rest : List Char}
    (h : ∀ y ∈ rest.head?, continuesNumber y = false ∧ y ≠ '+' ∧ y ≠ '-') :
    numberTail hasRadix last rest = 0 := by
  cases rest with
  | nil => rfl
  | cons y rest =>
    obtain ⟨hy, hplus, hminus⟩ := h y rfl
    rw [numberTail_cons, joinsNumber, if_neg (by simp [hy, hplus, hminus])]

/-- A number that ends at the place, or before it. -/
theorem front_number_append {c : Char} {w mid rest rest' : List Char} (hrest' : Detached rest')
    (hseam : mid = [] → (Piece.token .number).EndsBefore rest rest')
    (hnumber : (c.isDigit || c = '.' && (w ++ (mid ++ rest)).head?.any Char.isDigit) = true)
    (h : numberTail (startsRadix c (w ++ (mid ++ rest))) c (w ++ (mid ++ rest)) = w.length) :
    (c.isDigit || c = '.' && (w ++ (mid ++ rest')).head?.any Char.isDigit) = true ∧
      numberTail (startsRadix c (w ++ (mid ++ rest'))) c (w ++ (mid ++ rest')) = w.length := by
  have hpoint := fun hdigit => head?_append_of_numberTail h (mid ++ rest') hdigit
  refine ⟨?_, ?_⟩
  · simp only [Bool.or_eq_true, Bool.and_eq_true] at hnumber ⊢
    exact hnumber.imp_right fun hdot => ⟨hdot.1, hpoint hdot.2⟩
  · cases mid with
    | nil =>
      cases w with
      | nil => exact numberTail_eq_zero (hseam rfl)
      | cons d w => exact numberTail_append h (numberTail_eq_zero (hseam rfl))
    | cons m mid =>
      have hhead : (w ++ (m :: mid ++ rest')).head? = (w ++ (m :: mid ++ rest)).head? := by
        cases w <;> rfl
      rw [startsRadix, hhead]
      exact numberTail_append_cons hrest' h

theorem front_join_append {rest w : List Char} {p : Piece} (rest' : List Char)
    (h : (if ['\n'].isPrefixOf (w ++ rest) then .ok (.skipped, 1)
      else if ['\r', '\n'].isPrefixOf (w ++ rest) then .ok (.skipped, 2)
      else .error .strayBackslash : Except SyntaxFault (Piece × Nat)) = .ok (p, w.length)) :
    (if ['\n'].isPrefixOf (w ++ rest') then .ok (.skipped, 1)
      else if ['\r', '\n'].isPrefixOf (w ++ rest') then .ok (.skipped, 2)
      else .error .strayBackslash : Except SyntaxFault (Piece × Nat)) = .ok (p, w.length) := by
  have hcases : (['\n'].isPrefixOf (w ++ rest) = true ∧ w.length = 1) ∨
      (['\n'].isPrefixOf (w ++ rest) = false ∧ ['\r', '\n'].isPrefixOf (w ++ rest) = true ∧
        w.length = 2) := by
    split at h
    case isTrue hfeed =>
      simp only [Except.ok.injEq, Prod.mk.injEq] at h
      exact .inl ⟨hfeed, h.2.symm⟩
    split at h
    case isTrue hfeed hreturn =>
      simp only [Except.ok.injEq, Prod.mk.injEq] at h
      exact .inr ⟨(Bool.not_eq_true _).mp hfeed, hreturn, h.2.symm⟩
    case isFalse => cases h
  rcases hcases with ⟨hfeed, hlength⟩ | ⟨hfeed, hreturn, hlength⟩
  · rw [if_pos hfeed] at h
    rw [isPrefixOf_append_of_length_le _ (by simp [hlength])] at hfeed ⊢
    rw [if_pos hfeed, h]
  · rw [hfeed, hreturn] at h
    rw [isPrefixOf_append_of_length_le _ (by simp [hlength])] at hfeed hreturn ⊢
    rw [isPrefixOf_append_of_length_le _ (by simp [hlength]), hfeed, hreturn]
    exact h

theorem literalTail?_append_of_head {quote : Char} {w mid rest rest' : List Char}
    (hquote : isQuote quote = true) (hseam : mid = [] → ∀ y ∈ rest'.head?, isQuote y = false)
    (h : literalTail? quote (w ++ (mid ++ rest)) = some w.length) :
    literalTail? quote (w ++ (mid ++ rest')) = some w.length := by
  refine literalTail?_append (fun _ hhead => ?_) h
  cases mid with
  | nil => cases (hseam rfl quote hhead).symm.trans hquote
  | cons => exact hhead

/-! ## Words -/

theorem front_word {c : Char} {w rest : List Char} (hc : startsName c = true)
    (hw : ∀ d ∈ w, continuesName d = true) (hrest : ∀ d ∈ rest.head?, continuesName d = false) :
    front c (w ++ rest) = wordPiece c w rest := by
  have hne : ∀ d : Char, startsName d = false → c ≠ d := by
    rintro d hd rfl
    rw [hc] at hd
    cases hd
  have hdigit : c.isDigit = false := isDigit_of_beginsWord (by rw [beginsWord, hc, Bool.true_or])
  have hquote : isQuote c = false := isQuote_of_startsName hc
  have htail : (w ++ rest).takeWhile continuesName = w :=
    takeWhile_append_eq (length_takeWhile_append.mpr ⟨hw, hrest⟩)
  unfold front
  simp only [hne ' ' (by decide), hne '\t' (by decide), hne '\x0c' (by decide),
    hne '\r' (by decide), hne '\n' (by decide), hne '#' (by decide), hne '\\' (by decide),
    hne '.' (by decide), decide_false, Bool.or_self, Bool.false_and, Bool.false_eq_true,
    if_false, hquote, hdigit, hc, if_true, htail, List.drop_left]
  rfl

theorem wordPiece_append {c : Char} {tail after w mid rest rest' : List Char} {p : Piece}
    (hseam : mid = [] → p.EndsBefore rest rest')
    (hc : startsName c = true) (htail : ∀ d ∈ tail, continuesName d = true)
    (hafter : ∀ d ∈ after.head?, continuesName d = false)
    (hsplit : w ++ (mid ++ rest) = tail ++ after)
    (h : wordPiece c tail after = .ok (p, w.length)) :
    front c (w ++ (mid ++ rest')) = .ok (p, w.length) := by
  have hname : p = .token .name → tail.length = w.length →
      front c (w ++ (mid ++ rest')) = .ok (p, w.length) := by
    rintro rfl hlength
    obtain ⟨rfl, rfl⟩ := List.append_inj hsplit hlength.symm
    cases mid with
    | nil =>
      rw [List.nil_append, front_word hc htail fun d hd => (hseam rfl d hd).1]
      cases rest' with
      | nil => rfl
      | cons y rest' => simp [wordPiece, (hseam rfl y rfl).2]
    | cons m mid =>
      rw [front_word hc htail (by simpa using hafter)]
      simp only [List.cons_append, wordPiece] at h ⊢
      split at h
      case isTrue =>
        split at h
        · simp at h
        · cases h
      case isFalse hplain => rw [if_neg hplain]
  cases after with
  | nil =>
    simp only [wordPiece, Except.ok.injEq, Prod.mk.injEq] at h
    exact hname h.1.symm h.2
  | cons q after =>
    simp only [wordPiece] at h
    split at h
    case isFalse =>
      simp only [Except.ok.injEq, Prod.mk.injEq] at h
      exact hname h.1.symm h.2
    case isTrue hprefix =>
      split at h
      case h_2 => cases h
      case h_1 n hn =>
        simp only [Except.ok.injEq, Prod.mk.injEq] at h
        obtain ⟨rfl, hlength⟩ := h
        have hquote : isQuote q = true := (Bool.and_eq_true _ _ ▸ hprefix).2
        have htext : tail ++ [q] <+: w ++ (mid ++ rest) := ⟨after, by simp [hsplit]⟩
        obtain ⟨body, rfl⟩ := List.prefix_of_prefix_length_le htext (List.prefix_append w _)
          (by simp only [List.length_append, List.length_singleton]; omega)
        obtain rfl : after = body ++ (mid ++ rest) := by simpa using hsplit.symm
        obtain rfl : n = body.length := by simp at hlength; omega
        have hbody := literalTail?_append_of_head hquote hseam hn
        have hshape : tail ++ [q] ++ body ++ (mid ++ rest') =
            tail ++ q :: (body ++ (mid ++ rest')) := by simp
        rw [hshape, front_word hc htail (by simpa using continuesName_of_isQuote hquote)]
        simp only [wordPiece, hprefix, if_true, hbody, hlength]

/-- From some place on a text may be replaced by one that goes on no operator and no exponent: a
    piece that ended before the place stays the same, and one that ended there if the new text does
    not go on it. -/
theorem front_replace {c : Char} {w mid rest rest' : List Char} {p : Piece}
    (hrest' : Detached rest') (hseam : mid = [] → p.EndsBefore rest rest')
    (h : front c (w ++ (mid ++ rest)) = .ok (p, w.length)) :
    front c (w ++ (mid ++ rest')) = .ok (p, w.length) := by
  by_cases hword : startsName c = true
  · have hsplit := (List.takeWhile_append_dropWhile (p := continuesName)
      (l := w ++ (mid ++ rest))).symm
    have htail : ∀ d ∈ (w ++ (mid ++ rest)).takeWhile continuesName, continuesName d = true :=
      fun d hd => List.mem_takeWhile_imp hd
    have hafter : ∀ d ∈ ((w ++ (mid ++ rest)).dropWhile continuesName).head?,
        continuesName d = false := by
      intro d hd
      have := List.head?_dropWhile_not continuesName (w ++ (mid ++ rest))
      simpa [Option.mem_def.mp hd] using this
    rw [hsplit, front_word hword htail hafter] at h
    exact wordPiece_append hseam hword htail hafter hsplit h
  unfold front at h ⊢
  dsimp only at h ⊢
  by_cases hblank : (c = ' ' || c = '\t' || c = '\x0c' || c = '\r') = true
  · rwa [if_pos hblank] at h ⊢
  rw [if_neg hblank] at h ⊢
  by_cases hfeed : c = '\n'
  · rwa [if_pos hfeed] at h ⊢
  rw [if_neg hfeed] at h ⊢
  by_cases hcomment : c = '#'
  · rw [if_pos hcomment] at h ⊢
    simp only [Except.ok.injEq, Prod.mk.injEq] at h ⊢
    obtain ⟨rfl, hlength⟩ := h
    exact ⟨rfl, front_comment_append rest' hseam hlength⟩
  rw [if_neg hcomment] at h ⊢
  by_cases hjoin : c = '\\'
  · rw [if_pos hjoin] at h ⊢
    exact front_join_append _ h
  rw [if_neg hjoin] at h ⊢
  by_cases hquote : isQuote c = true
  · rw [if_pos hquote] at h ⊢
    split at h
    case h_2 => cases h
    case h_1 n hn =>
      simp only [Except.ok.injEq, Prod.mk.injEq] at h
      obtain ⟨rfl, rfl⟩ := h
      rw [literalTail?_append_of_head hquote hseam hn]
  rw [if_neg hquote] at h ⊢
  by_cases hnumber : (c.isDigit || c = '.' && (w ++ (mid ++ rest)).head?.any Char.isDigit) = true
  · rw [if_pos hnumber] at h
    simp only [Except.ok.injEq, Prod.mk.injEq] at h
    obtain ⟨rfl, hlength⟩ := h
    obtain ⟨hstarts, htail⟩ := front_number_append hrest' hseam hnumber hlength
    rw [if_pos hstarts, htail]
  have hpoint :
      ¬(c.isDigit || c = '.' && (w ++ (mid ++ rest')).head?.any Char.isDigit) = true := by
    simp only [Bool.or_eq_true, Bool.and_eq_true, not_or, not_and] at hnumber ⊢
    refine ⟨hnumber.1, fun hc hdigit => ?_⟩
    have hsame : (w ++ mid) ≠ [] → (w ++ (mid ++ rest')).head? = (w ++ (mid ++ rest)).head? := by
      intro hne
      rw [← List.append_assoc, ← List.append_assoc, List.head?_append_of_ne_nil _ hne,
        List.head?_append_of_ne_nil _ hne]
    by_cases hnil : w ++ mid = []
    · obtain ⟨rfl, rfl⟩ := List.append_eq_nil_iff.mp hnil
      obtain ⟨y, hy, hdigit⟩ := (Option.any_eq_true _ _).mp hdigit
      cases (hrest' y hy).1.symm.trans hdigit
    · exact hnumber.2 hc (hsame hnil ▸ hdigit)
  rw [if_neg hpoint, if_neg hword]
  rw [if_neg hnumber, if_neg hword] at h
  split at h
  case h_2 => cases h
  case h_1 n hn =>
    have := operatorLength?_pos hn
    simp only [Except.ok.injEq, Prod.mk.injEq] at h
    obtain ⟨rfl, hlength⟩ := h
    obtain rfl : n = w.length + 1 := by omega
    rw [operatorLength?_append hrest' hn]
    rfl

/-- From some place on a text may be replaced by one that begins with a word or a blank, unless a
    line feed right there ended the piece. -/
theorem front_append {c x y : Char} {w mid rest : List Char} {p : Piece} (rest' : List Char)
    (hx : mid = [] → x ≠ '\n') (hy : breaks y = true) (hseam : mid = [] → p.endsBefore y = true)
    (h : front c (w ++ (mid ++ x :: rest)) = .ok (p, w.length)) :
    front c (w ++ (mid ++ y :: rest')) = .ok (p, w.length) :=
  front_replace (detached_cons_of_breaks rest' hy)
    (fun hnil => .of_endsBefore rest rest' (hx hnil) (hseam hnil)) h

end WorkflowAudit.Script.Lexer
