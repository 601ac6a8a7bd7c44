import WorkflowAudit.Proofs.Script.LineFeed
import WorkflowAudit.Script.StringLiteral

/-!
# Carriage returns before line feeds

What stands at the front of a text once a carriage return stands before every line feed: the same
piece, with the carriage returns in it. Only a literal between single quotes that goes over a line
feed is lost. There a backslash takes the next character with it, which is now the carriage
return, and the literal ends nowhere on its line.
-/

namespace WorkflowAudit.Script.Lexer

open Text

/-- The same text with a carriage return before every line feed. -/
def withReturns : List Char → List Char
  | [] => []
  | c :: cs => if c = '\n' then '\r' :: '\n' :: withReturns cs else c :: withReturns cs

@[simp]
theorem withReturns_nil : withReturns [] = [] := rfl

@[simp]
theorem withReturns_lineFeed (cs : List Char) :
    withReturns ('\n' :: cs) = '\r' :: '\n' :: withReturns cs := rfl

theorem withReturns_cons {c : Char} (cs : List Char) (hc : c ≠ '\n') :
    withReturns (c :: cs) = c :: withReturns cs := if_neg hc

@[simp]
theorem withReturns_append (cs ds : List Char) :
    withReturns (cs ++ ds) = withReturns cs ++ withReturns ds := by
  induction cs with
  | nil => rfl
  | cons c cs ih =>
    rw [List.cons_append, withReturns, withReturns, ih]
    split <;> rfl

theorem withReturns_eq_self {cs : List Char} (h : '\n' ∉ cs) : withReturns cs = cs := by
  induction cs with
  | nil => rfl
  | cons c cs ih =>
    obtain ⟨hc, hcs⟩ := List.ne_and_not_mem_of_not_mem_cons h
    rw [withReturns_cons cs (Ne.symm hc), ih hcs]

theorem withReturns_head? {cs : List Char} {c : Char} (h : (withReturns cs).head? = some c)
    (hc : c ≠ '\r') : cs.head? = some c := by
  cases cs with
  | nil => cases h
  | cons d cs =>
    rw [withReturns] at h
    split at h
    case isTrue => exact absurd (Option.some.inj h).symm hc
    case isFalse => exact h

/-- What is in a class that neither line feeds nor carriage returns are in begins both texts. -/
theorem takeWhile_withReturns {p : Char → Bool} (cs : List Char) (hfeed : p '\n' = false)
    (hreturn : p '\r' = false) :
    (withReturns cs).takeWhile p = cs.takeWhile p ∧
      (withReturns cs).dropWhile p = withReturns (cs.dropWhile p) := by
  induction cs with
  | nil => exact ⟨rfl, rfl⟩
  | cons c cs ih =>
    by_cases hc : c = '\n'
    · subst hc
      simp [hfeed, hreturn]
    · rw [withReturns_cons cs hc, List.takeWhile_cons, List.takeWhile_cons, List.dropWhile_cons,
        List.dropWhile_cons, ih.1, ih.2]
      split
      · exact ⟨rfl, rfl⟩
      · exact ⟨rfl, (withReturns_cons cs hc).symm⟩

/-- Words without line feeds and carriage returns begin both texts or none. -/
theorem isPrefixOf_withReturns {word : List Char} (cs : List Char) (hfeed : '\n' ∉ word)
    (hreturn : '\r' ∉ word) : word.isPrefixOf (withReturns cs) = word.isPrefixOf cs := by
  induction word generalizing cs with
  | nil => rfl
  | cons d word ih =>
    obtain ⟨hd, hword⟩ := List.ne_and_not_mem_of_not_mem_cons hfeed
    obtain ⟨hd', hword'⟩ := List.ne_and_not_mem_of_not_mem_cons hreturn
    cases cs with
    | nil => rfl
    | cons c cs =>
      by_cases hc : c = '\n'
      · subst hc
        rw [withReturns_lineFeed, List.isPrefixOf, List.isPrefixOf, beq_eq_false_iff_ne.mpr hd.symm,
          beq_eq_false_iff_ne.mpr hd'.symm, Bool.false_and, Bool.false_and]
      · rw [withReturns_cons cs hc, List.isPrefixOf, List.isPrefixOf, ih cs hword hword']

/-! ## Literals -/

/-- Between single quotes no literal goes over a line feed any more. -/
theorem shortLiteralTail?_withReturns {quote : Char} (hquote : isQuote quote = true)
    (cs : List Char) :
    shortLiteralTail? quote (withReturns cs) =
      (shortLiteralTail? quote cs).filter fun n => !(cs.take n).contains '\n' := by
  have hfeed : '\n' ≠ quote := ne_of_isQuote hquote rfl
  have hreturn : '\r' ≠ quote := ne_of_isQuote hquote rfl
  have hstops : ∀ rest, shortLiteralTail? quote ('\n' :: rest) = none := fun rest => by
    rw [shortLiteralTail?_cons quote rest (by decide), if_neg hfeed, if_pos rfl]
  induction cs using escaped_induction with
  | nil => rfl
  | lone => rfl
  | escape c cs ih =>
    rw [withReturns_cons _ (by decide), shortLiteralTail?, Option.filter_map]
    by_cases hc : c = '\n'
    · -- the carriage return is taken instead, and the line feed ends the search
      subst hc
      rw [withReturns_lineFeed, shortLiteralTail?, hstops]
      simp [Function.comp_def]
    · rw [withReturns_cons cs hc, shortLiteralTail?, ih]
      simp [Function.comp_def, Ne.symm hc]
  | plain c cs hc ih =>
    by_cases hc' : c = '\n'
    · subst hc'
      rw [hstops, withReturns_lineFeed, shortLiteralTail?_cons quote _ (by decide), if_neg hreturn,
        if_neg (by decide), hstops]
      rfl
    · rw [withReturns_cons cs hc', shortLiteralTail?_cons quote _ hc,
        shortLiteralTail?_cons quote _ hc, if_neg hc', if_neg hc', ih]
      split
      · simp [Option.filter, Ne.symm hc']
      · simp [Option.filter_map, Function.comp_def, Ne.symm hc']

/-- Between three quotes a literal takes the carriage returns in. -/
theorem longLiteralTail?_withReturns {quote : Char} (hquote : isQuote quote = true)
    (cs : List Char) :
    longLiteralTail? quote (withReturns cs) =
      (longLiteralTail? quote cs).map fun n => (withReturns (cs.take n)).length := by
  have hfeed : '\n' ≠ quote := ne_of_isQuote hquote rfl
  have hreturn : '\r' ≠ quote := ne_of_isQuote hquote rfl
  have hskips : ∀ {c rest}, c ≠ '\\' → c ≠ quote →
      longLiteralTail? quote (c :: rest) = (longLiteralTail? quote rest).map (· + 1) :=
    fun hc hne => by rw [longLiteralTail?_cons quote _ hc]; simp [hne]
  induction cs using escaped_induction with
  | nil => rfl
  | lone => rfl
  | escape c cs ih =>
    rw [withReturns_cons _ (by decide), longLiteralTail?, Option.map_map]
    by_cases hc : c = '\n'
    · subst hc
      rw [withReturns_lineFeed, longLiteralTail?, hskips (by decide) hfeed, ih]
      simp [Function.comp_def, withReturns_cons]
    · rw [withReturns_cons cs hc, longLiteralTail?, ih]
      simp [Function.comp_def, withReturns_cons, hc]
  | plain c cs hc ih =>
    by_cases hc' : c = '\n'
    · subst hc'
      rw [withReturns_lineFeed, hskips (by decide) hreturn, hskips (by decide) hfeed,
        hskips (by decide) hfeed, ih]
      simp [Function.comp_def]
    · rw [withReturns_cons cs hc', longLiteralTail?_cons quote _ hc,
        longLiteralTail?_cons quote _ hc, ih,
        isPrefixOf_withReturns cs (by simp [hfeed]) (by simp [hreturn])]
      split
      case isTrue hclose =>
        rw [Bool.and_eq_true, List.isPrefixOf_iff_prefix] at hclose
        obtain ⟨-, rest, rfl⟩ := hclose
        simp [withReturns_cons, hc', Ne.symm hfeed]
      case isFalse => simp [Function.comp_def, withReturns_cons, hc']

/-- Whether a literal between single quotes goes over a line feed. -/
def spansLines (lexeme : List Char) : Bool :=
  StringPiece.quoteWidth (lexeme.dropWhile (!isQuote ·)) = 1 && lexeme.contains '\n'

theorem quoteWidth_of_literalTail? {quote : Char} {cs : List Char} {n : Nat}
    (h : literalTail? quote cs = some n) :
    StringPiece.quoteWidth (quote :: cs.take n) =
      if [quote, quote].isPrefixOf cs then 3 else 1 := by
  unfold literalTail? at h
  split at h
  case isTrue hlong =>
    obtain ⟨rest, rfl⟩ := List.isPrefixOf_iff_prefix.mp hlong
    obtain ⟨m, hm, rfl⟩ := Option.map_eq_some_iff.mp h
    obtain ⟨hthree, hm⟩ := longLiteralTail?_bounds hm
    simp only [List.cons_append, List.nil_append, List.drop_succ_cons, List.drop_zero] at hm
    have hbytes : 3 ≤ byteLength (rest.take m) := by
      have := length_le_byteLength (rest.take m)
      rw [List.length_take_of_le hm] at this
      exact hthree.trans this
    simp [StringPiece.quoteWidth, hbytes]
  case isFalse hshort =>
    rw [if_neg hshort]
    unfold StringPiece.quoteWidth
    split
    case h_2 => rfl
    case h_1 a b rest hcons =>
      rw [if_neg]
      intro hthree
      simp only [Bool.and_eq_true, decide_eq_true_eq] at hthree
      obtain ⟨rfl, hrest⟩ := List.cons.inj hcons
      obtain ⟨⟨rfl, rfl⟩, -⟩ := hthree
      exact hshort (List.isPrefixOf_iff_prefix.mpr
        (List.IsPrefix.trans ⟨rest, hrest.symm⟩ (List.take_prefix n cs)))

theorem literalTail?_withReturns {quote : Char} (hquote : isQuote quote = true)
    (cs : List Char) :
    literalTail? quote (withReturns cs) =
      ((literalTail? quote cs).filter fun n => !spansLines (quote :: cs.take n)).map fun n =>
        (withReturns (cs.take n)).length := by
  have hfeed : '\n' ≠ quote := ne_of_isQuote hquote rfl
  have hreturn : '\r' ≠ quote := ne_of_isQuote hquote rfl
  have hspans : ∀ n, literalTail? quote cs = some n → spansLines (quote :: cs.take n) =
      (!([quote, quote].isPrefixOf cs) && (cs.take n).contains '\n') := fun n hn => by
    rw [spansLines, List.dropWhile_cons_of_neg (by simp [hquote]), quoteWidth_of_literalTail? hn]
    cases [quote, quote].isPrefixOf cs <;> simp [hfeed]
  have hopens : [quote, quote].isPrefixOf (withReturns cs) = [quote, quote].isPrefixOf cs :=
    isPrefixOf_withReturns cs (by simp [hfeed]) (by simp [hreturn])
  by_cases hlong : [quote, quote].isPrefixOf cs = true
  · have hnever : (literalTail? quote cs).filter (fun n => !spansLines (quote :: cs.take n)) =
        literalTail? quote cs := by
      cases hn : literalTail? quote cs with
      | none => rfl
      | some n => exact Option.filter_some_pos (by rw [hspans n hn, hlong]; rfl)
    rw [hnever]
    unfold literalTail?
    rw [hopens, if_pos hlong, if_pos hlong]
    obtain ⟨rest, rfl⟩ := List.isPrefixOf_iff_prefix.mp hlong
    have hrest := longLiteralTail?_withReturns hquote rest
    simp [withReturns_cons, Ne.symm hfeed, hrest, Function.comp_def]
  · have hshort : literalTail? quote cs = shortLiteralTail? quote cs := if_neg hlong
    have hshort' : literalTail? quote (withReturns cs) = shortLiteralTail? quote (withReturns cs) :=
      if_neg (by rwa [hopens])
    rw [hshort', shortLiteralTail?_withReturns hquote, ← hshort]
    cases hn : literalTail? quote cs with
    | none => rfl
    | some n =>
      rw [Option.filter_some, Option.filter_some, hspans n hn, Bool.eq_false_iff.mpr hlong,
        Bool.not_false, Bool.true_and]
      by_cases hmem : (cs.take n).contains '\n' = true
      · rw [hmem]
        rfl
      · have hplain : withReturns (cs.take n) = cs.take n :=
          withReturns_eq_self (by simpa using hmem)
        rw [Bool.eq_false_iff.mpr hmem]
        simp [hplain, List.length_take_of_le (literalTail?_length_le hn)]

/-! ## Numbers, operators and words -/

theorem any_head?_withReturns {p : Char → Bool} (cs : List Char) (hfeed : p '\n' = false)
    (hreturn : p '\r' = false) : (withReturns cs).head?.any p = cs.head?.any p := by
  cases cs with
  | nil => rfl
  | cons c cs =>
    rw [withReturns]
    split
    case isTrue hc => simp [hc, hfeed, hreturn]
    case isFalse => rfl

theorem startsRadix_withReturns (c : Char) (cs : List Char) :
    startsRadix c (withReturns cs) = startsRadix c cs := by
  rw [startsRadix, startsRadix, any_head?_withReturns cs (by decide) (by decide)]

theorem numberTail_withReturns (hasRadix : Bool) (last : Char) (cs : List Char) :
    numberTail hasRadix last (withReturns cs) = numberTail hasRadix last cs := by
  induction cs generalizing last with
  | nil => rfl
  | cons c cs ih =>
    by_cases hc : c = '\n'
    · subst hc
      rfl
    · rw [withReturns_cons cs hc, numberTail_cons, numberTail_cons, ih, joinsNumber, joinsNumber,
        any_head?_withReturns cs (by decide) (by decide)]

theorem operatorLength?_withReturns {c : Char} (cs : List Char) (hc : c ≠ '\n') :
    operatorLength? c (withReturns cs) = operatorLength? c cs := by
  have hany : ∀ ops : List (List Char), (∀ op ∈ ops, '\n' ∉ op ∧ '\r' ∉ op) →
      (ops.any fun op => op.isPrefixOf (c :: withReturns cs)) =
        ops.any fun op => op.isPrefixOf (c :: cs) := by
    intro ops hops
    rw [Bool.eq_iff_iff, List.any_eq_true, List.any_eq_true]
    refine exists_congr fun op => and_congr_right fun hop => ?_
    rw [← withReturns_cons cs hc, isPrefixOf_withReturns _ (hops op hop).1 (hops op hop).2]
  rw [operatorLength?, operatorLength?, hany _ (by decide), hany _ (by decide)]

/-- Literals behind a prefix. -/
theorem spansLines_append {pre lexeme : List Char} (h : ∀ d ∈ pre, isQuote d = false)
    (hfeed : '\n' ∉ pre) : spansLines (pre ++ lexeme) = spansLines lexeme := by
  have hdrop : (pre ++ lexeme).dropWhile (!isQuote ·) = lexeme.dropWhile (!isQuote ·) := by
    rw [List.dropWhile_append_of_pos fun d hd => by rw [h d hd]; rfl]
  have hcontains : (pre ++ lexeme).contains '\n' = lexeme.contains '\n' := by
    simp [hfeed]
  rw [spansLines, spansLines, hdrop, hcontains]

/-! ## The front of a text -/

/-- What is found at the front of a text once a carriage return stands before every line feed. -/
def returned (c : Char) (cs : List Char) (found : Piece × Nat) :
    Except SyntaxFault (Piece × Nat) :=
  if found.1 = .token .str ∧ spansLines (c :: cs.take found.2) = true then
    .error .unterminatedString
  else .ok (found.1, (withReturns (cs.take found.2)).length)

theorem returned_of_not_mem {c : Char} {cs : List Char} {p : Piece} {n : Nat} (hn : n ≤ cs.length)
    (h : '\n' ∉ cs.take n) (hp : p ≠ .token .str) : returned c cs (p, n) = .ok (p, n) := by
  rw [returned, if_neg fun hspans => hp hspans.1, withReturns_eq_self h, List.length_take_of_le hn]

/-- A name, or a literal behind a prefix. -/
theorem wordPiece_withReturns {c : Char} {w : List Char} (after : List Char)
    (hc : startsName c = true) (hw : ∀ d ∈ w, continuesName d = true) :
    wordPiece c w (withReturns after) = wordPiece c w after >>= returned c (w ++ after) := by
  have hfeed : '\n' ∉ c :: w := List.not_mem_cons_of_ne_of_not_mem (by rintro rfl; cases hc)
    fun hmem => by cases hw _ hmem
  have hquotes : ∀ d ∈ c :: w, isQuote d = false := fun d hd => by
    rcases List.mem_cons.mp hd with rfl | hd
    · exact isQuote_of_startsName hc
    · refine Bool.eq_false_iff.mpr fun h => ?_
      cases (hw d hd).symm.trans (continuesName_of_isQuote h)
  have hsame : withReturns w = w := withReturns_eq_self (List.not_mem_of_not_mem_cons hfeed)
  have hname : returned c (w ++ after) (.token .name, w.length) = .ok (.token .name, w.length) :=
    returned_of_not_mem (by simp) (by simpa using List.not_mem_of_not_mem_cons hfeed) nofun
  cases after with
  | nil => exact hname.symm
  | cons q after =>
    by_cases hq : q = '\n'
    · subst hq
      have hquote : isQuote '\n' = false ∧ isQuote '\r' = false := by decide
      simp only [withReturns_lineFeed, wordPiece, hquote, Bool.and_false, Bool.false_eq_true,
        if_false]
      exact hname.symm
    · rw [withReturns_cons after hq]
      simp only [wordPiece]
      split
      case isFalse => exact hname.symm
      case isTrue hprefix =>
        have hspans : ∀ n, spansLines (c :: (w ++ q :: after).take (w.length + 1 + n)) =
            spansLines (q :: after.take n) := fun n => by
          rw [Nat.add_assoc, List.take_length_add_append, Nat.add_comm 1 n, List.take_succ_cons,
            ← List.cons_append, spansLines_append hquotes hfeed]
        have hlength : ∀ n, (withReturns ((w ++ q :: after).take (w.length + 1 + n))).length =
            w.length + 1 + (withReturns (after.take n)).length := fun n => by
          rw [Nat.add_assoc, List.take_length_add_append, withReturns_append, hsame,
            Nat.add_comm 1 n, List.take_succ_cons, withReturns_cons _ hq, List.length_append,
            List.length_cons]
          omega
        rw [literalTail?_withReturns (Bool.and_eq_true_iff.mp hprefix).2]
        cases literalTail? q after with
        | none => rfl
        | some n =>
          simp only [Option.filter_some, bind, Except.bind, returned, hspans, hlength]
          cases spansLines (q :: after.take n) <;> simp

/-- What stands at the front is the same, but for a literal that goes over a line feed. -/
theorem front_withReturns {c : Char} {cs : List Char} (hfeed : c ≠ '\n') (hcomment : c ≠ '#')
    (hreturn : '\r' ∉ cs) : front c (withReturns cs) = front c cs >>= returned c cs := by
  by_cases hword : startsName c = true
  · have hw : ∀ d ∈ cs.takeWhile continuesName, continuesName d = true :=
      fun d hd => List.mem_takeWhile_imp hd
    obtain ⟨htake, hdrop⟩ := takeWhile_withReturns (p := continuesName) cs (by decide) (by decide)
    have hhead : ∀ ds : List Char, ∀ d ∈ (ds.dropWhile continuesName).head?,
        continuesName d = false := fun ds d hd => by
      have := List.head?_dropWhile_not continuesName ds
      rwa [Option.mem_def.mp hd] at this
    have hboth := wordPiece_withReturns (cs.dropWhile continuesName) hword hw
    rw [← front_word hword hw (hhead cs), ← hdrop, ← front_word hword hw (hhead _), ← htake,
      List.takeWhile_append_dropWhile, htake, List.takeWhile_append_dropWhile] at hboth
    exact hboth
  unfold front
  dsimp only
  split
  case isTrue => rfl
  split
  case isTrue hjoin =>
    cases cs with
    | nil => rfl
    | cons d cs =>
      by_cases hd : d = '\n'
      · subst hd
        rfl
      · have hd' : '\r' ≠ d := fun h => hreturn (h ▸ List.mem_cons_self)
        simp [withReturns_cons cs hd, List.isPrefixOf, Ne.symm hd, hd', bind, Except.bind]
  split
  case isTrue hquote =>
    rw [literalTail?_withReturns hquote]
    cases literalTail? c cs with
    | none => rfl
    | some n =>
      simp only [Option.filter_some, bind, Except.bind, returned]
      cases spansLines (c :: cs.take n) <;> simp
  rw [any_head?_withReturns cs (by decide) (by decide), startsRadix_withReturns,
    numberTail_withReturns, operatorLength?_withReturns cs hfeed]
  split
  case isTrue hnumber =>
    have hle := numberTail_length_le (startsRadix c cs) c cs
    have hplain : '\n' ∉ cs.take (numberTail (startsRadix c cs) c cs) :=
      not_mem_of_numberTail (by rw [List.take_append_drop, List.length_take_of_le hle])
    exact (returned_of_not_mem (c := c) hle hplain (by decide)).symm
  case isFalse =>
    cases hlength : operatorLength? c cs with
    | none => rfl
    | some n =>
      have hle : n - 1 ≤ cs.length := Nat.sub_le_of_le_add (operatorLength?_le hlength)
      have hplain : '\n' ∉ cs.take (n - 1) := not_mem_of_operatorLength? (by
        rw [List.take_append_drop, List.length_take_of_le hle,
          Nat.sub_add_cancel (operatorLength?_pos hlength), hlength])
      exact (returned_of_not_mem (c := c) hle hplain (by decide)).symm

end WorkflowAudit.Script.Lexer
