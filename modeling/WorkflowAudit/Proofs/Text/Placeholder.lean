import Mathlib.Data.List.Basic
import Mathlib.Data.List.Induction
import WorkflowAudit.Text.Placeholder

/-! # Texts around expressions

The pieces of a text, put together, are the text. A stretch of characters between expressions stands
in the text itself and in the text whose expressions are blanked.
-/

namespace WorkflowAudit.Text

theorem append_of_stripStart? {start cs rest : List Char}
    (found : stripStart? start cs = some rest) : cs = start ++ rest := by
  unfold stripStart? at found
  split at found
  · rename_i begins
    obtain ⟨tail, rfl⟩ := List.isPrefixOf_iff_prefix.mp begins
    simp only [List.drop_left, Option.some.injEq] at found
    rw [found]
  · cases found

theorem append_of_cutClosing? {cs body rest : List Char}
    (found : cutClosing? cs = some (body, rest)) : cs = body ++ expressionClosing ++ rest := by
  induction cs generalizing body with
  | nil => cases found
  | cons c cs ih =>
      unfold cutClosing? at found
      split at found
      · rename_i closed
        obtain ⟨rfl, rfl⟩ := Prod.mk.inj (Option.some.inj found)
        exact append_of_stripStart? closed
      · split at found
        · cases found
        · obtain ⟨⟨body', rest'⟩, inner, same⟩ := Option.map_eq_some_iff.mp found
          obtain ⟨rfl, rfl⟩ := Prod.mk.inj same
          rw [ih inner]
          rfl

namespace Piece

/-- The characters of a piece. -/
def chars : Piece → List Char
  | .plain c => [c]
  | .expression body => expressionOpening ++ body ++ expressionClosing

/-- What stands for a piece when expressions are blanked. -/
def blanked : Piece → Char
  | .plain c => c
  | .expression _ => ' '

theorem flatMap_chars_plain (cs : List Char) : (cs.map plain).flatMap chars = cs := by
  simp [List.flatMap_map, chars]

theorem map_blanked_plain (cs : List Char) : (cs.map plain).map blanked = cs := by
  simp [Function.comp_def, blanked]

end Piece

/-- The pieces of a text, put together, are the text. -/
theorem flatMap_chars_pieces (cs : List Char) : (pieces cs).flatMap Piece.chars = cs := by
  induction cs using pieces.induct with
  | case1 => rw [pieces]; rfl
  | case2 c cs body rest found ih =>
      have spelled : c :: cs = expressionOpening ++ (body ++ expressionClosing ++ rest) := by
        obtain ⟨after, opened, closed⟩ := Option.bind_eq_some_iff.mp found
        rw [append_of_stripStart? opened, append_of_cutClosing? closed]
      rw [pieces]
      split
      · rename_i body' rest' again
        obtain ⟨rfl, rfl⟩ := Prod.mk.inj (Option.some.inj (found.symm.trans again))
        rw [List.flatMap_cons, ih, spelled]
        simp [Piece.chars]
      · rename_i none
        cases found.symm.trans none
  | case3 c cs none ih =>
      rw [pieces]
      split
      · rename_i again
        cases none.symm.trans again
      · rw [List.flatMap_cons, ih]
        rfl

theorem toList_withoutExpressions (text : String) :
    (withoutExpressions text).toList = (pieces text.toList).map Piece.blanked := by
  simp only [withoutExpressions, String.toList_ofList]
  exact List.map_congr_left fun piece _ => by cases piece <;> rfl

/-- Characters that stand side by side in a text, outside its expressions. -/
def IsStretch (cs : List Char) (text : String) : Prop := cs.map Piece.plain <:+: pieces text.toList

namespace IsStretch

variable {cs : List Char} {text : String} (stretch : IsStretch cs text)

include stretch

theorem infix_text : cs <:+: text.toList := by
  obtain ⟨before, after, spelled⟩ := stretch
  have whole := flatMap_chars_pieces text.toList
  rw [← spelled, List.flatMap_append, List.flatMap_append, Piece.flatMap_chars_plain] at whole
  exact ⟨_, _, whole⟩

theorem infix_withoutExpressions : cs <:+: (withoutExpressions text).toList := by
  obtain ⟨before, after, spelled⟩ := stretch
  rw [toList_withoutExpressions, ← spelled, List.map_append, List.map_append,
    Piece.map_blanked_plain]
  exact ⟨_, _, rfl⟩

end IsStretch

theorem Piece.map_plain_flatMap_chars {ps : List Piece}
    (plain : ∀ piece ∈ ps, ∃ c, piece = .plain c) : (ps.flatMap chars).map .plain = ps := by
  induction ps with
  | nil => rfl
  | cons piece ps ih =>
      obtain ⟨⟨c, rfl⟩, others⟩ := List.forall_mem_cons.mp plain
      rw [List.flatMap_cons, List.map_append, ih others]
      rfl

/-! ## Maximal stretches -/

/-- The piece is an expression. -/
def Piece.IsExpression : Piece → Prop
  | .plain _ => False
  | .expression _ => True

theorem Piece.exists_eq_plain_of_not_isExpression {piece : Piece} (outside : ¬ piece.IsExpression) :
    ∃ c, piece = .plain c := by
  cases piece with
  | plain c => exact ⟨c, rfl⟩
  | expression body => exact absurd trivial outside

/-- A stretch that reaches as far as there is no expression, in both directions. -/
def IsMaximalStretch (cs : List Char) (text : String) : Prop :=
  ∃ before after, pieces text.toList = before ++ cs.map Piece.plain ++ after ∧
    (∀ piece ∈ before.getLast?, piece.IsExpression) ∧ ∀ piece ∈ after.head?, piece.IsExpression

theorem IsMaximalStretch.isStretch {cs : List Char} {text : String}
    (stretch : IsMaximalStretch cs text) : IsStretch cs text := by
  obtain ⟨before, after, spelled, -, -⟩ := stretch
  exact ⟨before, after, spelled.symm⟩

/-- The characters before the first expression. -/
theorem Piece.exists_plain_prefix (ps : List Piece) :
    ∃ (cs : List Char) (rest : List Piece),
      ps = cs.map plain ++ rest ∧ ∀ piece ∈ rest.head?, piece.IsExpression := by
  induction ps with
  | nil => exact ⟨[], [], rfl, by simp⟩
  | cons piece ps ih =>
      cases piece with
      | plain c =>
          obtain ⟨cs, rest, rfl, stops⟩ := ih
          exact ⟨c :: cs, rest, rfl, stops⟩
      | expression body => exact ⟨[], .expression body :: ps, rfl, by simp [IsExpression]⟩

/-- The characters after the last expression. -/
theorem Piece.exists_plain_suffix (ps : List Piece) :
    ∃ (rest : List Piece) (cs : List Char),
      ps = rest ++ cs.map plain ∧ ∀ piece ∈ rest.getLast?, piece.IsExpression := by
  induction ps using List.reverseRecOn with
  | nil => exact ⟨[], [], rfl, by simp⟩
  | append_singleton ps piece ih =>
      cases piece with
      | plain c =>
          obtain ⟨rest, cs, rfl, stops⟩ := ih
          exact ⟨rest, cs ++ [c], by simp, stops⟩
      | expression body => exact ⟨ps ++ [.expression body], [], by simp, by simp [IsExpression]⟩

/-- A stretch is part of a maximal one. -/
theorem IsStretch.exists_maximal {cs : List Char} {text : String} (stretch : IsStretch cs text) :
    ∃ whole, IsMaximalStretch whole text ∧ cs <:+: whole := by
  obtain ⟨before, after, spelled⟩ := stretch
  obtain ⟨start, left, rfl, begins⟩ := Piece.exists_plain_suffix before
  obtain ⟨right, stop, rfl, ends⟩ := Piece.exists_plain_prefix after
  refine ⟨left ++ cs ++ right, ⟨start, stop, ?_, begins, ends⟩, left, right, rfl⟩
  rw [← spelled]
  simp only [List.map_append, List.append_assoc]

/-- A text without expressions is one stretch. -/
theorem pieces_of_hasExpression_eq_false {text : String} (plain : hasExpression text = false) :
    pieces text.toList = text.toList.map .plain := by
  have only : ∀ piece ∈ pieces text.toList, ∃ c, piece = .plain c := by
    intro piece member
    cases piece with
    | plain c => exact ⟨c, rfl⟩
    | expression body =>
        have listed : body ∈ expressions text :=
          List.mem_filterMap.mpr ⟨.expression body, member, rfl⟩
        simp only [hasExpression, Bool.not_eq_eq_eq_not, Bool.not_false, List.isEmpty_iff] at plain
        rw [plain] at listed
        cases listed
  have same := Piece.map_plain_flatMap_chars only
  rw [flatMap_chars_pieces] at same
  exact same.symm

theorem withoutExpressions_of_hasExpression_eq_false {text : String}
    (plain : hasExpression text = false) : withoutExpressions text = text := by
  rw [← String.toList_inj, toList_withoutExpressions, pieces_of_hasExpression_eq_false plain,
    Piece.map_blanked_plain]

/-! ## What a scan finds -/

/-- No closing pair begins in a body that a closing pair follows. -/
def IsClosed (body : List Char) : Prop := ¬ expressionClosing <:+: body ++ ['\x7d']

/-- A body stands between an opening pair of a text and the next closing pair. -/
def Encloses (cs body : List Char) : Prop :=
  IsClosed body ∧
    ∃ before after, cs = before ++ (expressionOpening ++ (body ++ (expressionClosing ++ after)))

theorem stripStart?_append (start rest : List Char) :
    stripStart? start (start ++ rest) = some rest := by
  simp [stripStart?, List.isPrefixOf_iff_prefix]

theorem stripStart?_closing_eq_none_iff {c : Char} {cs : List Char} :
    stripStart? expressionClosing (c :: cs) = none ↔ ¬ expressionClosing <+: c :: cs := by
  simp [stripStart?, List.isPrefixOf_iff_prefix]

theorem IsClosed.tail {c : Char} {body : List Char} (closed : IsClosed (c :: body)) :
    IsClosed body := fun inside => closed (List.infix_cons_iff.mpr (.inr inside))

theorem isClosed_nil : IsClosed [] := by
  intro inside
  have := inside.length_le
  simp [expressionClosing] at this

/-- No pair begins with the first character of a closed body. -/
theorem IsClosed.not_prefix {c : Char} {body : List Char} (closed : IsClosed (c :: body))
    (after : List Char) : ¬ expressionClosing <+: c :: (body ++ (expressionClosing ++ after)) := by
  intro begins
  obtain ⟨rest, same⟩ := begins
  refine closed ?_
  cases body with
  | nil =>
      simp only [expressionClosing, List.cons_append, List.nil_append, List.cons.injEq] at same
      obtain ⟨rfl, -⟩ := same
      exact ⟨[], [], rfl⟩
  | cons d body =>
      simp only [expressionClosing, List.cons_append, List.nil_append, List.cons.injEq] at same
      obtain ⟨rfl, rfl, -⟩ := same
      exact ⟨[], body ++ ['\x7d'], rfl⟩

/-- The text before the next closing pair is found when it is on one line. -/
theorem cutClosing?_of_isClosed {body : List Char} (closed : IsClosed body) (line : '\n' ∉ body)
    (after : List Char) : cutClosing? (body ++ (expressionClosing ++ after)) = some (body, after) := by
  induction body with
  | nil =>
      change cutClosing? ('\x7d' :: '\x7d' :: after) = _
      rw [cutClosing?]
      split
      · rename_i rest found
        cases (stripStart?_append expressionClosing after).symm.trans found
        rfl
      · rename_i none
        cases (stripStart?_append expressionClosing after).symm.trans none
  | cons c body ih =>
      simp only [List.mem_cons, not_or] at line
      obtain ⟨other, line⟩ := line
      have none := stripStart?_closing_eq_none_iff.mpr (closed.not_prefix after)
      rw [List.cons_append, cutClosing?, none]
      simp only [if_neg (Ne.symm other), ih closed.tail line, Option.map_some]

/-- What is found before a closing pair is closed and on one line. -/
theorem isClosed_of_cutClosing? {cs body rest : List Char}
    (found : cutClosing? cs = some (body, rest)) : IsClosed body ∧ '\n' ∉ body := by
  induction cs generalizing body with
  | nil => cases found
  | cons c cs ih =>
      unfold cutClosing? at found
      split at found
      · obtain ⟨rfl, rfl⟩ := Prod.mk.inj (Option.some.inj found)
        exact ⟨isClosed_nil, List.not_mem_nil⟩
      · rename_i none
        split at found
        · cases found
        · rename_i other
          obtain ⟨⟨body', rest'⟩, inner, same⟩ := Option.map_eq_some_iff.mp found
          obtain ⟨rfl, rfl⟩ := Prod.mk.inj same
          obtain ⟨closed, line⟩ := ih inner
          refine ⟨fun inside => ?_, by simp [Ne.symm other, line]⟩
          rcases List.infix_cons_iff.mp inside with begins | inside
          · refine stripStart?_closing_eq_none_iff.mp none ?_
            rw [append_of_cutClosing? inner]
            obtain ⟨back, same⟩ := begins
            refine ⟨back ++ ['\x7d'] ++ rest', ?_⟩
            rw [List.append_assoc, ← List.append_assoc, same]
            simp [expressionClosing]
          · exact closed inside

/-- The search for a closing pair stops before an opening pair, or goes on to the pair that closes
    what follows it. -/
theorem cutClosing?_before_opening {before body after found rest : List Char}
    (closed : IsClosed body) (line : '\n' ∉ body)
    (cut : cutClosing? (before ++ (expressionOpening ++ (body ++ (expressionClosing ++ after)))) =
      some (found, rest)) :
    (∃ more, rest = more ++ (expressionOpening ++ (body ++ (expressionClosing ++ after)))) ∨
      found = before ++ (expressionOpening ++ body) := by
  induction before generalizing found with
  | nil =>
      right
      have opened : cutClosing? (expressionOpening ++ (body ++ (expressionClosing ++ after))) =
          some (expressionOpening ++ body, after) := by
        simp only [expressionOpening, List.cons_append, List.nil_append]
        repeat
          rw [cutClosing?, stripStart?_closing_eq_none_iff.mpr (by simp [expressionClosing])]
          simp only [Char.reduceEq, if_false]
        rw [cutClosing?_of_isClosed closed line]
        rfl
      cases opened.symm.trans cut
      rfl
  | cons c before ih =>
      rw [List.cons_append, cutClosing?] at cut
      split at cut
      · rename_i rest' stripped
        obtain ⟨rfl, rfl⟩ := Prod.mk.inj (Option.some.inj cut)
        left
        cases before with
        | nil => cases append_of_stripStart? stripped
        | cons d before =>
            obtain ⟨-, same⟩ := List.cons.inj (append_of_stripStart? stripped)
            obtain ⟨-, same⟩ := List.cons.inj same
            exact ⟨before, same.symm⟩
      · split at cut
        · cases cut
        · obtain ⟨⟨found', rest'⟩, inner, same⟩ := Option.map_eq_some_iff.mp cut
          obtain ⟨rfl, rfl⟩ := Prod.mk.inj same
          rcases ih inner with passed | rfl
          · exact .inl passed
          · exact .inr rfl

/-- A scan misses no body that is on one line: it finds it, at the end of what an earlier opening
    pair encloses or alone. -/
theorem exists_expression_of_encloses {cs body : List Char} (encloses : Encloses cs body)
    (line : '\n' ∉ body) : ∃ whole, .expression whole ∈ pieces cs ∧ body <:+ whole := by
  obtain ⟨closed, before, after, spelled⟩ := encloses
  induction cs using pieces.induct generalizing before with
  | case1 => simp [expressionOpening] at spelled
  | case2 c cs found rest cut ih =>
      rw [pieces]
      split
      case h_2 none => cases cut.symm.trans none
      case h_1 found' rest' again =>
      cases cut.symm.trans again
      obtain ⟨inner, opened, cut⟩ := Option.bind_eq_some_iff.mp cut
      rw [append_of_stripStart? opened] at spelled
      -- The opening pair that is found is the one in question or stands wholly before it.
      match before, spelled with
      | [], spelled =>
          rw [List.nil_append, List.append_cancel_left_eq] at spelled
          rw [spelled, cutClosing?_of_isClosed closed line] at cut
          cases cut
          exact ⟨body, List.mem_cons_self, List.suffix_refl _⟩
      | [_], spelled => cases spelled
      | [_, _], spelled => cases spelled
      | _ :: _ :: _ :: before, spelled =>
          simp only [expressionOpening, List.cons_append, List.nil_append,
            List.cons.injEq] at spelled
          obtain ⟨-, -, -, rfl⟩ := spelled
          rcases cutClosing?_before_opening closed line cut with ⟨more, rfl⟩ | rfl
          · obtain ⟨whole, member, suffix⟩ := ih more rfl
            exact ⟨whole, List.mem_cons_of_mem _ member, suffix⟩
          · refine ⟨_, List.mem_cons_self, ?_⟩
            rw [← List.append_assoc]
            exact List.suffix_append _ _
  | case3 c cs none ih =>
      rw [pieces]
      split
      case h_1 found rest again => cases none.symm.trans again
      case h_2 =>
      cases before with
      | nil =>
          rw [List.nil_append] at spelled
          rw [spelled, expressionAt?, stripStart?_append, Option.bind_some,
            cutClosing?_of_isClosed closed line] at none
          cases none
      | cons d before =>
          obtain ⟨-, rfl⟩ := List.cons.inj spelled
          obtain ⟨whole, member, suffix⟩ := ih before rfl
          exact ⟨whole, List.mem_cons_of_mem _ member, suffix⟩

/-- What a scan finds stands between its pairs on one line. -/
theorem encloses_of_mem_pieces {cs body : List Char} (member : .expression body ∈ pieces cs) :
    Encloses cs body ∧ '\n' ∉ body := by
  have closed : IsClosed body ∧ '\n' ∉ body := by
    induction cs using pieces.induct with
    | case1 => simp [pieces] at member
    | case2 c cs found rest cut ih =>
        rw [pieces] at member
        split at member
        case h_2 none => cases cut.symm.trans none
        case h_1 found' rest' again =>
        cases cut.symm.trans again
        rcases List.mem_cons.mp member with same | member
        · cases same
          obtain ⟨inner, -, cut⟩ := Option.bind_eq_some_iff.mp cut
          exact isClosed_of_cutClosing? cut
        · exact ih member
    | case3 c cs none ih =>
        rw [pieces] at member
        split at member
        case h_1 found rest again => cases none.symm.trans again
        case h_2 => exact ih (List.mem_of_ne_of_mem (by simp) member)
  obtain ⟨front, back, split⟩ := List.append_of_mem member
  refine ⟨⟨closed.1, front.flatMap Piece.chars, back.flatMap Piece.chars, ?_⟩, closed.2⟩
  rw [← flatMap_chars_pieces cs, split, List.flatMap_append, List.flatMap_cons]
  simp [Piece.chars]

end WorkflowAudit.Text
