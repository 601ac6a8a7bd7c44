import Mathlib.Data.List.TakeWhile
import Mathlib.Data.List.Sort
import Mathlib.Data.Prod.Lex
import WorkflowAudit.Proofs.Text.Span

/-!
# Lines and columns

The search for the line of an offset keeps two facts about the part that is left: the lines before
it begin before the offset, and those behind it begin past the offset. So it ends at the last line
that does not begin past the offset. In the index of a text these are the first line and one line
for each line feed before the offset, so that lines and columns are those that one counts by hand.
-/

namespace WorkflowAudit.LineIndex

open Text

/-! ## The search -/

theorem getElem_lt_getElem {starts : Array Nat} (increasing : starts.toList.Pairwise (· < ·))
    {i j : Fin starts.size} (h : i < j) : starts[i] < starts[j] :=
  List.pairwise_iff_getElem.mp increasing i j i.isLt j.isLt h

/-- What a search for an offset may find among some offsets. -/
inductive Finds (starts : Array Nat) (offset : Nat) :
    Except (Fin (starts.size + 1)) (Fin starts.size) → Prop
  /-- One of them is the offset. -/
  | found {i : Fin starts.size} (same : starts[i] = offset) : Finds starts offset (.ok i)
  /-- The offset lies between two neighbours, before all or behind all of them. -/
  | between {i : Fin (starts.size + 1)}
      (before : ∀ j : Fin starts.size, j.val < i.val → starts[j] < offset)
      (past : ∀ j : Fin starts.size, i.val ≤ j.val → offset < starts[j]) :
      Finds starts offset (.error i)

theorem finds_searchFrom {starts : Array Nat} (increasing : starts.toList.Pairwise (· < ·))
    {offset low high : Nat} (ordered : low ≤ high) (within : high ≤ starts.size)
    (before : ∀ j : Fin starts.size, j.val < low → starts[j] < offset)
    (past : ∀ j : Fin starts.size, high ≤ j.val → offset < starts[j]) :
    Finds starts offset (searchFrom starts offset low high ordered within) := by
  induction low, high, ordered, within using searchFrom.induct starts offset with
  | case1 low high ordered within left middle inside same =>
    rw [searchFrom, dif_pos left]
    dsimp only
    rw [if_pos same]
    exact .found same
  | case2 low high ordered within left middle inside other small ih =>
    rw [searchFrom, dif_pos left]
    dsimp only
    rw [if_neg other, if_pos small]
    refine ih (fun j hj => ?_) past
    rcases Nat.lt_or_eq_of_le (Nat.le_of_lt_succ hj) with hj | hj
    · exact Nat.lt_trans (getElem_lt_getElem increasing (j := ⟨middle, inside⟩) hj) small
    · simpa [hj] using small
  | case3 low high ordered within left middle inside other large ih =>
    rw [searchFrom, dif_pos left]
    dsimp only
    rw [if_neg other, if_neg large]
    refine ih before fun j hj => ?_
    have small : offset < starts[middle] := by omega
    rcases Nat.lt_or_eq_of_le hj with hj | hj
    · exact Nat.lt_trans small (getElem_lt_getElem increasing (i := ⟨middle, inside⟩) hj)
    · simpa [← hj] using small
  | case4 low high ordered within left =>
    rw [searchFrom, dif_neg left]
    obtain rfl : low = high := Nat.le_antisymm ordered (Nat.not_lt.mp left)
    exact .between before past

theorem finds_search (index : LineIndex) (offset : Nat) :
    Finds index.starts offset (index.search offset) :=
  finds_searchFrom index.increasing _ _ (fun j hj => absurd hj (Nat.not_lt_zero j))
    fun j hj => absurd j.isLt (Nat.not_lt.mpr hj)

/-- No offset lies before the first line. -/
theorem search_ne_error_zero (index : LineIndex) (offset : Nat) : index.search offset ≠ .error 0 := by
  intro missing
  have finds := index.finds_search offset
  rw [missing] at finds
  cases finds with
  | between _ past =>
    have first := past ⟨0, index.size_pos⟩ (Nat.le_refl 0)
    have begins := (Array.getElem?_eq_some_iff.mp index.first).2
    simp [begins] at first

/-- The line that is found does not begin past the offset, and the next one does. -/
theorem lineStart_le_and_lt (index : LineIndex) (offset : Nat) :
    index.lineStart offset ≤ offset ∧
      ∀ j : Fin index.starts.size, index.position offset < j → offset < index.starts[j] := by
  have finds := index.finds_search offset
  cases result : index.search offset with
  | ok i =>
    have here : index.position offset = i := by rw [position, result]
    rw [result] at finds
    cases finds with
    | found same =>
      simp only [lineStart, here]
      exact ⟨Nat.le_of_eq same, fun j later => same ▸ getElem_lt_getElem index.increasing later⟩
  | error i =>
    have pos : 0 < i.val := Nat.pos_of_ne_zero fun zero =>
      index.search_ne_error_zero offset (result.trans (congrArg _ (Fin.ext zero)))
    have here : (index.position offset).val = i.val - 1 := by rw [position, result]
    rw [result] at finds
    cases finds with
    | between before past =>
      exact ⟨Nat.le_of_lt (before (index.position offset) (by omega)), fun j later => past j (by omega)⟩

theorem lineStart_le (index : LineIndex) (offset : Nat) : index.lineStart offset ≤ offset :=
  (index.lineStart_le_and_lt offset).1

/-- An offset belongs to the line that does not begin past it when all later ones do. -/
theorem eq_of_starts_eq {index : LineIndex} {offset start : Nat} {before after : List Nat}
    (split : index.starts.toList = before ++ start :: after) (le : start ≤ offset)
    (past : ∀ s ∈ after, offset < s) :
    index.position offset = before.length ∧ index.lineStart offset = start := by
  obtain ⟨begins, later⟩ := index.lineStart_le_and_lt offset
  have inside : before.length < index.starts.size := by
    rw [← Array.length_toList, split, List.length_append, List.length_cons]
    omega
  have here : index.starts[before.length] = start := by simp [← Array.getElem_toList, split]
  have notBefore : before.length ≤ index.position offset := by
    by_contra earlier
    have := later ⟨before.length, inside⟩ (Nat.not_le.mp earlier)
    simp only [Fin.getElem_fin, here] at this
    omega
  have notLater : index.position offset ≤ before.length := by
    by_contra beyond
    have member : index.lineStart offset ∈ after := by
      refine List.mem_of_getElem? (i := index.position offset - before.length - 1) ?_
      have found : index.starts.toList[(index.position offset).val]? = some (index.lineStart offset) := by
        simp [lineStart]
      rw [split, List.getElem?_append_right notBefore, List.getElem?_cons] at found
      rwa [if_neg (by omega)] at found
    have := past _ member
    omega
  have same : (index.position offset).val = before.length := Nat.le_antisymm notLater notBefore
  refine ⟨same, ?_⟩
  simp only [lineStart, Fin.getElem_fin, same, here]

/-- The lines that do not begin past an offset decide its line. -/
theorem eq_of_starts_append {index : LineIndex} {offset : Nat} {front after : List Nat}
    (split : index.starts.toList = 0 :: (front ++ after)) (le : ∀ s ∈ front, s ≤ offset)
    (past : ∀ s ∈ after, offset < s) :
    index.position offset = front.length ∧ index.lineStart offset = front.getLastD 0 := by
  have last : (0 :: front).getLast (List.cons_ne_nil 0 front) = front.getLastD 0 :=
    List.getLast_eq_getLastD (List.cons_ne_nil 0 front)
  have parts : index.starts.toList = (0 :: front).dropLast ++ front.getLastD 0 :: after := by
    rw [← last, List.append_cons, List.dropLast_append_getLast, split, List.cons_append]
  have bound : front.getLastD 0 ≤ offset := by
    have member := List.getLast_mem (List.cons_ne_nil 0 front)
    rw [last] at member
    rcases List.mem_cons.mp member with zero | member
    · omega
    · exact le _ member
  simpa using eq_of_starts_eq parts bound past

/-- Later offsets have later lines and columns. -/
theorem lineColumn_strictMono (index : LineIndex) :
    StrictMono fun offset => toLex (index.lineColumn offset) := by
  intro o p before
  have startsBefore := index.lineStart_le o
  have startsBefore' := index.lineStart_le p
  have monotone : index.position o ≤ index.position p := by
    by_contra later
    have := (index.lineStart_le_and_lt p).2 _ (Fin.not_le.mp later)
    simp only [lineStart] at startsBefore
    omega
  rw [Prod.Lex.toLex_lt_toLex]
  rcases Fin.lt_or_eq_of_le monotone with further | same
  · exact .inl (Nat.succ_lt_succ further)
  · have sameStart : index.lineStart o = index.lineStart p := by simp only [lineStart, same]
    refine .inr ⟨by simp only [lineColumn, lineOf, same], ?_⟩
    simp only [lineColumn]
    omega

/-! ## Line starts of a text -/

theorem starts_ofText (text : String) :
    (ofText text).starts.toList = 0 :: startsFrom 0 text.toList := rfl

theorem startsFrom_append (offset : Nat) (before after : List Char) :
    startsFrom offset (before ++ after) =
      startsFrom offset before ++ startsFrom (offset + byteLength before) after := by
  induction before generalizing offset with
  | nil => simp [startsFrom]
  | cons c before ih =>
    simp only [List.cons_append, startsFrom, ih, byteLength_cons, Nat.add_assoc]
    split <;> rfl

theorem le_of_mem_startsFrom {offset start : Nat} {cs : List Char}
    (h : start ∈ startsFrom offset cs) : start ≤ offset + byteLength cs := by
  induction cs generalizing offset with
  | nil => cases h
  | cons c cs ih =>
    simp only [startsFrom, byteLength_cons] at h ⊢
    split at h
    case isTrue =>
      rcases List.mem_cons.mp h with rfl | h
      · omega
      · have := ih h
        omega
    case isFalse =>
      have := ih h
      omega

/-- The line of an offset begins where the last line begins that a shorter text has. -/
theorem lineStart_ofText {text : String} {before after : List Char}
    (h : text.toList = before ++ after) :
    (ofText text).lineStart (byteLength before) = (startsFrom 0 before).getLastD 0 := by
  have split : (ofText text).starts.toList =
      0 :: (startsFrom 0 before ++ startsFrom (0 + byteLength before) after) := by
    rw [starts_ofText, h, startsFrom_append]
  refine (eq_of_starts_append split (fun s hs => ?_) fun s hs => ?_).2
  · simpa using le_of_mem_startsFrom hs
  · simpa using lt_of_mem_startsFrom hs

/-- An offset stands behind a part of its line without a line feed, and the line begins the text
or follows a line feed. -/
theorem exists_line {text : String} {before after : List Char} (h : text.toList = before ++ after) :
    ∃ front line, before = front ++ line ∧ '\n' ∉ line ∧
      (front = [] ∨ ∃ earlier, front = earlier ++ ['\n']) ∧
      (ofText text).lineStart (byteLength before) = byteLength front := by
  rw [lineStart_ofText h]
  clear h
  induction before using List.reverseRecOn with
  | nil => exact ⟨[], [], rfl, by simp, .inl rfl, rfl⟩
  | append_singleton before c ih =>
    rw [startsFrom_append]
    by_cases hc : c = '\n'
    · subst hc
      exact ⟨before ++ ['\n'], [], by simp, by simp, .inr ⟨before, rfl⟩, by simp [startsFrom]⟩
    · obtain ⟨front, line, rfl, hline, hfront, hstart⟩ := ih
      exact ⟨front, line ++ [c], by simp, by simpa [hline] using Ne.symm hc, hfront,
        by simpa [startsFrom, hc] using hstart⟩

/-! ## Counting line feeds -/

/-- The offsets before a given one at which a text has a line feed. -/
def feedsBefore (text : String) (offset : Nat) : List Nat :=
  (List.range offset).filter fun place => Span.slice ⟨place, place + 1⟩ text = "\n"

theorem slice_eq_feed_iff {text : String} {place : Nat} :
    Span.slice ⟨place, place + 1⟩ text = "\n" ↔
      ∃ before after, text.toList = before ++ '\n' :: after ∧ byteLength before = place := by
  have cut : Span.slice ⟨place, place + 1⟩ text = "\n" ↔
      slice? text.toList place (place + 1) = some ['\n'] := by
    unfold Span.slice
    cases slice? text.toList place (place + 1) with
    | none => simp
    | some inside => simp [← String.toList_inj]
  rw [cut, slice?_eq_some_iff]
  exact exists_congr fun before => exists_congr fun after =>
    and_congr_right fun _ => and_iff_left_of_imp fun h => h ▸ rfl

theorem mem_startsFrom_iff {offset start : Nat} {cs : List Char} :
    start ∈ startsFrom offset cs ↔
      ∃ before after, cs = before ++ '\n' :: after ∧ start = offset + byteLength before + 1 := by
  constructor
  · intro h
    induction cs generalizing offset with
    | nil => cases h
    | cons c cs ih =>
      have later : start ∈ startsFrom (offset + c.utf8Size) cs → ∃ before after,
          c :: cs = before ++ '\n' :: after ∧ start = offset + byteLength before + 1 := fun h => by
        obtain ⟨before, after, rfl, rfl⟩ := ih h
        exact ⟨c :: before, after, rfl, by rw [byteLength_cons, ← Nat.add_assoc]⟩
      rw [startsFrom] at h
      split at h
      case isTrue feed =>
        rcases List.mem_cons.mp h with rfl | h
        · exact ⟨[], cs, by rw [feed]; rfl, by rw [feed]; rfl⟩
        · exact later h
      case isFalse => exact later h
  · rintro ⟨before, after, rfl, rfl⟩
    rw [startsFrom_append]
    exact List.mem_append_right _ List.mem_cons_self

/-- The lines after the first one that do not begin past an offset begin behind the line feeds
before it. -/
theorem filter_startsFrom (text : String) (offset : Nat) :
    (startsFrom 0 text.toList).filter (· ≤ offset) = (feedsBefore text offset).map (· + 1) := by
  have increasing := (pairwise_startsFrom 0 text.toList).filter (· ≤ offset)
  have increasing' : ((feedsBefore text offset).map (· + 1)).Pairwise (· < ·) :=
    ((List.pairwise_lt_range).filter _).map _ fun _ _ => Nat.succ_lt_succ
  refine ((List.perm_ext_iff_of_nodup (increasing.imp Nat.ne_of_lt)
    (increasing'.imp Nat.ne_of_lt)).mpr fun start => ?_).eq_of_pairwise'
    (increasing.imp Nat.le_of_lt) (increasing'.imp Nat.le_of_lt)
  simp only [feedsBefore, List.mem_filter, List.mem_map, List.mem_range, decide_eq_true_eq,
    slice_eq_feed_iff, mem_startsFrom_iff, Nat.zero_add]
  constructor
  · rintro ⟨⟨before, after, htext, rfl⟩, inside⟩
    exact ⟨byteLength before, ⟨inside, before, after, htext, rfl⟩, rfl⟩
  · rintro ⟨place, ⟨inside, before, after, htext, rfl⟩, rfl⟩
    exact ⟨⟨before, after, htext, rfl⟩, inside⟩

theorem filter_append_filter_of_increasing {starts : List Nat} (offset : Nat)
    (increasing : starts.Pairwise (· < ·)) :
    starts.filter (· ≤ offset) ++ starts.filter (offset < ·) = starts := by
  induction starts with
  | nil => rfl
  | cons start starts ih =>
    obtain ⟨less, increasing⟩ := List.pairwise_cons.mp increasing
    by_cases h : start ≤ offset
    · simp [h, ih increasing]
    · have later : ∀ s ∈ start :: starts, offset < s := List.forall_mem_cons.mpr
        ⟨Nat.not_le.mp h, fun s hs => Nat.lt_trans (Nat.not_le.mp h) (less s hs)⟩
      rw [List.filter_eq_nil_iff.mpr fun s hs => by simpa using later s hs,
        List.filter_eq_self.mpr fun s hs => by simpa using later s hs, List.nil_append]

theorem starts_eq_feeds (text : String) (offset : Nat) :
    (ofText text).starts.toList = 0 :: ((feedsBefore text offset).map (· + 1) ++
      (startsFrom 0 text.toList).filter (offset < ·)) := by
  rw [← filter_startsFrom, filter_append_filter_of_increasing offset (pairwise_startsFrom 0 _),
    starts_ofText]

end WorkflowAudit.LineIndex
