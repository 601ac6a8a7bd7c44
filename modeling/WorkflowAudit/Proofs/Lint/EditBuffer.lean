import Mathlib.Data.List.Induction
import WorkflowAudit.Lint.EditBuffer
import WorkflowAudit.Proofs.Data.Sorting
import WorkflowAudit.Proofs.Text.Span

/-!
# Accepted edits and the text they give

The accepted edits are ranges of the text that do not overlap, so from left to right each one
stops before the next one starts. `Splices` says what it is to make such edits, part by part
and without offsets to search for, and `splices_splice` says that this is what happens.
-/

namespace WorkflowAudit

namespace EditBuffer

/-- The edits that are made, from left to right. -/
def accepted (b : EditBuffer) (source : String) : List Edit :=
  sortBy before (accept source.toList b.groups).1

/-- Two edits with no byte in both and none inside the other. -/
def Apart (a b : Edit) : Prop := a.span.overlaps b.span = false

theorem Apart.symm {a b : Edit} (h : Apart a b) : Apart b a := by
  simp only [Apart, Span.overlaps, Bool.and_eq_false_iff, decide_eq_false_iff_not] at h ⊢
  exact h.symm

theorem isFree_iff (taken group : List Edit) :
    isFree taken group = true ↔
      (∀ a ∈ taken, ∀ e ∈ group, Apart a e) ∧ group.Pairwise Apart := by
  induction group generalizing taken with
  | nil => simp [isFree]
  | cons e es ih =>
    simp only [isFree, Bool.and_eq_true, Bool.not_eq_true', List.any_eq_false, ih,
      List.mem_append, List.pairwise_cons, List.mem_cons, Bool.not_eq_true, forall_eq_or_imp,
      List.not_mem_nil, or_false]
    constructor
    · rintro ⟨hhead, htail, hpairwise⟩
      exact ⟨fun a ha => ⟨hhead a ha, htail a (.inl ha)⟩, htail e (.inr rfl), hpairwise⟩
    · rintro ⟨htaken, hhead, hpairwise⟩
      refine ⟨fun a ha => (htaken a ha).1, ?_, hpairwise⟩
      rintro a (ha | rfl)
      · exact (htaken a ha).2
      · exact hhead

/-- What holds of the edits accepted from the groups so far. -/
structure Sound (cs : List Char) (groups : List (List Edit)) (edits : List Edit) : Prop where
  queued : ∀ e ∈ edits, ∃ group ∈ groups, e ∈ group
  ranges : ∀ e ∈ edits, isRange cs e.span = true
  apart : edits.Pairwise Apart

theorem Sound.accept (cs : List Char) (groups : List (List Edit)) :
    Sound cs groups (accept cs groups).1 := by
  unfold EditBuffer.accept
  induction groups using List.reverseRecOn with
  | nil => exact ⟨by simp, by simp, by simp⟩
  | append_singleton groups group ih =>
    rw [List.foldl_append, List.foldl_cons, List.foldl_nil]
    generalize groups.foldl _ _ = state at ih ⊢
    obtain ⟨taken, count⟩ := state
    simp only at ih ⊢
    split
    case isTrue hfits =>
      rw [Bool.and_eq_true, List.all_eq_true, isFree_iff] at hfits
      obtain ⟨hranges, hapart, hgroup⟩ := hfits
      refine ⟨fun e he => ?_, fun e he => ?_, ?_⟩
      · rcases List.mem_append.mp he with he | he
        · obtain ⟨queued, hqueued, hmem⟩ := ih.queued e he
          exact ⟨queued, by simp [hqueued], hmem⟩
        · exact ⟨group, by simp, he⟩
      · rcases List.mem_append.mp he with he | he
        · exact ih.ranges e he
        · exact hranges e he
      · exact List.pairwise_append.mpr ⟨ih.apart, hgroup, hapart⟩
    case isFalse =>
      refine ⟨fun e he => ?_, ih.ranges, ih.apart⟩
      obtain ⟨queued, hqueued, hmem⟩ := ih.queued e he
      exact ⟨queued, by simp [hqueued], hmem⟩

theorem isRange_iff {cs : List Char} {s : Span} :
    isRange cs s = true ↔
      ∃ before inside after, cs = before ++ (inside ++ after) ∧
        Text.byteLength before = s.start ∧ s.stop = s.start + Text.byteLength inside := by
  simp only [isRange, Option.isSome_iff_exists, Text.slice?_eq_some_iff]
  constructor
  · rintro ⟨inside, before, after, h⟩
    exact ⟨before, inside, after, h⟩
  · rintro ⟨before, inside, after, h⟩
    exact ⟨inside, before, after, h⟩

theorem start_le_stop_of_isRange {cs : List Char} {s : Span} (h : isRange cs s = true) :
    s.start ≤ s.stop := by
  obtain ⟨_, _, _, _, _, hstop⟩ := isRange_iff.mp h
  omega

theorem sound_accepted (b : EditBuffer) (source : String) :
    Sound source.toList b.groups (b.accepted source) := by
  have hsound := Sound.accept source.toList b.groups
  have hperm := perm_sortBy before (EditBuffer.accept source.toList b.groups).1
  exact ⟨fun e he => hsound.queued e (hperm.mem_iff.mp he),
    fun e he => hsound.ranges e (hperm.mem_iff.mp he),
    (hperm.pairwise_iff Apart.symm).mpr hsound.apart⟩

theorem pairwise_before (b : EditBuffer) (source : String) :
    (b.accepted source).Pairwise fun e f => before e f = true := by
  have htotal : Std.Total fun e f : Edit => before e f = true := by
    constructor
    intro e f
    simp only [before, Bool.or_eq_true, Bool.and_eq_true, decide_eq_true_eq]
    omega
  have htrans : IsTrans Edit fun e f => before e f = true := by
    constructor
    intro e f g
    simp only [before, Bool.or_eq_true, Bool.and_eq_true, decide_eq_true_eq]
    omega
  rw [accepted, sortBy_eq_insertionSort]
  exact List.pairwise_insertionSort _ _

/-- Edits that do not overlap and come in order stop before later ones start. -/
theorem pairwise_stop_le_start (b : EditBuffer) (source : String) :
    (b.accepted source).Pairwise fun e f => e.span.stop ≤ f.span.start := by
  have hsound := sound_accepted b source
  refine List.Pairwise.imp_of_mem ?_ ((pairwise_before b source).and hsound.apart)
  rintro e f he hf ⟨hbefore, hapart⟩
  have hestart := start_le_stop_of_isRange (hsound.ranges e he)
  have hfstart := start_le_stop_of_isRange (hsound.ranges f hf)
  simp only [before, Bool.or_eq_true, Bool.and_eq_true, decide_eq_true_eq] at hbefore
  simp only [Apart, Span.overlaps, Bool.and_eq_false_iff, decide_eq_false_iff_not] at hapart
  omega

/-- `Splices o cs es out`: edits made from left to right in a text `cs` that begins at offset
    `o` turn it into `out`. -/
inductive Splices : Nat → List Char → List Edit → List Char → Prop
  | done (offset : Nat) (cs : List Char) : Splices offset cs [] cs
  | edit {offset : Nat} {e : Edit} {es : List Edit} {untouched inside rest out : List Char}
      (hstart : e.span.start = offset + Text.byteLength untouched)
      (hstop : e.span.stop = e.span.start + Text.byteLength inside)
      (hrest : Splices e.span.stop rest es out) :
      Splices offset (untouched ++ (inside ++ rest)) (e :: es)
        (untouched ++ (e.text.toList ++ out))

theorem Splices.le_start {offset : Nat} {cs out : List Char} {es : List Edit}
    (h : Splices offset cs es out) : ∀ e ∈ es, offset ≤ e.span.start := by
  induction h with
  | done => simp
  | edit hstart hstop _ ih =>
    intro e he
    rcases List.mem_cons.mp he with rfl | he
    · omega
    · have := ih e he
      omega

/-- A part of the text that stands before all edits can be left out. -/
theorem Splices.of_append {offset : Nat} {front cs out : List Char} {es : List Edit}
    (h : Splices offset (front ++ cs) es out)
    (hes : ∀ e ∈ es, offset + Text.byteLength front ≤ e.span.start) :
    ∃ out', out = front ++ out' ∧ Splices (offset + Text.byteLength front) cs es out' := by
  generalize htext : front ++ cs = text at h
  cases h with
  | done => exact ⟨cs, htext.symm, .done _ _⟩
  | @edit _ e es untouched inside rest out hstart hstop hrest =>
    have hle : Text.byteLength front ≤ Text.byteLength untouched := by
      have := hes e List.mem_cons_self
      omega
    obtain ⟨between, rfl, rfl⟩ := Text.exists_append_of_byteLength_le htext hle
    refine ⟨between ++ (e.text.toList ++ out), List.append_assoc _ _ _, .edit ?_ hstop hrest⟩
    rw [hstart, Text.byteLength_append, Nat.add_assoc]

theorem splices_splice {done cs : List Char} {es : List Edit}
    (hranges : ∀ e ∈ es, isRange (done ++ cs) e.span = true)
    (hstarts : ∀ e ∈ es, Text.byteLength done ≤ e.span.start)
    (hordered : es.Pairwise fun e f => e.span.stop ≤ f.span.start) :
    Splices (Text.byteLength done) cs es (splice (Text.byteLength done) cs es) := by
  induction es generalizing done cs with
  | nil => exact .done _ _
  | cons e es ih =>
    obtain ⟨front, inside, rest, htext, hstart, hstop⟩ := isRange_iff.mp (hranges e (by simp))
    have hle : Text.byteLength done ≤ Text.byteLength front := by
      rw [hstart]
      exact hstarts e (by simp)
    obtain ⟨untouched, rfl, rfl⟩ := Text.exists_append_of_byteLength_le htext hle
    have hskip : e.span.start - Text.byteLength done = Text.byteLength untouched := by
      rw [← hstart, Text.byteLength_append]
      omega
    have hlength : e.span.length = Text.byteLength inside := by
      rw [Span.length]
      omega
    have hdone : Text.byteLength (done ++ (untouched ++ inside)) = e.span.stop := by
      rw [hstop, ← hstart]
      simp only [Text.byteLength_append]
      omega
    simp only [splice, hskip, hlength, cut, Text.splitAt?_append, Option.getD_some]
    rw [List.append_assoc]
    refine Splices.edit (by rw [← hstart, Text.byteLength_append]) hstop ?_
    rw [← hdone]
    refine ih ?_ ?_ (List.pairwise_cons.mp hordered).2
    · intro f hf
      have := hranges f (List.mem_cons_of_mem e hf)
      simpa only [List.append_assoc] using this
    · intro f hf
      rw [hdone]
      exact (List.pairwise_cons.mp hordered).1 f hf

/-- Applied edits are made from left to right in the whole text. -/
theorem splices_apply (b : EditBuffer) (source : String) :
    Splices 0 source.toList (b.accepted source) (b.apply source).1.toList := by
  have h := @splices_splice [] source.toList _
    (sound_accepted b source).ranges (fun e _ => Nat.zero_le _) (pairwise_stop_le_start b source)
  simpa [apply, accepted] using h

end EditBuffer

end WorkflowAudit
