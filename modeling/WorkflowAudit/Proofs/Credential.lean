import WorkflowAudit.Proofs.Policy.Credentials
import WorkflowAudit.Proofs.Text.Match

/-! # Credentials in their surroundings

The patterns are tried in order, each on the whole text. A pattern that occurs nowhere in a text occurs
nowhere in a part of it, so the part that is found in the end is found again, for the same pattern, when
it stands alone. More text can only add occurrences.
-/

namespace WorkflowAudit.Credential

open Text

variable {text : String} {c : Credential}

/-- A credential is found by the first pattern that occurs in the text. -/
theorem find?_eq_some_iff :
    find? text = some c ↔ ∃ earlier p later, patterns = earlier ++ (p, c.kind) :: later ∧
      p.find? text = some c.span ∧ ∀ entry ∈ earlier, entry.1.find? text = none := by
  rw [find?, List.findSome?_eq_some_iff]
  constructor
  · rintro ⟨earlier, ⟨p, kind⟩, later, split, found, missed⟩
    obtain ⟨span, here, rfl⟩ := Option.map_eq_some_iff.mp found
    exact ⟨earlier, p, later, split, here, fun entry member =>
      Option.map_eq_none_iff.mp (missed entry member)⟩
  · rintro ⟨earlier, p, later, split, found, missed⟩
    exact ⟨earlier, (p, c.kind), later, split, Option.map_eq_some_iff.mpr ⟨c.span, found, rfl⟩,
      fun entry member => Option.map_eq_none_iff.mpr (missed entry member)⟩

/-- What is found is found as a whole, and of the same kind, when it stands alone. -/
theorem exists_of_find? (found : find? text = some c) :
    ∃ before inside after : String, text = before ++ inside ++ after ∧
      c.span = ⟨before.utf8ByteSize, (before ++ inside).utf8ByteSize⟩ ∧
      find? inside = some ⟨c.kind, ⟨0, inside.utf8ByteSize⟩⟩ := by
  obtain ⟨earlier, p, later, split, here, missed⟩ := find?_eq_some_iff.mp found
  obtain ⟨before, inside, after, rfl, place, alone⟩ := Pattern.exists_of_find? here
  refine ⟨before, inside, after, rfl, place, ?_⟩
  refine find?_eq_some_iff.mpr ⟨earlier, p, later, split, alone, fun entry member => ?_⟩
  have within : inside.toList <:+: (before ++ inside ++ after).toList :=
    ⟨before.toList, after.toList, by simp⟩
  rw [← Option.not_isSome_iff_eq_none]
  intro occurs
  have again := Pattern.isSome_find?_of_infix occurs within
  rw [missed entry member] at again
  cases again

/-- A credential lies on whole characters, and its text alone is a credential of the same kind from end
to end. Text before and after it can change what is found but never hide that something is. -/
theorem find?_local_and_unmasked :
    (∀ text c, find? text = some c → ∃ before inside after : String,
      text = before ++ inside ++ after ∧
      c.span = ⟨before.utf8ByteSize, (before ++ inside).utf8ByteSize⟩ ∧
      c.span.slice text = inside ∧
      find? inside = some ⟨c.kind, ⟨0, inside.utf8ByteSize⟩⟩) ∧
    ∀ before text after : String, (find? text).isSome = true →
      (find? (before ++ text ++ after)).isSome = true := by
  refine ⟨fun text c found => ?_, fun before text after occurs => ?_⟩
  · obtain ⟨before, inside, after, rfl, place, alone⟩ := exists_of_find? found
    refine ⟨before, inside, after, rfl, place, ?_, alone⟩
    have cut : slice? (before ++ inside ++ after).toList c.span.start c.span.stop =
        some inside.toList := by
      refine slice?_eq_some_iff.mpr ⟨before.toList, after.toList, by simp, ?_, ?_⟩
      · rw [place, ← utf8ByteSize_ofList, String.ofList_toList]
      · rw [place, ← utf8ByteSize_ofList, String.ofList_toList, String.utf8ByteSize_append]
    rw [Span.slice, cut]
    exact String.ofList_toList
  · have within : text.toList <:+: (before ++ text ++ after).toList :=
      ⟨before.toList, after.toList, by simp⟩
    exact OccursIn.of_infix occurs within

/-- A key of eight characters whose name has the Kelvin sign in place of a letter, behind an accent. -/
def kelvinText : String := "clé API_\u212aey: 'ſesame-4'"

theorem find?_kelvinText : find? kelvinText = some ⟨"API key", ⟨5, 26⟩⟩ := by decide +kernel

theorem find?_local_and_unmasked_kelvinText :
    (∃ before inside after : String, kelvinText = before ++ inside ++ after ∧
      (⟨5, 26⟩ : Span) = ⟨before.utf8ByteSize, (before ++ inside).utf8ByteSize⟩ ∧
      Span.slice ⟨5, 26⟩ kelvinText = inside ∧
      find? inside = some ⟨"API key", ⟨0, inside.utf8ByteSize⟩⟩) ∧
    (find? ("pwd=" ++ kelvinText ++ "sk_live_0")).isSome = true :=
  ⟨find?_local_and_unmasked.1 kelvinText _ find?_kelvinText,
    find?_local_and_unmasked.2 "pwd=" kelvinText "sk_live_0" (by rw [find?_kelvinText]; rfl)⟩

end WorkflowAudit.Credential
