import WorkflowAudit.Policy.Security
import WorkflowAudit.Proofs.Text.Search

/-! # Three readings of a pin

A reference may hold several at signs. The strict check looks at what follows the last of them, the
other two at what follows the first. They agree where there is only one, and apart from that only on
references whose first pin passes for a version.
-/

namespace WorkflowAudit

namespace Action

/-! ## Forms of a ref -/

theorem isHexDigit_of_isLowerHexDigit {c : Char} (lower : isLowerHexDigit c = true) :
    Text.isHexDigit c = true := by
  simp only [isLowerHexDigit, Text.isHexDigit, Bool.or_eq_true] at lower ⊢
  exact .inl lower

theorem isCommitHash_of_isLowerCommitHash {ref : String} (lower : isLowerCommitHash ref = true) :
    isCommitHash ref = true := by
  simp only [isLowerCommitHash, isCommitHash, Bool.and_eq_true, List.all_eq_true] at lower ⊢
  exact ⟨lower.1, fun c inside => isHexDigit_of_isLowerHexDigit (lower.2 c inside)⟩

theorem startsWith_of_isVersionTag {ref : String} (tag : isVersionTag ref = true) :
    Text.startsWith ref "v" = true := by
  unfold isVersionTag at tag
  split at tag
  · rename_i number spelled
    simp [Text.startsWith, spelled]
  · cases tag

theorem isCommitHash_eq_false_of_mem {ref : String} (inside : '@' ∈ ref.toList) :
    isCommitHash ref = false := by
  have sign : Text.isHexDigit '@' = false := by decide
  rw [Bool.eq_false_iff]
  intro hash
  simp only [isCommitHash, Bool.and_eq_true, List.all_eq_true] at hash
  exact absurd (hash.2 '@' inside) (by simp [sign])

/-- A ref that passes for a version: it starts like one, or has a point. -/
def LooksVersioned (ref : String) : Prop :=
  Text.startsWith ref "v" = true ∨ Text.contains ref "." = true

instance (ref : String) : Decidable (LooksVersioned ref) := inferInstanceAs (Decidable (_ ∨ _))

/-- A reference with a second at sign after a first pin that does not pass for a version. -/
def PinsTwice (reference : String) : Prop :=
  isLocal reference = false ∧ ∃ name ref, Text.cutAt? '@' reference = some (name, ref) ∧
    '@' ∈ ref.toList ∧ ¬ LooksVersioned ref

theorem pinsTwice_iff {reference name ref : String}
    (cut : Text.cutAt? '@' reference = some (name, ref)) :
    PinsTwice reference ↔
      isLocal reference = false ∧ '@' ∈ ref.toList ∧ ¬ LooksVersioned ref := by
  simp only [PinsTwice, cut, Option.some.injEq, Prod.mk.injEq]
  constructor
  · rintro ⟨remote, _, _, ⟨rfl, rfl⟩, twice⟩
    exact ⟨remote, twice⟩
  · rintro ⟨remote, twice⟩
    exact ⟨remote, _, _, ⟨rfl, rfl⟩, twice⟩

theorem pin_eq {reference name ref : String} (remote : isLocal reference = false)
    (cut : Text.cutAt? '@' reference = some (name, ref)) :
    (isCommitHash ref = true ∨ LooksVersioned ref) ∧ pin reference = .pinned ∨
      (isCommitHash ref = false ∧ ¬ LooksVersioned ref) ∧ pin reference = .branch ref := by
  simp only [pin, remote, cut, LooksVersioned, Bool.false_eq_true, if_false]
  cases isCommitHash ref <;> cases Text.startsWith ref "v" <;> cases Text.contains ref "." <;> simp

theorem pinProblem?_eq_none_iff {reference : String} :
    Policy.pinProblem? reference = none ↔ pin reference = .pinned := by
  unfold Policy.pinProblem?
  split <;> simp_all

/-- Where a strictly pinned reference that is not local is cut, and what its last pin is. -/
theorem exists_cuts_of_isStrictlyPinned {reference : String}
    (strict : isStrictlyPinned reference = true) (remote : isLocal reference = false) :
    ∃ before after, reference.toList = before ++ '@' :: after ∧ '@' ∉ before ∧
      ('@' ∉ after → isCommitHash (String.ofList after) = true ∨
        LooksVersioned (String.ofList after)) := by
  simp only [isStrictlyPinned, remote, Bool.false_or, Bool.and_eq_true, List.contains_iff_mem,
    Bool.or_eq_true] at strict
  obtain ⟨before, after, cut, first⟩ := List.eq_append_cons_of_mem strict.1
  refine ⟨before, after, cut, first, fun last => ?_⟩
  rw [Text.afterLast_eq cut last] at strict
  exact strict.2.imp isCommitHash_of_isLowerCommitHash
    fun tag => .inl (startsWith_of_isVersionTag tag)

/-- The other two checks accept a strictly pinned reference unless it pins twice. Then both object,
since they take all that follows the first at sign for a branch. -/
theorem pinned_iff_of_isStrictlyPinned {reference : String}
    (strict : isStrictlyPinned reference = true) :
    (Policy.pinProblem? reference = none ∧ pin reference = .pinned ↔ ¬ PinsTwice reference) ∧
      (PinsTwice reference → ∃ ref, pin reference = .branch ref ∧ '@' ∈ ref.toList ∧
        Policy.pinProblem? reference = some
          s!"Action '{reference}' appears to be pinned to a branch '{ref}', which can change") := by
  cases remote : isLocal reference with
  | true => simp [PinsTwice, pinProblem?_eq_none_iff, pin, remote]
  | false =>
      obtain ⟨before, after, spelled, first, last⟩ :=
        exists_cuts_of_isStrictlyPinned strict remote
      have cut := Text.cutAt?_eq_some spelled first
      have twice : PinsTwice reference ↔ '@' ∈ after ∧ ¬ LooksVersioned (String.ofList after) := by
        simp [pinsTwice_iff cut, remote]
      rw [twice, pinProblem?_eq_none_iff, and_self]
      rcases pin_eq remote cut with ⟨passes, pinned⟩ | ⟨⟨noHash, plain⟩, branch⟩
      · have once : ¬ ('@' ∈ after ∧ ¬ LooksVersioned (String.ofList after)) := by
          rintro ⟨inside, plain⟩
          have noHash : isCommitHash (String.ofList after) = false :=
            isCommitHash_eq_false_of_mem (by simpa)
          exact passes.elim (by simp [noHash]) plain
        exact ⟨iff_of_true pinned once, fun both => absurd both once⟩
      · have inside : '@' ∈ after := by
          by_contra absent
          exact (last absent).elim (by simp [noHash]) plain
        refine ⟨iff_of_false (by simp [branch]) (by simp [inside, plain]), fun _ => ?_⟩
        exact ⟨_, branch, by simpa, by simp only [Policy.pinProblem?, branch]⟩

/-- A commit hash behind a version passes all three checks, a version behind a branch only the
strict one. -/
theorem pinned_iff_of_isStrictlyPinned_twice :
    (isStrictlyPinned "octo/deploy@v2@0123456789abcdef0123456789abcdef01234567" = true ∧
      Policy.pinProblem? "octo/deploy@v2@0123456789abcdef0123456789abcdef01234567" = none) ∧
    isStrictlyPinned "octo/deploy@main@v4" = true ∧
      ∃ ref, pin "octo/deploy@main@v4" = .branch ref := by
  have versioned :
      isStrictlyPinned "octo/deploy@v2@0123456789abcdef0123456789abcdef01234567" = true := by
    decide +kernel
  have branched : isStrictlyPinned "octo/deploy@main@v4" = true := by decide +kernel
  have cutVersion :
      Text.cutAt? '@' "octo/deploy@v2@0123456789abcdef0123456789abcdef01234567" =
        some ("octo/deploy", "v2@0123456789abcdef0123456789abcdef01234567") := by decide +kernel
  have cutBranch : Text.cutAt? '@' "octo/deploy@main@v4" = some ("octo/deploy", "main@v4") := by
    decide +kernel
  have once : ¬ PinsTwice "octo/deploy@v2@0123456789abcdef0123456789abcdef01234567" := by
    rw [pinsTwice_iff cutVersion]
    decide +kernel
  have twice : PinsTwice "octo/deploy@main@v4" := by
    rw [pinsTwice_iff cutBranch]
    decide +kernel
  obtain ⟨ref, branch, -⟩ := (pinned_iff_of_isStrictlyPinned branched).2 twice
  exact ⟨⟨versioned, ((pinned_iff_of_isStrictlyPinned versioned).1.mpr once).1⟩, branched, ref,
    branch⟩

end Action

end WorkflowAudit
