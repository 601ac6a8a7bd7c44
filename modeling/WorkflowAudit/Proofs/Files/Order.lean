import Mathlib.Data.String.Basic
import WorkflowAudit.Proofs.Files.Extend

/-! # The order of paths

Any two paths can be compared by their components, and the order is transitive. A path continued by names has
the components of the path and then the names, so below one directory the order is that of the names, one
after another.
-/

namespace WorkflowAudit.Path

variable {base : String} {place place' : List String}

/-! ## Components -/

namespace Component

variable {a b c : Component}

theorem before_iff : a.before b = true ↔
    a.rank < b.rank ∨ ∃ x y, a = .normal x ∧ b = .normal y ∧ x < y := by
  cases a <;> cases b <;> simp [-String.lt_iff_ltb, before, rank]

theorem before_irrefl (a : Component) : a.before a = false := by
  rw [← Bool.not_eq_true, before_iff]
  rintro (less | ⟨x, y, rfl, same, less⟩)
  · exact Nat.lt_irrefl _ less
  · obtain rfl := normal.inj same
    exact String.lt_irrefl _ less

theorem before_trans (first : a.before b = true) (second : b.before c = true) :
    a.before c = true := by
  rw [before_iff] at first second ⊢
  rcases first with first | ⟨x, y, rfl, rfl, first⟩
  · rcases second with second | ⟨y, z, rfl, rfl, -⟩
    · exact .inl (Nat.lt_trans first second)
    · exact .inl first
  · rcases second with second | ⟨y, z, same, rfl, second⟩
    · exact .inl second
    · obtain rfl := normal.inj same
      exact .inr ⟨x, z, rfl, rfl, String.lt_trans first second⟩

theorem before_total (differs : a ≠ b) : a.before b = true ∨ b.before a = true := by
  rw [before_iff, before_iff]
  rcases Nat.lt_trichotomy a.rank b.rank with less | same | less
  · exact .inl (.inl less)
  · obtain ⟨x, y, rfl, rfl⟩ : ∃ x y, a = .normal x ∧ b = .normal y := by
      cases a <;> cases b <;> first | exact absurd rfl differs | exact ⟨_, _, rfl, rfl⟩ | cases same
    rcases lt_trichotomy x y with less | same | less
    · exact .inl (.inr ⟨x, y, rfl, rfl, less⟩)
    · exact absurd (congrArg normal same) differs
    · exact .inr (.inr ⟨y, x, rfl, rfl, less⟩)
  · exact .inr (.inl less)

end Component

theorem componentsLe_total (as bs : List Component) :
    componentsLe as bs = true ∨ componentsLe bs as = true := by
  induction as generalizing bs with
  | nil => exact .inl rfl
  | cons a as ih =>
      cases bs with
      | nil => exact .inr rfl
      | cons b bs =>
          rw [componentsLe, componentsLe]
          by_cases same : a = b
          · rw [if_pos same, if_pos same.symm]
            exact ih bs
          · rw [if_neg same, if_neg (Ne.symm same)]
            exact Component.before_total same

theorem componentsLe_trans {as bs cs : List Component} (first : componentsLe as bs = true)
    (second : componentsLe bs cs = true) : componentsLe as cs = true := by
  induction as generalizing bs cs with
  | nil => rfl
  | cons a as ih =>
      cases bs with
      | nil => cases first
      | cons b bs =>
          cases cs with
          | nil => cases second
          | cons c cs =>
              rw [componentsLe] at first second ⊢
              by_cases ab : a = b
              · subst ab
                rw [if_pos rfl] at first
                by_cases ac : a = c
                · subst ac
                  rw [if_pos rfl] at second ⊢
                  exact ih first second
                · rwa [if_neg ac] at second ⊢
              · rw [if_neg ab] at first
                by_cases bc : b = c
                · subst bc
                  rwa [if_neg ab]
                · rw [if_neg bc] at second
                  have less := Component.before_trans first second
                  have ac : a ≠ c := by
                    rintro rfl
                    rw [Component.before_irrefl] at less
                    cases less
                  rwa [if_neg ac]

theorem componentsLe_append (cs as bs : List Component) :
    componentsLe (cs ++ as) (cs ++ bs) = componentsLe as bs := by
  induction cs with
  | nil => rfl
  | cons c cs ih => rw [List.cons_append, List.cons_append, componentsLe, if_pos rfl, ih]

/-- Names compare one after another. -/
theorem componentsLe_names :
    componentsLe (place.map .normal) (place'.map .normal) = true ↔
      place = place' ∨ List.Lex (· < ·) place place' := by
  induction place generalizing place' with
  | nil =>
      cases place' with
      | nil => simp [componentsLe]
      | cons name' place' => exact iff_of_true rfl (.inr .nil)
  | cons name place ih =>
      cases place' with
      | nil =>
          refine iff_of_false (by simp [componentsLe]) ?_
          rintro (same | less)
          · cases same
          · cases less
      | cons name' place' =>
          rw [List.map_cons, List.map_cons, componentsLe]
          by_cases same : name = name'
          · subst same
            rw [if_pos rfl, ih, List.cons_inj_right]
            refine or_congr_right ⟨.cons, fun less => ?_⟩
            cases less with
            | rel less => exact absurd less (String.lt_irrefl _)
            | cons less => exact less
          · rw [if_neg (fun same' => same (Component.normal.inj same'))]
            simp only [Component.before, decide_eq_true_eq]
            constructor
            · exact fun less => .inr (.rel less)
            · rintro (same' | less)
              · exact absurd (List.cons.inj same').1 same
              · cases less with
                | rel less => exact less
                | cons => exact absurd rfl same

/-! ## Paths -/

theorem le_total (a b : String) : le a b = true ∨ le b a = true := componentsLe_total _ _

theorem le_trans (a b c : String) (first : le a b = true) (second : le b c = true) : le a c = true :=
  componentsLe_trans first second

/-- Below one path the order is that of the names. -/
theorem le_extend (names : ∀ name ∈ place, IsName name) (names' : ∀ name ∈ place', IsName name) :
    le (extend base place) (extend base place') = true ↔
      place = place' ∨ List.Lex (· < ·) place place' := by
  rw [le, components_extend names, components_extend names', componentsLe_append, componentsLe_names]

/-- A path that comes before another one and is told apart from it. -/
def Before (a b : String) : Prop := le a b = true ∧ le b a = false

theorem before_extend_iff (names : ∀ name ∈ place, IsName name) (names' : ∀ name ∈ place', IsName name) :
    Before (extend base place) (extend base place') ↔ List.Lex (· < ·) place place' := by
  rw [Before, ← Bool.not_eq_true, le_extend names names', le_extend names' names, not_or]
  constructor
  · rintro ⟨same | less, differs, -⟩
    · exact absurd same.symm differs
    · exact less
  · intro less
    have asymm := List.lex_asymm (r := (· < ·)) (fun {_ _} => String.lt_asymm) less
    refine ⟨.inr less, ?_, asymm⟩
    rintro rfl
    exact asymm less

end WorkflowAudit.Path
