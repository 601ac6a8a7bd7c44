import Mathlib.Tactic.Common
import WorkflowAudit.Script.Parser.Statement

/-!
# Runs of parsers

`Runs p c a d` says that a parser gives `a` at `c` and stops at `d`. Each way to put parsers
together has one law that says what its runs are made of, so a production can be read as what
it takes and what it gives, forwards and backwards.
-/

namespace WorkflowAudit.Script

namespace Cursor

theorem isOp_iff {text : String} {c : Cursor} :
    c.isOp text = true ↔ ∃ t ts, c.rest = t :: ts ∧ t.kind = .op ∧ t.text = text := by
  unfold isOp peek
  cases c.rest <;> simp

theorem isName_iff {text : String} {c : Cursor} :
    c.isName text = true ↔ ∃ t ts, c.rest = t :: ts ∧ t.kind = .name ∧ t.text = text := by
  unfold isName peek
  cases c.rest <;> simp

theorem isAnyOp_iff {texts : List String} {c : Cursor} :
    c.isAnyOp texts = true ↔ ∃ t ts, c.rest = t :: ts ∧ t.kind = .op ∧ t.text ∈ texts := by
  unfold isAnyOp peek
  cases c.rest <;> simp

theorem isKind_iff {kind : TokenKind} {c : Cursor} (h : kind ≠ .endMarker) :
    c.isKind kind = true ↔ ∃ t ts, c.rest = t :: ts ∧ t.kind = kind := by
  unfold isKind peek
  cases c.rest <;> simp [h.symm]

theorem peek_of_rest {c : Cursor} {t : Token} {ts : List Token} (h : c.rest = t :: ts) :
    c.peek = t := by
  rw [peek, h]
  rfl

theorem rest_advance {c : Cursor} {t : Token} {ts : List Token} (h : c.rest = t :: ts) :
    c.advance.rest = ts := by
  unfold advance
  rw [h]

end Cursor

namespace Parser

/-- A parser gives a value at one cursor and stops at another. -/
def Runs (p : Parser α) (c : Cursor) (a : α) (d : Cursor) : Prop :=
  ∃ h, p c = .ok ⟨a, d, h⟩

section

variable {α β : Type} {c d : Cursor}

@[simp] theorem runs_pure {a b : α} : Runs (pure a : Parser α) c b d ↔ b = a ∧ d = c := by
  constructor
  · rintro ⟨h, hrun⟩
    cases hrun
    exact ⟨rfl, rfl⟩
  · rintro ⟨rfl, rfl⟩
    exact ⟨_, rfl⟩

@[simp] theorem runs_bind {p : Parser α} {f : α → Parser β} {b : β} :
    Runs (p >>= f) c b d ↔ ∃ a m, Runs p c a m ∧ Runs (f a) m b d := by
  constructor
  · rintro ⟨h, hrun⟩
    simp only [bind] at hrun
    split at hrun
    case h_1 => cases hrun
    case h_2 a m hm hp =>
      split at hrun
      case h_1 => cases hrun
      case h_2 b' d' hd hf =>
        cases hrun
        exact ⟨a, m, ⟨hm, hp⟩, ⟨hd, hf⟩⟩
  · rintro ⟨a, m, ⟨hm, hp⟩, ⟨hd, hf⟩⟩
    refine ⟨Nat.le_trans hd hm, ?_⟩
    simp only [bind, hp, hf]

@[simp] theorem runs_map {p : Parser α} {f : α → β} {b : β} :
    Runs (f <$> p) c b d ↔ ∃ a, Runs p c a d ∧ b = f a := by
  have hmap : f <$> p = p >>= fun a => pure (f a) := rfl
  rw [hmap, runs_bind]
  constructor
  · rintro ⟨a, m, hp, hpure⟩
    obtain ⟨rfl, rfl⟩ := runs_pure.mp hpure
    exact ⟨a, hp, rfl⟩
  · rintro ⟨a, hp, rfl⟩
    exact ⟨a, d, hp, runs_pure.mpr ⟨rfl, rfl⟩⟩

@[simp] theorem runs_ask {f : Cursor → α} {a : α} : Runs (ask f) c a d ↔ a = f c ∧ d = c := by
  constructor
  · rintro ⟨h, hrun⟩
    cases hrun
    exact ⟨rfl, rfl⟩
  · rintro ⟨rfl, rfl⟩
    exact ⟨_, rfl⟩

@[simp] theorem runs_bump {t : Token} : Runs bump c t d ↔ t = c.peek ∧ d = c.advance := by
  constructor
  · rintro ⟨h, hrun⟩
    cases hrun
    exact ⟨rfl, rfl⟩
  · rintro ⟨rfl, rfl⟩
    exact ⟨_, rfl⟩

@[simp] theorem runs_failWith {fault : SyntaxFault} {a : α} :
    Runs (failWith fault) c a d ↔ False := by
  simp [Runs, failWith]

@[simp] theorem runs_failAt {fault : SyntaxFault} {offset : Nat} {a : α} :
    Runs (failAt fault offset) c a d ↔ False := by
  simp [Runs, failAt]

@[simp] theorem runs_unexpectedToken {a : α} : Runs unexpectedToken c a d ↔ False := by
  simp [Runs, unexpectedToken]

@[simp] theorem runs_ite {q : Prop} [Decidable q] {p₁ p₂ : Parser α} {a : α} :
    Runs (if q then p₁ else p₂) c a d ↔ (q ∧ Runs p₁ c a d) ∨ (¬q ∧ Runs p₂ c a d) := by
  split <;> simp [*]

@[simp] theorem runs_eat {test : Cursor → Bool} {taken : Bool} :
    Runs (eat test) c taken d ↔
      (test c = true ∧ taken = true ∧ d = c.advance) ∨
        (test c = false ∧ taken = false ∧ d = c) := by
  simp only [eat, runs_bind, runs_ask, runs_ite, runs_bump, runs_pure]
  constructor
  · rintro ⟨_, _, ⟨rfl, rfl⟩, ⟨htest, _, _, ⟨-, rfl⟩, rfl, rfl⟩ | ⟨htest, rfl, rfl⟩⟩
    · exact .inl ⟨htest, rfl, rfl⟩
    · exact .inr ⟨by simpa using htest, rfl, rfl⟩
  · rintro (⟨htest, rfl, rfl⟩ | ⟨htest, rfl, rfl⟩)
    · exact ⟨_, _, ⟨rfl, rfl⟩, .inl ⟨htest, _, _, ⟨rfl, rfl⟩, rfl, rfl⟩⟩
    · exact ⟨_, _, ⟨rfl, rfl⟩, .inr ⟨by simp [htest], rfl, rfl⟩⟩

@[simp] theorem runs_expectOp {text : String} {u : Unit} :
    Runs (expectOp text) c u d ↔ c.isOp text = true ∧ d = c.advance := by
  simp [expectOp, eatOp]

@[simp] theorem runs_expectWord {text : String} {u : Unit} :
    Runs (expectWord text) c u d ↔ c.isName text = true ∧ d = c.advance := by
  simp [expectWord, eatName]

@[simp] theorem runs_expectKind {kind : TokenKind} {fault : SyntaxFault} {u : Unit} :
    Runs (expectKind kind fault) c u d ↔ c.isKind kind = true ∧ d = c.advance := by
  simp [expectKind]

@[simp] theorem runs_here {n : Nat} :
    Runs here c n d ↔ n = c.peek.span.start ∧ d = c := by
  simp [here]

@[simp] theorem runs_spanFrom {start : Nat} {s : Span} :
    Runs (spanFrom start) c s d ↔ s = ⟨start, max c.lastEnd start⟩ ∧ d = c := by
  simp [spanFrom]

@[simp] theorem runs_identifier {name : String} :
    Runs identifier c name d ↔
      (c.peek.kind = .name ∧ c.peek.text ∉ keywords) ∧ name = c.peek.text ∧ d = c.advance := by
  simp only [identifier, runs_bind, runs_ask, runs_ite, runs_bump, runs_pure, runs_failWith,
    and_false, or_false]
  constructor
  · rintro ⟨_, _, ⟨rfl, rfl⟩, htest, _, _, ⟨-, rfl⟩, rfl, rfl⟩
    exact ⟨by simpa using htest, rfl, rfl⟩
  · rintro ⟨htest, rfl, rfl⟩
    exact ⟨_, _, ⟨rfl, rfl⟩, by simpa using htest, _, _, ⟨rfl, rfl⟩, rfl, rfl⟩

/-! What begins with a step that cannot go two ways is followed by its rest alone. -/

theorem runs_pure_bind {a : α} {g : α → Parser β} {b : β} :
    Runs (pure a >>= g) c b d ↔ Runs (g a) c b d := by
  simp

theorem runs_ask_bind {f : Cursor → α} {g : α → Parser β} {b : β} :
    Runs (ask f >>= g) c b d ↔ Runs (g (f c)) c b d := by
  simp

theorem runs_here_bind {g : Nat → Parser β} {b : β} :
    Runs (here >>= g) c b d ↔ Runs (g c.peek.span.start) c b d := by
  simp

theorem runs_bump_bind {g : Token → Parser β} {b : β} :
    Runs (bump >>= g) c b d ↔ Runs (g c.peek) c.advance b d := by
  simp

theorem runs_eat_bind {test : Cursor → Bool} {g : Bool → Parser β} {b : β} :
    Runs (eat test >>= g) c b d ↔
      (test c = true ∧ Runs (g true) c.advance b d) ∨
        (test c = false ∧ Runs (g false) c b d) := by
  simp only [runs_bind, runs_eat]
  constructor
  · rintro ⟨_, _, ⟨htest, rfl, rfl⟩ | ⟨htest, rfl, rfl⟩, hrun⟩
    · exact .inl ⟨htest, hrun⟩
    · exact .inr ⟨htest, hrun⟩
  · rintro (⟨htest, hrun⟩ | ⟨htest, hrun⟩)
    · exact ⟨_, _, .inl ⟨htest, rfl, rfl⟩, hrun⟩
    · exact ⟨_, _, .inr ⟨htest, rfl, rfl⟩, hrun⟩

theorem runs_expectOp_bind {text : String} {g : Unit → Parser β} {b : β} :
    Runs (expectOp text >>= g) c b d ↔ c.isOp text = true ∧ Runs (g ()) c.advance b d := by
  simp only [runs_bind, runs_expectOp]
  constructor
  · rintro ⟨_, _, ⟨htest, rfl⟩, hrun⟩
    exact ⟨htest, hrun⟩
  · rintro ⟨htest, hrun⟩
    exact ⟨_, _, ⟨htest, rfl⟩, hrun⟩

theorem runs_spanFrom_pure {start : Nat} {f : Span → β} {b : β} :
    Runs (spanFrom start >>= fun s => pure (f s)) c b d ↔
      b = f ⟨start, max c.lastEnd start⟩ ∧ d = c := by
  simp [and_comm]

theorem runs_bind_pure {p : Parser α} {f : α → β} {b : β} :
    Runs (p >>= fun a => pure (f a)) c b d ↔ ∃ a, Runs p c a d ∧ b = f a :=
  runs_map

theorem runs_nested {p : Parser α} {a : α} :
    Runs (nested p) c a d ↔
      c.depth < levelLimit ∧ ∃ m, Runs p { c with depth := c.depth + 1 } a m ∧
        d = { m with depth := m.depth - 1 } := by
  constructor
  · rintro ⟨h, hrun⟩
    unfold nested at hrun
    split at hrun
    case isTrue => cases hrun
    case isFalse hroom =>
      split at hrun
      case h_1 => cases hrun
      case h_2 a' m hm hp =>
        cases hrun
        exact ⟨by omega, m, ⟨hm, hp⟩, rfl⟩
  · rintro ⟨hroom, m, ⟨hm, hp⟩, rfl⟩
    refine ⟨hm, ?_⟩
    unfold nested
    rw [if_neg (by omega), hp]

end

/-! ## Loops -/

/-- The runs of a loop, turn by turn. -/
inductive LoopRuns (test : Cursor → Bool) (turn : Token → Parser (Turn α)) :
    Cursor → List α → Cursor → Prop
  | done {c} (h : c.rest ≠ [] → test c = false) : LoopRuns test turn c [] c
  | stop {c d t ts} (hrest : c.rest = t :: ts) (htest : test c = true)
      (hturn : Runs (turn t) c.advance .stop d) : LoopRuns test turn c [] d
  | item {c m d t ts a as} (hrest : c.rest = t :: ts) (htest : test c = true)
      (hturn : Runs (turn t) c.advance (.item a) m) (hmore : LoopRuns test turn m as d) :
      LoopRuns test turn c (a :: as) d

theorem runs_loop {test : Cursor → Bool} {turn : Token → Parser (Turn α)} {c d : Cursor}
    {as : List α} : Runs (loop test turn) c as d ↔ LoopRuns test turn c as d := by
  constructor
  · rintro ⟨h, hrun⟩
    induction hn : c.rest.length using Nat.strongRecOn generalizing c as with
    | ind n ih =>
      unfold loop at hrun
      split at hrun
      case h_1 hrest =>
        cases hrun
        exact .done fun hne => absurd hrest hne
      case h_2 t ts hrest =>
        split at hrun
        case isFalse htest =>
          cases hrun
          exact .done fun _ => by simpa using htest
        case isTrue htest =>
          split at hrun
          case h_1 => cases hrun
          case h_2 m hm hturn =>
            cases hrun
            exact .stop hrest htest ⟨hm, hturn⟩
          case h_3 a m hm hturn =>
            split at hrun
            case h_1 => cases hrun
            case h_2 as' d' hd hmore =>
              cases hrun
              have hlt : m.rest.length < n := by
                rw [Cursor.rest_advance hrest] at hm
                rw [← hn, hrest, List.length_cons]
                omega
              exact .item hrest htest ⟨hm, hturn⟩ (ih _ hlt hd hmore rfl)
  · intro h
    induction h with
    | @done c h =>
      refine ⟨Nat.le_refl _, ?_⟩
      unfold loop
      split
      · rfl
      · rename_i hrest
        rw [if_neg (by rw [h (by simp [hrest])]; exact Bool.false_ne_true)]
    | @stop c d t ts hrest htest hturn =>
      obtain ⟨hd, hturn⟩ := hturn
      refine ⟨by rw [Cursor.length_advance] at hd; omega, ?_⟩
      unfold loop
      split
      case h_1 hrest' => simp [hrest] at hrest'
      case h_2 t' ts' hrest' =>
        obtain ⟨rfl, rfl⟩ := List.cons.inj (hrest.symm.trans hrest')
        rw [if_pos htest]
        simp only [hturn]
    | @item c m d t ts a as hrest htest hturn hmore ih =>
      obtain ⟨hm, hturn⟩ := hturn
      obtain ⟨hd, hmore⟩ := ih
      refine ⟨by rw [Cursor.length_advance] at hm; omega, ?_⟩
      unfold loop
      split
      case h_1 hrest' => simp [hrest] at hrest'
      case h_2 t' ts' hrest' =>
        obtain ⟨rfl, rfl⟩ := List.cons.inj (hrest.symm.trans hrest')
        rw [if_pos htest]
        simp only [hturn, hmore]

/-- The runs of a repetition, item by item. -/
inductive ManyRuns (test : Cursor → Bool) (item : Parser α) : Cursor → List α → Cursor → Prop
  | done {c} (htest : test c = false) : ManyRuns test item c [] c
  | last {c d a} (htest : test c = true) (hitem : Runs item c a d)
      (hsame : d.rest.length = c.rest.length) : ManyRuns test item c [a] d
  | item {c m d a as} (htest : test c = true) (hitem : Runs item c a m)
      (hless : m.rest.length < c.rest.length) (hmore : ManyRuns test item m as d) :
      ManyRuns test item c (a :: as) d

theorem runs_many {test : Cursor → Bool} {item : Parser α} {c d : Cursor} {as : List α} :
    Runs (many test item) c as d ↔ ManyRuns test item c as d := by
  constructor
  · rintro ⟨h, hrun⟩
    induction hn : c.rest.length using Nat.strongRecOn generalizing c as with
    | ind n ih =>
      unfold many at hrun
      split at hrun
      case isFalse htest =>
        cases hrun
        exact .done (by simpa using htest)
      case isTrue htest =>
        split at hrun
        case h_1 => cases hrun
        case h_2 a m hm hitem =>
          split at hrun
          case isFalse hsame =>
            cases hrun
            exact .last htest ⟨hm, hitem⟩ (by omega)
          case isTrue hless =>
            split at hrun
            case h_1 => cases hrun
            case h_2 as' d' hd hmore =>
              cases hrun
              exact .item htest ⟨hm, hitem⟩ hless (ih _ (hn ▸ hless) hd hmore rfl)
  · intro h
    induction h with
    | @done c htest =>
      refine ⟨Nat.le_refl _, ?_⟩
      unfold many
      rw [if_neg (by simp [htest])]
    | @last c d a htest hitem hsame =>
      obtain ⟨hd, hitem⟩ := hitem
      refine ⟨hd, ?_⟩
      unfold many
      rw [if_pos htest]
      simp only [hitem]
      rw [dif_neg (by omega)]
    | @item c m d a as htest hitem hless hmore ih =>
      obtain ⟨hm, hitem⟩ := hitem
      obtain ⟨hd, hmore⟩ := ih
      refine ⟨Nat.le_trans hd hm, ?_⟩
      unfold many
      rw [if_pos htest]
      simp only [hitem]
      rw [dif_pos hless]
      simp only [hmore]

end Parser

theorem exists_parse_of_isOk {text : String} (h : (parse text).isOk = true) :
    ∃ m, parse text = .ok m := by
  cases hparse : parse text with
  | ok m => exact ⟨m, rfl⟩
  | error =>
    rw [hparse] at h
    cases h

/-- A script parses exactly when its tokens are read as statements. -/
theorem parse_eq_ok_iff {text : String} {m : Module} :
    parse text = .ok m ↔ ∃ tokens d, tokenize text = .ok tokens ∧
      Parser.Runs (Parser.statements (Level.ofBudget levelLimit)) (.ofTokens tokens) m.body d ∧
      m.lines = .ofText text := by
  obtain ⟨body, lines⟩ := m
  unfold parse
  constructor
  · intro h
    cases htokens : tokenize text with
    | error => simp [htokens, bind, Except.bind] at h
    | ok tokens =>
      cases hparsed : Parser.statements (Level.ofBudget levelLimit) (.ofTokens tokens) with
      | error => simp [htokens, hparsed, bind, Except.bind] at h
      | ok parsed =>
        simp only [htokens, hparsed, bind, Except.bind, pure, Except.pure, Except.ok.injEq,
          Module.mk.injEq] at h
        obtain ⟨rfl, rfl⟩ := h
        exact ⟨tokens, parsed.cursor, rfl, ⟨parsed.notBefore, hparsed⟩, rfl⟩
  · rintro ⟨tokens, d, htokens, ⟨hle, hparsed⟩, rfl⟩
    simp [htokens, hparsed, bind, Except.bind, pure, Except.pure]

end WorkflowAudit.Script
