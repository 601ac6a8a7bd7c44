import Mathlib.Tactic.Common
import WorkflowAudit.Proofs.Script.Parser.Run
import WorkflowAudit.Script.Parser.Statement
import WorkflowAudit.Script.Walk

/-!
# Heights of trees and the count of open levels

Every production closes the levels that it opens, and the trees that it gives are not higher
than a bound that depends on the levels left alone: an operator adds one node for each rank,
each bracket starts over one level below, and the postfixes of one expression are as many as
the levels they open.
-/

namespace WorkflowAudit.Script

/-! ## Heights -/

/-- Whether every way down from an expression, itself included, meets at most `n` nodes. -/
def Expr.Within : Nat → Expr → Prop
  | 0, _ => False
  | n + 1, e => ∀ c ∈ e.children, c.Within n

/-- Whether statements are nested at most `n` deep, with expressions of height `k`. -/
def Stmt.Within (k : Nat) : Nat → Stmt → Prop
  | 0, _ => False
  | n + 1, s => (∀ e ∈ s.exprs, e.Within k) ∧ ∀ r ∈ s.inner, r.Within k n

namespace Expr

theorem Within.mono {m n : Nat} {e : Expr} (h : e.Within m) (hle : m ≤ n) : e.Within n := by
  induction m generalizing n e with
  | zero => exact h.elim
  | succ m ih =>
    cases n with
    | zero => omega
    | succ n => exact fun c hc => ih (h c hc) (by omega)

theorem within_of_children {n : Nat} {e : Expr} (hn : 0 < n) (h : e.children = []) :
    e.Within n := by
  cases n with
  | zero => omega
  | succ n =>
    intro c hc
    rw [h] at hc
    cases hc

/-- An expression is no higher than it is large. -/
theorem within_totalSize {es : List Expr} {e : Expr} (h : e ∈ es) : e.Within (totalSize es) := by
  have hsize : ∀ {es : List Expr} {e : Expr}, e ∈ es → sizeOf e ≤ totalSize es := by
    intro es e he
    obtain ⟨before, after, rfl⟩ := List.append_of_mem he
    rw [totalSize_append, totalSize_cons]
    omega
  have hwithin : ∀ (n : Nat) {e : Expr}, sizeOf e ≤ n → e.Within n := by
    intro n
    induction n with
    | zero =>
      intro e he
      have := totalSize_children e
      omega
    | succ n ih =>
      intro e he c hc
      have := totalSize_children e
      have := hsize hc
      exact ih (by omega)
  exact hwithin _ (hsize h)

theorem Within.withSpan {n : Nat} {e : Expr} (h : e.Within n) (s : Span) :
    (e.withSpan s).Within n := by
  cases n with
  | zero => exact h
  | succ n => cases e <;> exact h

end Expr

theorem Stmt.Within.mono {j k m n : Nat} {s : Stmt} (h : s.Within j m) (hjk : j ≤ k)
    (hmn : m ≤ n) : s.Within k n := by
  induction m generalizing n s with
  | zero => exact h.elim
  | succ m ih =>
    cases n with
    | zero => omega
    | succ n => exact ⟨fun e he => (h.1 e he).mono hjk, fun r hr => ih (h.2 r hr) (by omega)⟩

namespace Parser

/-! ## Parsers that keep the count -/

/-- What a parser gives passes a test, and it leaves as many levels open as it found. -/
def Keeps (ok : α → Prop) (p : Parser α) : Prop :=
  ∀ ⦃c : Cursor⦄ ⦃a : α⦄ ⦃d : Cursor⦄, Runs p c a d → ok a ∧ d.depth = c.depth

/-- Whether the item of a turn, if it has one, passes a test. -/
def Turn.All (ok : α → Prop) : Turn α → Prop
  | .item a => ok a
  | .stop => True

theorem forall_mem_flatten {P : α → Prop} {ass : List (List α)} (h : ∀ as ∈ ass, ∀ a ∈ as, P a) :
    ∀ a ∈ ass.flatten, P a := by
  intro a ha
  obtain ⟨as, has, ha⟩ := List.mem_flatten.mp ha
  exact h as has a ha

theorem depth_advance (c : Cursor) : c.advance.depth = c.depth := by
  unfold Cursor.advance
  split <;> rfl

/-- Every value passes. -/
abbrev Restores (p : Parser α) : Prop := Keeps (fun _ => True) p

namespace Keeps

variable {ok ok' : α → Prop}

theorem mono {p : Parser α} (h : Keeps ok p) (himp : ∀ a, ok a → ok' a) : Keeps ok' p :=
  fun _ a _ hrun => ⟨himp a (h hrun).1, (h hrun).2⟩

theorem restores {p : Parser α} (h : Keeps ok p) : Restores p := h.mono fun _ _ => trivial

theorem pure {a : α} (h : ok a) : Keeps ok (Pure.pure a) := by
  intro c b d hrun
  obtain ⟨rfl, rfl⟩ := runs_pure.mp hrun
  exact ⟨h, rfl⟩

theorem bind {p : Parser α} {f : α → Parser β} {ok' : β → Prop} (h : Keeps ok p)
    (hf : ∀ a, ok a → Keeps ok' (f a)) : Keeps ok' (p >>= f) := by
  intro c b d hrun
  obtain ⟨a, m, hp, hrun⟩ := runs_bind.mp hrun
  obtain ⟨ha, hdepth⟩ := h hp
  obtain ⟨hb, hdepth'⟩ := hf a ha hrun
  exact ⟨hb, hdepth'.trans hdepth⟩

theorem after {p : Parser α} {f : α → Parser β} {ok' : β → Prop} (h : Restores p)
    (hf : ∀ a, Keeps ok' (f a)) : Keeps ok' (p >>= f) :=
  h.bind fun a _ => hf a

theorem ite {p₁ p₂ : Parser α} {q : Prop} [Decidable q] (h₁ : Keeps ok p₁) (h₂ : Keeps ok p₂) :
    Keeps ok (if q then p₁ else p₂) := by
  split
  · exact h₁
  · exact h₂

theorem fails {p : Parser α} (h : ∀ c a d, ¬Runs p c a d) : Keeps ok p :=
  fun c a d hrun => absurd hrun (h c a d)

/-- The one place where the count changes. -/
theorem nested {p : Parser α} (h : Keeps ok p) : Keeps ok (nested p) := by
  intro c a d hrun
  obtain ⟨-, m, hinner, rfl⟩ := runs_nested.mp hrun
  obtain ⟨ha, hdepth⟩ := h hinner
  refine ⟨ha, ?_⟩
  change m.depth - 1 = c.depth
  rw [hdepth, Nat.add_sub_cancel]

theorem loop {test : Cursor → Bool} {turn : Token → Parser (Turn α)}
    (h : ∀ t, Keeps (Turn.All ok) (turn t)) :
    Keeps (∀ a ∈ ·, ok a) (Parser.loop test turn) := by
  intro c as d hrun
  rw [runs_loop] at hrun
  induction hrun with
  | done => simp
  | stop _ _ hturn => exact ⟨by simp, (h _ hturn).2.trans (depth_advance _)⟩
  | item _ _ hturn _ ih =>
    obtain ⟨ha, hdepth⟩ := h _ hturn
    exact ⟨List.forall_mem_cons.mpr ⟨ha, ih.1⟩,
      ih.2.trans (hdepth.trans (depth_advance _))⟩

theorem item {p : Parser α} (h : Keeps ok p) :
    Keeps (Turn.All ok) (p >>= fun a => Pure.pure (Turn.item a)) :=
  h.bind fun _ ha => .pure ha

theorem loopItems {test : Cursor → Bool} {p : Parser α} (h : Keeps ok p) :
    Keeps (∀ a ∈ ·, ok a) (loopItems test p) :=
  .loop fun _ => h.item

theorem separated {separator : String} {closing : Cursor → Bool} {p : Parser α}
    (h : Keeps ok p) : Keeps (∀ a ∈ ·, ok a) (separated separator closing p) := by
  refine .loop fun _ c turn d hrun => ?_
  rw [runs_ask_bind, runs_ite] at hrun
  rcases hrun with ⟨-, hrun⟩ | ⟨-, hrun⟩
  · obtain ⟨rfl, rfl⟩ := runs_pure.mp hrun
    exact ⟨trivial, rfl⟩
  · exact h.item hrun

theorem many {test : Cursor → Bool} {p : Parser α} (h : Keeps ok p) :
    Keeps (∀ a ∈ ·, ok a) (many test p) := by
  intro c as d hrun
  rw [runs_many] at hrun
  induction hrun with
  | done => simp
  | last _ hitem => simpa using h hitem
  | item _ hitem _ _ ih =>
    exact ⟨List.forall_mem_cons.mpr ⟨(h hitem).1, ih.1⟩, ih.2.trans (h hitem).2⟩

end Keeps

theorem restores_loop {test : Cursor → Bool} {turn : Token → Parser (Turn α)}
    (h : ∀ t, Restores (turn t)) : Restores (loop test turn) :=
  have hturn : ∀ turn : Turn α, turn.All fun _ => True := fun
    | .item _ => trivial
    | .stop => trivial
  (Keeps.loop fun t => (h t).mono fun turn _ => hturn turn).restores

theorem restores_loopItems {test : Cursor → Bool} {p : Parser α} (h : Restores p) :
    Restores (loopItems test p) :=
  h.loopItems.restores

theorem restores_ask {f : Cursor → α} : Restores (ask f) := by
  intro c a d hrun
  obtain ⟨-, rfl⟩ := runs_ask.mp hrun
  exact ⟨trivial, rfl⟩

theorem restores_bump : Restores bump := by
  intro c a d hrun
  obtain ⟨-, rfl⟩ := runs_bump.mp hrun
  exact ⟨trivial, depth_advance c⟩

theorem restores_eat {test : Cursor → Bool} : Restores (eat test) :=
  .after restores_ask fun _ => .ite (.after restores_bump fun _ => .pure trivial) (.pure trivial)

theorem restores_fail {fault : SyntaxFault} : Restores (failWith fault : Parser α) :=
  .fails (by simp)

theorem restores_expectOp {text : String} : Restores (expectOp text) :=
  .after restores_eat fun _ => .ite (.pure trivial) restores_fail

theorem restores_expectWord {text : String} : Restores (expectWord text) :=
  .after restores_eat fun _ => .ite (.pure trivial) restores_fail

theorem restores_expectKind {kind : TokenKind} {fault : SyntaxFault} :
    Restores (expectKind kind fault) :=
  .after restores_eat fun _ => .ite (.pure trivial) restores_fail

theorem restores_identifier : Restores identifier :=
  .after restores_ask fun _ => .ite (.after restores_bump fun _ => .pure trivial) restores_fail

/-- A node over expressions that were read before it. -/
theorem keeps_node {n start : Nat} {build : Span → Expr}
    (h : ∀ s, ∀ c ∈ (build s).children, c.Within n) :
    Keeps (Expr.Within (n + 1)) (spanFrom start >>= fun s => Pure.pure (build s)) :=
  .after restores_ask fun s => .pure (h s)

end Parser

/-- The trees that the productions of a level give are of height `k`, with `l` more nodes for the
postfixes after an expression, and statements nested `l` deep. -/
structure Level.Bounded (inner : Level) (k l : Nat) : Prop where
  pos : 0 < k
  test : Parser.Keeps (Expr.Within k) inner.test
  notTest : Parser.Keeps (Expr.Within k) inner.notTest
  factor : Parser.Keeps (Expr.Within k) inner.factor
  power : Parser.Keeps (Expr.Within k) inner.power
  link : ∀ {start n base}, base.Within n →
    Parser.Keeps (Expr.Within (max n k + l)) (inner.link start base)
  paren : ∀ start, Parser.Keeps (Expr.Within k) (inner.paren start)
  list : ∀ start, Parser.Keeps (Expr.Within k) (inner.list start)
  brace : ∀ start, Parser.Keeps (Expr.Within k) (inner.brace start)
  suite : Parser.Keeps (∀ s ∈ ·, s.Within k l) inner.suite

theorem Level.Bounded.mono {inner : Level} {j k l : Nat} (h : inner.Bounded j l) (hle : j ≤ k) :
    inner.Bounded k l where
  pos := Nat.lt_of_lt_of_le h.pos hle
  test := h.test.mono fun _ he => he.mono hle
  notTest := h.notTest.mono fun _ he => he.mono hle
  factor := h.factor.mono fun _ he => he.mono hle
  power := h.power.mono fun _ he => he.mono hle
  link hbase := (h.link hbase).mono fun _ he => he.mono (by omega)
  paren start := (h.paren start).mono fun _ he => he.mono hle
  list start := (h.list start).mono fun _ he => he.mono hle
  brace start := (h.brace start).mono fun _ he => he.mono hle
  suite := h.suite.mono fun _ hss s hs => (hss s hs).mono hle (Nat.le_refl l)

end WorkflowAudit.Script
