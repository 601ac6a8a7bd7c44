import WorkflowAudit.Proofs.Script.Parser.Phrase
import WorkflowAudit.Script.Parser.Statement

/-!
# What productions take

A production takes tokens on which what it gives stands. This is said once for single tokens,
loops and separated lists, and assumed of the level below, which `Level.Sound` records.
-/

namespace WorkflowAudit.Script

/-! ## Single tokens -/

/-- Whether a test lets only tokens pass that end no line and open no bracket. -/
def Plain (test : Cursor → Bool) : Prop :=
  ∀ ⦃c : Cursor⦄ ⦃t : Token⦄ ⦃ts : List Token⦄, c.rest = t :: ts → test c = true →
    t.kind ≠ .newline ∧ t.weight ≤ 0

theorem weight_le_of_text {t : Token} (h : t.text ∉ ["(", "[", "\x7b"]) : t.weight ≤ 0 := by
  unfold Token.weight
  split
  · rw [if_neg (by simpa using h)]
    split <;> decide
  · decide

theorem weight_of_name {t : Token} (h : t.kind = .name) : t.weight = 0 :=
  Token.weight_of_ne_op (by rw [h]; exact TokenKind.noConfusion)

theorem weight_opening {t : Token} (h : t.kind = .op) (ht : t.text ∈ ["(", "[", "\x7b"]) :
    t.weight = 1 := by
  rw [Token.weight, if_pos h, if_pos (by simpa using ht)]

theorem weight_closing {t : Token} (h : t.kind = .op) (ht : t.text ∈ [")", "]", "\x7d"]) :
    t.weight = -1 := by
  have hopen : ∀ s ∈ [")", "]", "\x7d"], s ∉ ["(", "[", "\x7b"] := by decide
  rw [Token.weight, if_pos h, if_neg (by simpa using hopen _ ht), if_pos (by simpa using ht)]

theorem plain_isAnyOp {texts : List String} (h : ∀ s ∈ texts, s ∉ ["(", "[", "\x7b"]) :
    Plain (·.isAnyOp texts) := by
  intro c t ts hrest htest
  obtain ⟨t', ts', hrest', hkind, htext⟩ := Cursor.isAnyOp_iff.mp htest
  obtain ⟨rfl, -⟩ := List.cons.inj (hrest.symm.trans hrest')
  exact ⟨by rw [hkind]; exact TokenKind.noConfusion, weight_le_of_text (h _ htext)⟩

theorem plain_isOp {text : String} (h : text ∉ ["(", "[", "\x7b"]) : Plain (·.isOp text) := by
  intro c t ts hrest htest
  obtain ⟨t', ts', hrest', hkind, rfl⟩ := Cursor.isOp_iff.mp htest
  obtain ⟨rfl, -⟩ := List.cons.inj (hrest.symm.trans hrest')
  exact ⟨by rw [hkind]; exact TokenKind.noConfusion, weight_le_of_text h⟩

theorem plain_isName (text : String) : Plain (·.isName text) := by
  intro c t ts hrest htest
  obtain ⟨t', ts', hrest', hkind, -⟩ := Cursor.isName_iff.mp htest
  obtain ⟨rfl, -⟩ := List.cons.inj (hrest.symm.trans hrest')
  exact ⟨by rw [hkind]; exact TokenKind.noConfusion, Int.le_of_eq (weight_of_name hkind)⟩

theorem Plain.or {test test' : Cursor → Bool} (h : Plain test) (h' : Plain test') :
    Plain fun c => test c || test' c := by
  intro c t ts hrest htest
  rcases Bool.or_eq_true_iff.mp htest with htest | htest
  · exact h hrest htest
  · exact h' hrest htest

theorem Plain.and {test : Cursor → Bool} (h : Plain test) (test' : Cursor → Bool) :
    Plain fun c => test c && test' c :=
  fun _ _ _ hrest htest => h hrest (Bool.and_eq_true_iff.mp htest).1

namespace Took

/-- An operator that opens no bracket. -/
theorem anyOp {c : Cursor} {texts : List String} (h : c.isAnyOp texts = true)
    (ht : ∀ s ∈ texts, s ∉ ["(", "[", "\x7b"]) :
    ∃ ts, Took c ts c.advance ∧ Opens ts ∧ Spread ts [] := by
  obtain ⟨t, ts, hrest, hkind, htext⟩ := Cursor.isAnyOp_iff.mp h
  exact ⟨[t], .advance hrest, opens_cons (by rw [hkind]; rfl) [],
    .token (by rw [hkind]; decide) (weight_le_of_text (ht _ htext))⟩

theorem op {c : Cursor} {text : String} (h : c.isOp text = true)
    (ht : text ∉ ["(", "[", "\x7b"]) :
    ∃ ts, Took c ts c.advance ∧ Opens ts ∧ Spread ts [] := by
  obtain ⟨t, ts, hrest, hkind, htext⟩ := Cursor.isOp_iff.mp h
  exact ⟨[t], .advance hrest, opens_cons (by rw [hkind]; rfl) [],
    .token (by rw [hkind]; decide) (weight_le_of_text (htext ▸ ht))⟩

theorem name {c : Cursor} (h : c.peek.kind = .name) :
    ∃ ts, Took c ts c.advance ∧ Opens ts ∧ Spread ts [] := by
  obtain ⟨t, ts, hrest, hkind⟩ := (Cursor.isKind_iff (show TokenKind.name ≠ .endMarker by decide)).mp
    (by simpa [Cursor.isKind] using h)
  exact ⟨[t], .advance hrest, opens_cons (by rw [hkind]; rfl) [],
    .token (by rw [hkind]; decide) (Int.le_of_eq (weight_of_name hkind))⟩

theorem word {c : Cursor} {text : String} (h : c.isName text = true) :
    ∃ ts, Took c ts c.advance ∧ Opens ts ∧ Spread ts [] :=
  name (of_decide_eq_true (Bool.and_eq_true_iff.mp h).1)

theorem peek_kind {c : Cursor} {kind : TokenKind} (h : c.peek.kind = kind)
    (hkind : kind ≠ .endMarker) : Took c [c.peek] c.advance := by
  obtain ⟨t, ts, hrest, ht⟩ := (Cursor.isKind_iff hkind).mp (by simpa [Cursor.isKind] using h)
  rw [Cursor.peek_of_rest hrest]
  exact .advance hrest

/-- What a loop takes has a property that an empty run has, and that another turn keeps. -/
theorem of_loop {test : Cursor → Bool} {turn : Token → Parser (Parser.Turn α)}
    {P : List Token → List α → Prop} (hnil : P [] [])
    (hstop : ∀ {c t ts d}, c.rest = t :: ts → test c = true →
      Parser.Runs (turn t) c.advance .stop d → ∃ us, Took c.advance us d ∧ P (t :: us) [])
    (hitem : ∀ {c t ts a m}, c.rest = t :: ts → test c = true →
      Parser.Runs (turn t) c.advance (.item a) m →
        ∃ us, Took c.advance us m ∧ ∀ vs as, P vs as → P (t :: us ++ vs) (a :: as))
    {c d : Cursor} {as : List α} (h : Parser.Runs (Parser.loop test turn) c as d) :
    ∃ ts, Took c ts d ∧ P ts as := by
  rw [Parser.runs_loop] at h
  induction h with
  | done => exact ⟨[], .refl _, hnil⟩
  | stop hrest htest hturn =>
    obtain ⟨us, htook, hus⟩ := hstop hrest htest hturn
    exact ⟨_, (Took.advance hrest).trans htook, hus⟩
  | item hrest htest hturn hmore ih =>
    obtain ⟨us, htook, hus⟩ := hitem hrest htest hturn
    obtain ⟨vs, htook', hvs⟩ := ih
    exact ⟨_, ((Took.advance hrest).trans htook).trans htook', hus vs _ hvs⟩

/-- What is taken between separators has a property that each of its parts has. -/
theorem of_separated {P : List Token → List α → Prop} (hnil : P [] [])
    (happend : ∀ {ts us as bs}, P ts as → P us bs → P (ts ++ us) (as ++ bs))
    {separator : String} {closing : Cursor → Bool} {item : Parser α}
    (hmark : ∀ {t : Token}, t.kind = .op → t.text = separator → P [t] [])
    (hitem : ∀ {c a d}, Parser.Runs item c a d → ∃ ts, Took c ts d ∧ P ts [a]) {c d : Cursor}
    {as : List α} (h : Parser.Runs (Parser.separated separator closing item) c as d) :
    ∃ ts, Took c ts d ∧ P ts as := by
  have hop : ∀ {c : Cursor} {t : Token} {ts : List Token}, c.rest = t :: ts →
      c.isOp separator = true → P [t] [] := by
    intro c t ts hrest htest
    obtain ⟨t', ts', hrest', hkind, htext⟩ := Cursor.isOp_iff.mp htest
    obtain ⟨rfl, -⟩ := List.cons.inj (hrest.symm.trans hrest')
    exact hmark hkind htext
  refine of_loop hnil (fun hrest htest hturn => ?_) (fun hrest htest hturn => ?_) h
  · rw [Parser.runs_ask_bind, Parser.runs_ite] at hturn
    rcases hturn with ⟨-, hturn⟩ | ⟨-, hturn⟩
    · obtain ⟨-, rfl⟩ := Parser.runs_pure.mp hturn
      exact ⟨[], .refl _, hop hrest htest⟩
    · obtain ⟨a, -, ha⟩ := Parser.runs_bind_pure.mp hturn
      cases ha
  · rw [Parser.runs_ask_bind, Parser.runs_ite] at hturn
    rcases hturn with ⟨-, hturn⟩ | ⟨-, hturn⟩
    · cases (Parser.runs_pure.mp hturn).1
    · obtain ⟨a, ha, hitem'⟩ := Parser.runs_bind_pure.mp hturn
      cases hitem'
      obtain ⟨us, hus, ha⟩ := hitem ha
      exact ⟨us, hus, fun vs as hvs => happend (hop hrest htest) (happend ha hvs)⟩

end Took

namespace Parser

/-- A parser takes tokens on which the expression that it gives stands. -/
def Gives (p : Parser Expr) : Prop :=
  ∀ ⦃c : Cursor⦄ ⦃e : Expr⦄ ⦃d : Cursor⦄, Runs p c e d → ∃ ts, Took c ts d ∧ Stands ts e

/-- A parser takes tokens on which the expressions in what it gives stand. -/
def GivesAll (parts : α → List Expr) (p : Parser α) : Prop :=
  ∀ ⦃c : Cursor⦄ ⦃a : α⦄ ⦃d : Cursor⦄, Runs p c a d → ∃ ts, Took c ts d ∧ Spread ts (parts a)

theorem Gives.all {p : Parser Expr} (h : Gives p) : GivesAll (fun e => [e]) p := by
  intro c e d hrun
  obtain ⟨ts, htook, hts⟩ := h hrun
  exact ⟨ts, htook, hts.spread⟩

theorem Gives.nested {p : Parser Expr} (h : Gives p) : Gives (nested p) := by
  intro c e d hrun
  obtain ⟨-, m, hinner, rfl⟩ := runs_nested.mp hrun
  obtain ⟨ts, htook, hts⟩ := h hinner
  exact ⟨ts, htook.deeper, hts⟩

/-- A node over all tokens since a place. -/
theorem stands_of_took {c d : Cursor} {ts : List Token} {e : Expr} (h : Took c ts d)
    (hopens : Opens ts) (hparts : Spread ts e.children)
    (hspan : e.span = ⟨c.peek.span.start, max d.lastEnd c.peek.span.start⟩)
    (hfits : Fits ts e) (hplain : e.asCall? = none) : Stands ts e :=
  .node (Node.children_of_plain hplain ▸ hparts) (covers_of_took h hopens hspan) hfits

theorem GivesAll.pure {α : Type} (parts : α → List Expr) {a : α} (h : parts a = []) :
    GivesAll parts (Pure.pure a) := by
  intro c b d hrun
  obtain ⟨rfl, rfl⟩ := runs_pure.mp hrun
  exact ⟨[], .refl _, h ▸ .nil⟩

theorem GivesAll.bindPure {parts : α → List Expr} {parts' : β → List Expr} {p : Parser α}
    (h : GivesAll parts p) (f : α → β) (hf : ∀ a, parts' (f a) = parts a) :
    GivesAll parts' (p >>= fun a => Pure.pure (f a)) := by
  intro c b d hrun
  obtain ⟨a, hp, rfl⟩ := runs_bind_pure.mp hrun
  rw [hf]
  exact h hp

theorem GivesAll.ite {parts : α → List Expr} {p₁ p₂ : Parser α} {q : Prop} [Decidable q]
    (h₁ : GivesAll parts p₁) (h₂ : GivesAll parts p₂) : GivesAll parts (if q then p₁ else p₂) := by
  split
  · exact h₁
  · exact h₂

/-- A first step that reads no expression. -/
theorem GivesAll.skip {parts : β → List Expr} {p : Parser α} {f : α → Parser β}
    (h : GivesAll (fun _ => []) p) (hf : ∀ a, GivesAll parts (f a)) :
    GivesAll parts (p >>= f) := by
  intro c b d hrun
  obtain ⟨a, m, hp, hrun⟩ := runs_bind.mp hrun
  obtain ⟨ts, htook, hts⟩ := h hp
  obtain ⟨us, htook', hus⟩ := hf a hrun
  exact ⟨_, htook.trans htook', hts.append hus⟩

theorem gives_ask {f : Cursor → α} : GivesAll (fun _ => []) (ask f) := by
  intro c a d hrun
  obtain ⟨-, rfl⟩ := runs_ask.mp hrun
  exact ⟨[], .refl _, .nil⟩

theorem gives_eat {test : Cursor → Bool} (h : Plain test) : GivesAll (fun _ => []) (eat test) := by
  intro c taken d hrun
  rcases runs_eat.mp hrun with ⟨htest, -, rfl⟩ | ⟨-, -, rfl⟩
  · cases hrest : c.rest with
    | nil => exact ⟨[], by rw [Cursor.advance, hrest]; exact .refl c, .nil⟩
    | cons t ts =>
      have := h hrest htest
      exact ⟨[t], .advance hrest, .token this.1 this.2⟩
  · exact ⟨[], .refl _, .nil⟩

theorem GivesAll.loop {parts : α → List Expr} {test : Cursor → Bool}
    {turn : Token → Parser (Turn α)} (htest : Plain test)
    (hturn : ∀ {c t ts a d}, c.rest = t :: ts → test c = true → Runs (turn t) c.advance a d →
      ∃ us, Took c.advance us d ∧ Spread us (turnParts parts a)) :
    GivesAll (·.flatMap parts) (loop test turn) := by
  intro c as d hrun
  refine Took.of_loop (P := fun ts as => Spread ts (as.flatMap parts)) .nil ?_ ?_ hrun
  · intro c t ts d hrest hpass hrun
    obtain ⟨us, htook, hus⟩ := hturn hrest hpass hrun
    have := htest hrest hpass
    exact ⟨us, htook, hus.cons this.1 this.2⟩
  · intro c t ts a m hrest hpass hrun
    obtain ⟨us, htook, hus⟩ := hturn hrest hpass hrun
    have := htest hrest hpass
    exact ⟨us, htook, fun vs as hvs => (hus.append hvs).cons this.1 this.2⟩

theorem GivesAll.loopItems {parts : α → List Expr} {item : Parser α} (h : GivesAll parts item)
    {test : Cursor → Bool} (htest : Plain test) :
    GivesAll (·.flatMap parts) (loopItems test item) :=
  .loop htest fun _ _ hrun => h.bindPure Turn.item (fun _ => rfl) hrun

theorem GivesAll.separated {parts : α → List Expr} {item : Parser α} (h : GivesAll parts item)
    {separator : String} (hseparator : separator ∉ ["(", "[", "\x7b"]) (closing : Cursor → Bool) :
    GivesAll (·.flatMap parts) (separated separator closing item) := by
  intro c as d hrun
  refine Took.of_separated (P := fun ts as => Spread ts (as.flatMap parts)) .nil ?_ ?_ ?_ hrun
  · intro ts us as bs hts hus
    rw [List.flatMap_append]
    exact hts.append hus
  · intro t hkind htext
    exact .token (by rw [hkind]; decide) (weight_le_of_text (htext ▸ hseparator))
  · intro c a d hitem
    simpa using h hitem

theorem Gives.loopItems {item : Parser Expr} (h : Gives item) {test : Cursor → Bool}
    (htest : Plain test) : GivesAll id (loopItems test item) := by
  intro c es d hrun
  simpa only [List.flatMap_singleton', id] using h.all.loopItems htest hrun

theorem Gives.separated {item : Parser Expr} (h : Gives item) {separator : String}
    (hseparator : separator ∉ ["(", "[", "\x7b"]) (closing : Cursor → Bool) :
    GivesAll id (separated separator closing item) := by
  intro c es d hrun
  simpa only [List.flatMap_singleton', id] using h.all.separated hseparator closing hrun

/-! ## Displays and arguments -/

/-- The nodes that a display may become. -/
structure Builds (build : Span → List Expr → Expr) : Prop where
  span : ∀ s es, (build s es).span = s
  children : ∀ s es, (build s es).children = es
  fits : ∀ s es ts, Fits ts (build s es)
  plain : ∀ s es, (build s es).asCall? = none

theorem builds_tuple : Builds .tuple :=
  ⟨fun _ _ => rfl, fun _ _ => rfl, fun _ _ _ => trivial, fun _ _ => rfl⟩

theorem builds_list : Builds .list :=
  ⟨fun _ _ => rfl, fun _ _ => rfl, fun _ _ _ => trivial, fun _ _ => rfl⟩

theorem builds_set : Builds .set :=
  ⟨fun _ _ => rfl, fun _ _ => rfl, fun _ _ _ => trivial, fun _ _ => rfl⟩

/-- An asynchronous clause has one more word before its target. -/
theorem second_atComprehension {c : Cursor} {t : Token} {ts : List Token} (hrest : c.rest = t :: ts)
    (h : atComprehension c = true) (hasync : t.text = "async") :
    c.advance.isName "for" = true := by
  have hfor : c.isName "for" = false := by
    simp [Cursor.isName, Cursor.peek_of_rest hrest, hasync]
  rw [atComprehension, hfor, Bool.false_or, Bool.and_eq_true_iff, Cursor.second?, hrest] at h
  cases ts with
  | nil => simp at h
  | cons u ts =>
    simpa [Cursor.isName, Cursor.peek_of_rest (Cursor.rest_advance hrest)] using h.2

theorem atKeywordArgument_iff {c : Cursor} : atKeywordArgument c = true ↔
    ∃ t l ts, c.rest = t :: l :: ts ∧ t.kind = .name ∧ l.kind = .op ∧ l.text = "=" := by
  unfold atKeywordArgument Cursor.second? Cursor.isKind Cursor.peek
  rcases c.rest with _ | ⟨t, _ | ⟨l, ts⟩⟩ <;> simp

/-! ## Levels -/

/-- A production that goes on after an expression stands on its tokens and those of the
    expression. -/
def GivesLink (link : Nat → Expr → Parser Expr) : Prop :=
  ∀ ⦃start c : Cursor⦄ ⦃before : List Token⦄ ⦃base e : Expr⦄ ⦃d : Cursor⦄, Took start before c →
    Stands before base → Runs (link start.peek.span.start base) c e d →
      ∃ ts, Took c ts d ∧ Stands (before ++ ts) e

/-- A production that goes on after an opening bracket stands on its tokens and the bracket. -/
def GivesBracketed (p : Nat → Parser Expr) : Prop :=
  ∀ ⦃start c : Cursor⦄ ⦃l : Token⦄ ⦃e : Expr⦄ ⦃d : Cursor⦄, Took start [l] c → l.kind = .op →
    l.weight = 1 → Runs (p start.peek.span.start) c e d → ∃ ts, Took c ts d ∧ Stands (l :: ts) e

end Parser

/-- The expressions of a level stand on the tokens they were read from. -/
structure Level.Sound (inner : Level) : Prop where
  phrased : inner.Phrased
  test : Parser.Gives inner.test
  notTest : Parser.Gives inner.notTest
  factor : Parser.Gives inner.factor
  power : Parser.Gives inner.power
  link : Parser.GivesLink inner.link
  paren : Parser.GivesBracketed inner.paren
  list : Parser.GivesBracketed inner.list
  brace : Parser.GivesBracketed inner.brace

end WorkflowAudit.Script
