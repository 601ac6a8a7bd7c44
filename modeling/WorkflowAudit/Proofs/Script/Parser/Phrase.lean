import WorkflowAudit.Proofs.Script.Parser.Placement

/-!
# Parsers that read phrases

What a production takes is a phrase of the expression that it gives. `Phrased` says which
expressions the tokens between two cursors make up and how these tokens end. `Says` says what a
parser does from there, with one law for each way to put parsers together.
-/

namespace WorkflowAudit.Script

/-! ## Phrases and their ends -/

theorem endsOperand_of_op {t : Token} (h : t.kind = .op) :
    t.endsOperand = [")", "]", "\x7d", "..."].contains t.text := by
  rw [Token.endsOperand, h]

theorem endsOperand_opening {l : Token} (hkind : l.kind = .op)
    (htext : l.text ∈ ["(", "[", "\x7b"]) : l.endsOperand = false := by
  have hopening : ∀ s ∈ ["(", "[", "\x7b"], [")", "]", "\x7d", "..."].contains s = false := by
    decide
  rw [endsOperand_of_op hkind, hopening _ htext]

theorem endsOperand_closing {r : Token} (hkind : r.kind = .op)
    (htext : r.text ∈ [")", "]", "\x7d"]) : r.endsOperand = true := by
  have hclosing : ∀ s ∈ [")", "]", "\x7d"], [")", "]", "\x7d", "..."].contains s = true := by
    decide
  rw [endsOperand_of_op hkind, hclosing _ htext]

theorem Phrase.opens {previous : Option Token} {ts : List Token} {es : List Expr}
    {vs : List (Option Token × Token)} (h : Phrase previous ts es vs) (hne : ts ≠ []) :
    Opens ts := by
  induction h with
  | nil => exact absurd rfl hne
  | word _ text => exact opens_cons text []
  | @append _ ts us _ _ _ _ _ _ first more =>
    cases ts with
    | nil => exact more hne
    | cons t ts => exact (first (List.cons_ne_nil t ts)).append us
  | node _ _ _ ih => exact ih hne
  | group opening | brackets opening | parameters _ opening =>
    exact opens_cons (by rw [opening.1]; rfl) _
  | @call _ l r ts us _ _ _ _ _ _ _ _ _ opening _ _ _ callee =>
    cases ts with
    | nil => exact opens_cons (by rw [opening.1]; rfl) _
    | cons t ts => exact (callee (List.cons_ne_nil t ts)).append _

/-- How the tokens of a phrase end. -/
inductive Ending where
  /-- With a token after which an operand comes. -/
  | mark
  /-- With an operand. -/
  | operand
  /-- They are one operand, with the parentheses around it. -/
  | whole
  /-- One way or another. -/
  | either

namespace Ending

/-- Whether a phrase that ends in a certain way may have a token as its last one. -/
def Fits : Ending → Option Token → Prop
  | .mark, last => last.any Token.endsOperand = false
  | .operand, last | .whole, last => last.any Token.endsOperand = true
  | .either, _ => True

/-- How a phrase ends that has other tokens before it. -/
def asLast : Ending → Ending
  | .whole => .operand
  | ending => ending

theorem Fits.asLast {ending : Ending} {last : Option Token} (h : ending.Fits last) :
    ending.asLast.Fits last := by
  cases ending <;> exact h

end Ending

/-- Tokens that are a phrase wherever an operand may come. -/
def Phrases (ts : List Token) (es : List Expr) (ending : Ending) : Prop :=
  ∀ previous : Option Token, previous.any Token.endsOperand = false →
    ending.Fits (after previous ts) ∧ ∃ vs, Phrase previous ts es vs

namespace Phrases

variable {ts us : List Token} {es fs : List Expr} {e : Expr} {ending : Ending} {l r : Token}

theorem append (h : Phrases ts es .mark) (h' : Phrases us fs ending) :
    Phrases (ts ++ us) (es ++ fs) ending.asLast := by
  intro previous hfirst
  obtain ⟨hends, vs, hvs⟩ := h previous hfirst
  obtain ⟨hends', ws, hws⟩ := h' _ hends
  exact ⟨after_append previous ts us ▸ hends'.asLast, _, hvs.append hws⟩

theorem node (h : Phrases ts e.children ending) (hne : ts ≠ []) (hplain : e.asCall? = none) :
    Phrases ts [e] ending := by
  intro previous hfirst
  obtain ⟨hends, vs, hvs⟩ := h previous hfirst
  exact ⟨hends, vs, .node hne hplain hvs⟩

/-- Parentheses where an operand may come only group. -/
theorem group (h : Phrases ts es ending) (hl : l.kind = .op ∧ l.text = "(")
    (hr : r.kind = .op ∧ r.text = ")") : Phrases (l :: (ts ++ [r])) es .operand := by
  intro previous hfirst
  obtain ⟨-, vs, hvs⟩ := h (some l) (endsOperand_opening hl.1 (by simp [hl.2]))
  refine ⟨?_, vs, .group hl hfirst hvs hr⟩
  simpa [Ending.Fits] using endsOperand_closing hr.1 (by simp [hr.2])

theorem brackets (h : Phrases ts es ending) (hl : l.kind = .op ∧ l.text ∈ ["[", "\x7b"])
    (hr : r.kind = .op ∧ r.text ∈ ["]", "\x7d"]) (previous : Option Token) :
    Ending.operand.Fits (after previous (l :: (ts ++ [r]))) ∧
      ∃ vs, Phrase previous (l :: (ts ++ [r])) es vs := by
  obtain ⟨-, vs, hvs⟩ := h (some l) (endsOperand_opening hl.1 (List.mem_cons_of_mem "(" hl.2))
  refine ⟨?_, [], .brackets hl hvs hr⟩
  simpa [Ending.Fits] using endsOperand_closing hr.1 (List.mem_cons_of_mem ")" hr.2)

/-- What ends with an operand has a token. -/
theorem opens (h : Phrases ts es .operand) : Opens ts := by
  obtain ⟨hends, vs, hvs⟩ := h none rfl
  refine hvs.opens ?_
  rintro rfl
  cases hends

end Phrases

/-- An operand with the parentheses around it. -/
inductive Enclosed : List Token → Expr → Prop
  | core {ts : List Token} {e : Expr} (covers : Covers ts e.span)
      (phrases : Phrases ts [e] .operand) : Enclosed ts e
  | parens {l r : Token} {ts : List Token} {e : Expr} (opening : l.kind = .op ∧ l.text = "(")
      (inside : Enclosed ts e) (closing : r.kind = .op ∧ r.text = ")") :
      Enclosed (l :: (ts ++ [r])) e

namespace Enclosed

theorem phrases {ts : List Token} {e : Expr} (h : Enclosed ts e) : Phrases ts [e] .operand := by
  induction h with
  | core _ phrases => exact phrases
  | parens opening _ closing ih => exact ih.group opening closing

/-- The value of a keyword argument after an operator. -/
theorem holdsArgument {ts : List Token} {e : Expr} (h : Enclosed ts e) {l : Token}
    (hl : l.kind = .op) : HoldsArgument (l :: ts) e := by
  induction h generalizing l with
  | @core ts e covers phrases => exact ⟨[], l, ts, [], by simp, hl, covers, (phrases none rfl).2⟩
  | @parens l' r ts e opening _ _ ih => simpa using (@ih l' opening.1).append [l] [r]

end Enclosed

/-! ## Phrases between cursors -/

/-- The tokens between two cursors make up some expressions and end in a certain way. -/
def Phrased (start : Cursor) (es : List Expr) (ending : Ending) (c : Cursor) : Prop :=
  ∃ ts, Took start ts c ∧ Phrases ts es ending ∧
    (ending = .whole → ∃ e, es = [e] ∧ Enclosed ts e)

namespace Phrased

variable {start c d m : Cursor} {es fs : List Expr} {base e : Expr} {ending : Ending}
  {l t : Token} {rest : List Token}

theorem nil (c : Cursor) : Phrased c [] .mark c :=
  ⟨[], .refl c, fun previous hfirst => ⟨hfirst, [], .nil previous⟩, nofun⟩

theorem of_enclosed {ts : List Token} (htook : Took start ts c) (h : Enclosed ts e) :
    Phrased start [e] .whole c :=
  ⟨ts, htook, h.phrases, fun _ => ⟨e, rfl, h⟩⟩

theorem exists_enclosed (h : Phrased start [e] .whole c) :
    ∃ ts, Took start ts c ∧ Enclosed ts e := by
  obtain ⟨ts, htook, -, hwhole⟩ := h
  obtain ⟨e', heq, hts⟩ := hwhole rfl
  obtain rfl : e = e' := by simpa using heq
  exact ⟨ts, htook, hts⟩

theorem operand (h : Phrased start es .whole c) : Phrased start es .operand c := by
  obtain ⟨ts, htook, hphrases, -⟩ := h
  exact ⟨ts, htook, hphrases, nofun⟩

theorem either (h : Phrased start es ending c) : Phrased start es .either c := by
  obtain ⟨ts, htook, hphrases, -⟩ := h
  exact ⟨ts, htook, fun previous hfirst => ⟨trivial, (hphrases previous hfirst).2⟩, nofun⟩

theorem toDepth (h : Phrased start es ending c) (n : Nat) :
    Phrased start es ending { c with depth := n } := by
  obtain ⟨ts, htook, hphrases⟩ := h
  exact ⟨ts, htook.toDepth n, hphrases⟩

theorem deeper {n m : Nat} (h : Phrased { c with depth := n } es ending d) :
    Phrased c es ending { d with depth := m } := by
  obtain ⟨ts, htook, hphrases⟩ := h
  exact ⟨ts, htook.deeper, hphrases⟩

/-- A phrase after one that ends where an operand may come. -/
theorem append (h : Phrased start es .mark m) (h' : Phrased m fs ending d) :
    Phrased start (es ++ fs) ending.asLast d := by
  obtain ⟨ts, htook, hphrases, -⟩ := h
  obtain ⟨us, htook', hphrases', -⟩ := h'
  exact ⟨ts ++ us, htook.trans htook', hphrases.append hphrases', by cases ending <;> nofun⟩

/-- A token that is no bracket. -/
theorem token (h : Phrased start es ending c) (hrest : c.rest = t :: rest)
    (htext : t.kind.isLexical = true) (hplain : t.weight = 0) {ending' : Ending}
    (hends : ending'.Fits (some t)) (hpart : ending' ≠ .whole) :
    Phrased start es ending' c.advance := by
  obtain ⟨ts, htook, hphrases, -⟩ := h
  refine ⟨ts ++ [t], htook.trans (.advance hrest), fun previous hfirst => ?_, fun h => absurd h hpart⟩
  obtain ⟨vs, hvs⟩ := (hphrases previous hfirst).2
  exact ⟨by simpa using hends, _, by simpa using hvs.append (.word _ htext hplain)⟩

/-- A node over all tokens since a place. -/
theorem node (h : Phrased start e.children .operand c) (hplain : e.asCall? = none)
    (hspan : e.span = ⟨start.peek.span.start, max c.lastEnd start.peek.span.start⟩) :
    Phrased start [e] .whole c := by
  obtain ⟨ts, htook, hphrases, -⟩ := h
  have hopens := hphrases.opens
  have hne : ts ≠ [] := by
    rintro rfl
    obtain ⟨t, us, hnil, -⟩ := hopens
    cases hnil
  exact .of_enclosed htook (.core (covers_of_took htook hopens hspan) (hphrases.node hne hplain))

/-- What ends with an operand has taken a token. -/
theorem length_lt (h : Phrased start es .operand c) : c.rest.length < start.rest.length := by
  obtain ⟨ts, htook, hphrases, -⟩ := h
  obtain ⟨t, us, rfl, -⟩ := hphrases.opens
  rw [htook.rest, List.length_append, List.length_cons]
  omega

/-- A node over tokens of which it is not known how they end. -/
theorem node_either (h : Phrased start e.children ending c)
    (hlt : c.rest.length < start.rest.length) (hplain : e.asCall? = none) :
    Phrased start [e] .either c := by
  obtain ⟨ts, htook, hphrases, -⟩ := h.either
  refine ⟨ts, htook, hphrases.node ?_ hplain, nofun⟩
  rintro rfl
  rw [htook.rest] at hlt
  exact absurd hlt (Nat.lt_irrefl _)

/-- Parentheses around an operand. -/
theorem parens (h : Phrased c [e] .whole m) (hopen : Took start [l] c)
    (hl : l.kind = .op ∧ l.text = "(") (hclose : m.isOp ")" = true) :
    Phrased start [e] .whole m.advance := by
  obtain ⟨ts, htook, hts⟩ := h.exists_enclosed
  obtain ⟨r, rest, hrest, hr⟩ := Cursor.isOp_iff.mp hclose
  exact .of_enclosed (hopen.trans (htook.trans (.advance hrest))) (.parens hl hts hr)

/-- A node from a parenthesis to the one that closes it. -/
theorem closed (h : Phrased c e.children ending m) (hopen : Took start [l] c)
    (hl : l.kind = .op ∧ l.text = "(") (hclose : m.isOp ")" = true) (hplain : e.asCall? = none)
    (hspan : e.span = ⟨start.peek.span.start, max m.advance.lastEnd start.peek.span.start⟩) :
    Phrased start [e] .whole m.advance := by
  obtain ⟨ts, htook, hphrases, -⟩ := h
  obtain ⟨r, rest, hrest, hr⟩ := Cursor.isOp_iff.mp hclose
  exact node ⟨_, hopen.trans (htook.trans (.advance hrest)), hphrases.group hl hr, nofun⟩ hplain hspan

/-- A display, from its bracket to the one that closes it. -/
theorem display (h : Phrased c e.children ending m) (hopen : Took start [l] c)
    (hl : l.kind = .op ∧ l.text ∈ ["[", "\x7b"]) {closing : String}
    (hclosing : closing ∈ ["]", "\x7d"]) (hclose : m.isOp closing = true)
    (hplain : e.asCall? = none)
    (hspan : e.span = ⟨start.peek.span.start, max m.advance.lastEnd start.peek.span.start⟩) :
    Phrased start [e] .whole m.advance := by
  obtain ⟨ts, htook, hphrases, -⟩ := h
  obtain ⟨r, rest, hrest, hr, htext⟩ := Cursor.isOp_iff.mp hclose
  exact node ⟨_, hopen.trans (htook.trans (.advance hrest)),
    fun previous _ => hphrases.brackets hl ⟨hr, htext ▸ hclosing⟩ previous, nofun⟩ hplain hspan

/-- A subscript after an operand. -/
theorem subscript (h : Phrased start [base] .whole c) (hopen : c.isOp "[" = true)
    (h' : Phrased c.advance es ending m) (hclose : m.isOp "]" = true) :
    Phrased start [.compound ⟨start.peek.span.start, max m.advance.lastEnd start.peek.span.start⟩
      (base :: es)] .whole m.advance := by
  obtain ⟨ts, htook, hphrases, -⟩ := h
  obtain ⟨us, htook', hphrases', -⟩ := h'
  obtain ⟨l, lrest, hlrest, hl, hltext⟩ := Cursor.isOp_iff.mp hopen
  obtain ⟨r, rrest, hrrest, hr, hrtext⟩ := Cursor.isOp_iff.mp hclose
  refine node ⟨_, htook.trans ((Took.advance hlrest).trans (htook'.trans (.advance hrrest))),
    fun previous hfirst => ?_, nofun⟩ rfl rfl
  obtain ⟨-, vs, hvs⟩ := hphrases previous hfirst
  obtain ⟨hends, ws, hws⟩ := hphrases'.brackets ⟨hl, by simp [hltext]⟩ ⟨hr, by simp [hrtext]⟩
    (after previous ts)
  exact ⟨by simpa using hends, _, hvs.append hws⟩

/-- A call of an operand. -/
theorem call (h : Phrased start [base] .whole c) (hopen : c.isOp "(" = true)
    (h' : Phrased c.advance es ending m) (hclose : m.isOp ")" = true) {args : List Expr}
    {keywords : List (Keyword Expr)} (hsame : es.Perm (args ++ Keyword.valuesOf keywords)) :
    Phrased start [.call ⟨start.peek.span.start, max m.advance.lastEnd start.peek.span.start⟩
      base args keywords] .whole m.advance := by
  obtain ⟨ts, htook, hphrases, -⟩ := h
  obtain ⟨us, htook', hphrases', -⟩ := h'
  obtain ⟨l, lrest, hlrest, hl⟩ := Cursor.isOp_iff.mp hopen
  obtain ⟨r, rrest, hrrest, hr⟩ := Cursor.isOp_iff.mp hclose
  have hall := htook.trans ((Took.advance hlrest).trans (htook'.trans (.advance hrrest)))
  have hcall : Phrases (ts ++ (l :: (us ++ [r]))) [.call ⟨start.peek.span.start,
      max m.advance.lastEnd start.peek.span.start⟩ base args keywords] .operand := by
    intro previous hfirst
    obtain ⟨hends, vs, hvs⟩ := hphrases previous hfirst
    obtain ⟨-, ws, hws⟩ := hphrases' (some l) (endsOperand_opening hl.1 (by simp [hl.2]))
    refine ⟨?_, vs, .call _ hvs hends hl hws hsame hr⟩
    simpa [Ending.Fits] using endsOperand_closing hr.1 (by simp [hr.2])
  exact .of_enclosed hall (.core (covers_of_took hall hcall.opens rfl) hcall)

end Phrased

/-! ## Parsers -/

namespace Parser

/-- Whether a test lets only tokens pass that are no brackets and after which an operand comes. -/
def Mark (test : Cursor → Bool) : Prop :=
  ∀ ⦃c : Cursor⦄, test c = true → ∃ t ts, c.rest = t :: ts ∧ t.kind.isLexical = true ∧
    t.weight = 0 ∧ t.endsOperand = false

theorem mark_isAnyOp {texts : List String}
    (h : ∀ s ∈ texts, s ∉ ["(", "[", "\x7b", ")", "]", "\x7d", "..."]) : Mark (·.isAnyOp texts) := by
  intro c htest
  obtain ⟨t, ts, hrest, hkind, htext⟩ := Cursor.isAnyOp_iff.mp htest
  have hplain := h _ htext
  simp only [List.mem_cons, List.not_mem_nil, or_false, not_or] at hplain
  refine ⟨t, ts, hrest, by rw [hkind]; rfl, ?_, ?_⟩
  · simp [Token.weight, hkind, hplain]
  · rw [endsOperand_of_op hkind]
    simp [hplain]

theorem mark_isOp {text : String} (h : text ∉ ["(", "[", "\x7b", ")", "]", "\x7d", "..."]) :
    Mark (·.isOp text) := by
  have hmark : Mark (·.isAnyOp [text]) := mark_isAnyOp (by simpa using h)
  intro c htest
  exact hmark (by simpa [Cursor.isAnyOp, Cursor.isOp] using htest)

/-- Keywords but those of constants. -/
theorem mark_isName {text : String} (h : text ∈ keywords ∧ text ∉ ["None", "True", "False"]) :
    Mark (·.isName text) := by
  intro c htest
  obtain ⟨t, ts, hrest, hkind, rfl⟩ := Cursor.isName_iff.mp htest
  refine ⟨t, ts, hrest, by rw [hkind]; rfl, Token.weight_of_ne_op (by rw [hkind]; decide), ?_⟩
  simp only [Token.endsOperand, hkind]
  simpa using h

theorem Mark.or {test test' : Cursor → Bool} (h : Mark test) (h' : Mark test') :
    Mark fun c => test c || test' c := by
  intro c htest
  rcases Bool.or_eq_true_iff.mp htest with htest | htest
  · exact h htest
  · exact h' htest

theorem Mark.and {test : Cursor → Bool} (h : Mark test) (test' : Cursor → Bool) :
    Mark fun c => test c && test' c :=
  fun _ htest => h (Bool.and_eq_true_iff.mp htest).1

/-- A parser takes one operand, with the parentheses around it. -/
def Utters (p : Parser Expr) : Prop :=
  ∀ ⦃c : Cursor⦄ ⦃e : Expr⦄ ⦃d : Cursor⦄, Runs p c e d → Phrased c [e] .whole d

/-- What holds after a parser that goes on after a phrase. -/
def Says (start : Cursor) (es : List Expr) (ending : Ending) (p : Parser α)
    (Q : α → Cursor → Prop) : Prop :=
  ∀ ⦃c : Cursor⦄ ⦃a : α⦄ ⦃d : Cursor⦄, Phrased start es ending c → Runs p c a d → Q a d

end Parser

theorem Phrased.mark {start c : Cursor} {es : List Expr} {ending : Ending}
    (h : Phrased start es ending c) {test : Cursor → Bool} (htest : Parser.Mark test)
    (hpass : test c = true) : Phrased start es .mark c.advance := by
  obtain ⟨t, ts, hrest, htext, hplain, hends⟩ := htest hpass
  exact h.token hrest htext hplain hends nofun

namespace Parser

variable {start c d : Cursor} {es : List Expr} {ending : Ending}

theorem Utters.nested {p : Parser Expr} (h : Utters p) : Utters (nested p) := by
  intro c e d hrun
  obtain ⟨-, m, hinner, rfl⟩ := runs_nested.mp hrun
  exact (h hinner).deeper

namespace Says

variable {p : Parser α} {k : α → Parser β} {Q : α → Cursor → Prop} {R : β → Cursor → Prop}

theorem pure {a : α} (h : ∀ ⦃c⦄, Phrased start es ending c → Q a c) :
    Says start es ending (Pure.pure a) Q := by
  intro c b d hc hrun
  obtain ⟨rfl, rfl⟩ := runs_pure.mp hrun
  exact h hc

theorem bind {fs : α → List Expr} {ending' : Ending}
    (h : Says start es ending p fun a => Phrased start (fs a) ending')
    (hk : ∀ a, Says start (fs a) ending' (k a) R) : Says start es ending (p >>= k) R := by
  intro c b d hc hrun
  obtain ⟨a, m, hp, hrun⟩ := runs_bind.mp hrun
  exact hk a (h hc hp) hrun

theorem ite {p' : Parser α} {q : Prop} [Decidable q] (h : Says start es ending p Q)
    (h' : Says start es ending p' Q) : Says start es ending (if q then p else p') Q := by
  split
  · exact h
  · exact h'

theorem ask {f : Cursor → α} (hk : ∀ a, Says start es ending (k a) R) :
    Says start es ending (Parser.ask f >>= k) R := by
  intro c b d hc hrun
  exact hk _ hc (runs_ask_bind.mp hrun)

/-- A mark that may come next. -/
theorem eat {test : Cursor → Bool} {k : Bool → Parser β} (htest : Mark test)
    (hyes : Says start es .mark (k true) R) (hno : Says start es ending (k false) R) :
    Says start es ending (Parser.eat test >>= k) R := by
  intro c b d hc hrun
  rcases runs_eat_bind.mp hrun with ⟨hpass, hrun⟩ | ⟨-, hrun⟩
  · exact hyes (hc.mark htest hpass) hrun
  · exact hno hc hrun

/-- A word that has to come next. -/
theorem expectWord {text : String} {k : Unit → Parser β} (htest : Mark (·.isName text))
    (hk : Says start es .mark (k ()) R) :
    Says start es ending (Parser.expectWord text >>= k) R := by
  intro c b d hc hrun
  obtain ⟨_, m, hword, hrun⟩ := runs_bind.mp hrun
  obtain ⟨hpass, rfl⟩ := runs_expectWord.mp hword
  exact hk (hc.mark htest hpass) hrun

theorem expectOp {text : String} {k : Unit → Parser β} (htest : Mark (·.isOp text))
    (hk : Says start es .mark (k ()) R) :
    Says start es ending (Parser.expectOp text >>= k) R := by
  intro c b d hc hrun
  obtain ⟨hpass, hrun⟩ := runs_expectOp_bind.mp hrun
  exact hk (hc.mark htest hpass) hrun

theorem operand (h : Says start es .operand p Q) : Says start es .whole p Q :=
  fun _ _ _ hc => h hc.operand

theorem either (h : Says start es .either p Q) : Says start es ending p Q :=
  fun _ _ _ hc => h hc.either

/-- The node of what was read since a place. -/
theorem node {build : Span → Expr} (hspan : ∀ s, (build s).span = s)
    (hchildren : ∀ s, (build s).children = es) (hplain : ∀ s, (build s).asCall? = none) :
    Says start es .operand (do return build (← spanFrom start.peek.span.start))
      fun e => Phrased start [e] .whole := by
  intro c e d hc hrun
  obtain ⟨rfl, rfl⟩ := runs_spanFrom_pure.mp hrun
  exact .node (hchildren _ ▸ hc) (hplain _) (hspan _)

end Says

/-- A production that goes on after an operand. -/
theorem Utters.bind {p : Parser Expr} {k : Expr → Parser α} {Q : α → Cursor → Prop}
    (h : Utters p) (hk : ∀ e, Says start (es ++ [e]) .operand (k e) Q) :
    Says start es .mark (p >>= k) Q := by
  intro c b d hc hrun
  obtain ⟨e, m, hp, hrun⟩ := runs_bind.mp hrun
  exact hk e (hc.append (h hp)) hrun

/-- A production that begins with an operand and asks where it starts. -/
theorem Utters.here {p : Parser Expr} {k : Nat → Expr → Parser Expr} (h : Utters p)
    (hk : ∀ start e, Says start [e] .whole (k start.peek.span.start e)
      fun e => Phrased start [e] .whole) :
    Utters (Parser.here >>= fun start => p >>= k start) := by
  intro c e d hrun
  rw [runs_here_bind, runs_bind] at hrun
  obtain ⟨first, m, hp, hrun⟩ := hrun
  exact hk c first (h hp) hrun

theorem utters_ite {p p' : Parser Expr} {test : Cursor → Bool} (h : Utters p) (h' : Utters p') :
    Utters (do if ← ask test then p else p') := by
  intro c e d hrun
  rw [runs_ask_bind, runs_ite] at hrun
  exact hrun.elim (fun hrun => h hrun.2) fun hrun => h' hrun.2

/-- A production that begins with a mark or is another one. -/
theorem utters_marked {test : Cursor → Bool} {k : Token → Parser Expr} {p : Parser Expr}
    (htest : Mark test) (h : ∀ start, Says start [] .mark (k start.peek)
      fun e => Phrased start [e] .whole) (h' : Utters p) :
    Utters (do if ← ask test then bump >>= k else p) := by
  intro c e d hrun
  rw [runs_ask_bind, runs_ite, runs_bump_bind] at hrun
  rcases hrun with ⟨hpass, hrun⟩ | ⟨-, hrun⟩
  · exact h c ((Phrased.nil c).mark htest hpass) hrun
  · exact h' hrun

/-! ## Loops -/

/-- The expressions in what a turn of a loop gives. -/
def turnParts (parts : α → List Expr) : Turn α → List Expr
  | .item a => parts a
  | .stop => []

/-- A loop that goes on after a phrase which ends as each of its turns does. -/
theorem says_loop (parts : α → List Expr) {test : Cursor → Bool} {turn : Token → Parser (Turn α)}
    (htest : Mark test) (hturn : ∀ es ⦃c t ts⦄, c.rest = t :: ts → test c = true →
      Phrased start es .mark c.advance → ∀ ⦃a d⦄, Runs (turn t) c.advance a d →
        Phrased start (es ++ turnParts parts a) ending d) :
    Says start es ending (loop test turn) fun as => Phrased start (es ++ as.flatMap parts) ending := by
  intro c as d hc hrun
  rw [runs_loop] at hrun
  induction hrun generalizing es with
  | done => simpa using hc
  | stop hrest hpass hrun =>
    simpa [turnParts] using hturn es hrest hpass (hc.mark htest hpass) hrun
  | item hrest hpass hrun _ ih =>
    simpa [turnParts] using ih (hturn es hrest hpass (hc.mark htest hpass) hrun)

/-- Operands after marks. -/
theorem Utters.loopItems {p : Parser Expr} (h : Utters p) {test : Cursor → Bool}
    (htest : Mark test) :
    Says start es .operand (loopItems test p) fun as => Phrased start (es ++ as) .operand := by
  intro c as d hc hrun
  have hloop := says_loop (fun e => [e]) htest (fun es c t ts _ _ hmark a d hturn => by
    obtain ⟨e, he, rfl⟩ := runs_map.mp hturn
    exact hmark.append (h he)) hc hrun
  simpa only [List.flatMap_singleton'] using hloop

/-- Items between separators; after the last one there may be a separator more. -/
theorem says_separated (parts : α → List Expr) {item : Parser α} {separator : String}
    {closing : Cursor → Bool} (htest : Mark (·.isOp separator))
    (h : ∀ ⦃c a d⦄, Runs item c a d → ∃ ending, Phrased c (parts a) ending d) :
    Says start es ending (separated separator closing item) fun as =>
      Phrased start (es ++ as.flatMap parts) .either := by
  refine .either (says_loop parts htest fun es c t ts _ _ hmark a d hturn => ?_)
  rw [runs_ask_bind, runs_ite] at hturn
  rcases hturn with ⟨-, hturn⟩ | ⟨-, hturn⟩
  · obtain ⟨rfl, rfl⟩ := runs_pure.mp hturn
    simpa [turnParts] using hmark.either
  · obtain ⟨a, ha, rfl⟩ := runs_bind_pure.mp hturn
    obtain ⟨ending, hitem⟩ := h ha
    exact (hmark.append hitem).either

theorem Utters.separated {p : Parser Expr} (h : Utters p) {separator : String}
    {closing : Cursor → Bool} (htest : Mark (·.isOp separator)) :
    Says start es ending (separated separator closing p) fun as =>
      Phrased start (es ++ as) .either := by
  intro c as d hc hrun
  have hseparated := says_separated (fun e => [e]) htest
    (fun _ _ _ hrun => ⟨_, h hrun⟩) hc hrun
  simpa only [List.flatMap_singleton'] using hseparated

/-- A production that goes on after an operand gives another one. -/
def UttersLink (link : Nat → Expr → Parser Expr) : Prop :=
  ∀ ⦃start : Cursor⦄ ⦃base : Expr⦄, Says start [base] .whole (link start.peek.span.start base)
    fun e => Phrased start [e] .whole

/-- A production that goes on after an opening bracket gives an operand with it. -/
def UttersBracketed (opening : String) (p : Nat → Parser Expr) : Prop :=
  ∀ ⦃start c : Cursor⦄ ⦃l : Token⦄ ⦃e : Expr⦄ ⦃d : Cursor⦄, Took start [l] c →
    l.kind = .op ∧ l.text = opening → Runs (p start.peek.span.start) c e d →
      Phrased start [e] .whole d

end Parser

/-- The expressions of a level are phrases of the tokens they were read from. -/
structure Level.Phrased (inner : Level) : Prop where
  test : Parser.Utters inner.test
  notTest : Parser.Utters inner.notTest
  factor : Parser.Utters inner.factor
  power : Parser.Utters inner.power
  link : Parser.UttersLink inner.link
  paren : Parser.UttersBracketed "(" inner.paren
  list : Parser.UttersBracketed "[" inner.list
  brace : Parser.UttersBracketed "\x7b" inner.brace

end WorkflowAudit.Script
