import WorkflowAudit.Proofs.Script.Parser.Display

/-!
# Outlines of expressions

Whatever a production takes, nothing stands outside the brackets of its tokens that only comes behind
an expression, and a colon stands there only at the end of the parameters of a lambda. `Outlines`
says so of a parser, with one law for each way to put parsers together. What an expression begins with
is one of the tokens for which the parser looks where an expression may come.
-/

namespace WorkflowAudit.Script

namespace Parser

/-- A parser takes tokens that may stand in an expression. -/
def Outlines (p : Parser α) : Prop :=
  ∀ ⦃c : Cursor⦄ ⦃a : α⦄ ⦃d : Cursor⦄, Runs p c a d → ∃ ts, Took c ts d ∧ Clear ts

/-- Whether a test lets only tokens pass that may stand in an expression outside its brackets. -/
def Joins (test : Cursor → Bool) : Prop :=
  ∀ ⦃c : Cursor⦄, test c = true → ∃ t ts, c.rest = t :: ts ∧ Clear [t]

/-- A parser takes tokens up to a closing bracket, and leaves none open that it opens before. -/
def Closes (p : Parser α) : Prop :=
  ∀ ⦃c : Cursor⦄ ⦃a : α⦄ ⦃d : Cursor⦄, Runs p c a d → ∃ ts r, Took c (ts ++ [r]) d ∧ Settled ts ∧
    (∀ t ∈ ts, t.kind ≠ .newline) ∧ r.weight = -1

/-! ## Tests -/

theorem clear_op {t : Token} (hkind : t.kind = .op)
    (h : t.text ∉ ["(", "[", "\x7b", ")", "]", "\x7d", ":", "=", ";"]) : Clear [t] := by
  simp only [List.mem_cons, List.not_mem_nil, or_false, not_or] at h
  refine .word (by simp [hkind]) ?_ (by simp [Token.isWord, hkind]) ?_
  · simp [Token.weight, hkind, h]
  · simp [Token.isAnyOp, h]

theorem clear_name {t : Token} (hkind : t.kind = .name) (h : t.text ≠ "lambda") : Clear [t] :=
  .word (by simp [hkind]) (weight_of_name hkind) (by simp [Token.isWord, h])
    (by simp [Token.isAnyOp, hkind])

theorem clear_literal {t : Token} (h : t.kind = .number ∨ t.kind = .str) : Clear [t] := by
  have hkind : t.kind ≠ .newline ∧ t.kind ≠ .op ∧ t.kind ≠ .name := by
    rcases h with h | h <;> simp [h]
  exact .word hkind.1 (Token.weight_of_ne_op hkind.2.1) (by simp [Token.isWord, hkind])
    (by simp [Token.isAnyOp, hkind])

theorem joins_isAnyOp {texts : List String}
    (h : ∀ s ∈ texts, s ∉ ["(", "[", "\x7b", ")", "]", "\x7d", ":", "=", ";"]) :
    Joins (·.isAnyOp texts) := by
  intro c htest
  obtain ⟨t, ts, hrest, hkind, htext⟩ := Cursor.isAnyOp_iff.mp htest
  exact ⟨t, ts, hrest, clear_op hkind (h _ htext)⟩

theorem joins_isOp {text : String}
    (h : text ∉ ["(", "[", "\x7b", ")", "]", "\x7d", ":", "=", ";"]) : Joins (·.isOp text) := by
  intro c htest
  obtain ⟨t, ts, hrest, hkind, rfl⟩ := Cursor.isOp_iff.mp htest
  exact ⟨t, ts, hrest, clear_op hkind h⟩

theorem joins_isName {text : String} (h : text ≠ "lambda") : Joins (·.isName text) := by
  intro c htest
  obtain ⟨t, ts, hrest, hkind, rfl⟩ := Cursor.isName_iff.mp htest
  exact ⟨t, ts, hrest, clear_name hkind h⟩

theorem Joins.or {test test' : Cursor → Bool} (h : Joins test) (h' : Joins test') :
    Joins fun c => test c || test' c := by
  intro c htest
  rcases Bool.or_eq_true_iff.mp htest with htest | htest
  · exact h htest
  · exact h' htest

theorem Joins.and {test : Cursor → Bool} (h : Joins test) (test' : Cursor → Bool) :
    Joins fun c => test c && test' c :=
  fun _ htest => h (Bool.and_eq_true_iff.mp htest).1

/-! ## Parsers -/

namespace Outlines

variable {p : Parser α} {k : α → Parser β} {test : Cursor → Bool}

theorem pure {a : α} : Outlines (Pure.pure a) := by
  intro c b d hrun
  obtain ⟨-, rfl⟩ := runs_pure.mp hrun
  exact ⟨[], .refl _, .nil⟩

theorem bind (h : Outlines p) (hk : ∀ a, Outlines (k a)) : Outlines (p >>= k) := by
  intro c b d hrun
  obtain ⟨a, m, hp, hrun⟩ := runs_bind.mp hrun
  obtain ⟨ts, htook, hts⟩ := h hp
  obtain ⟨us, htook', hus⟩ := hk a hrun
  exact ⟨_, htook.trans htook', hts.append hus⟩

theorem ite {p' : Parser α} {q : Prop} [Decidable q] (h : Outlines p) (h' : Outlines p') :
    Outlines (if q then p else p') := by
  split
  · exact h
  · exact h'

theorem fails (h : ∀ c a d, ¬Runs p c a d) : Outlines p := fun _ _ _ hrun => absurd hrun (h _ _ _)

theorem ask {f : Cursor → α} : Outlines (Parser.ask f) := by
  intro c a d hrun
  obtain ⟨-, rfl⟩ := runs_ask.mp hrun
  exact ⟨[], .refl _, .nil⟩

theorem nested (h : Outlines p) : Outlines (nested p) := by
  intro c a d hrun
  obtain ⟨-, m, hinner, rfl⟩ := runs_nested.mp hrun
  obtain ⟨ts, htook, hts⟩ := h hinner
  exact ⟨ts, htook.deeper, hts⟩

/-- A choice made by the next token, which the one branch takes. -/
theorem whether {k : Token → Parser α} (htest : Joins test) (hyes : ∀ t, Outlines (k t))
    (hno : Outlines p) : Outlines (do if ← Parser.ask test then bump >>= k else p) := by
  intro c a d hrun
  rw [runs_ask_bind, runs_ite, runs_bump_bind] at hrun
  rcases hrun with ⟨hpass, hrun⟩ | ⟨-, hrun⟩
  · obtain ⟨t, rest, hrest, ht⟩ := htest hpass
    obtain ⟨ts, htook, hts⟩ := hyes _ hrun
    exact ⟨_, (Took.advance hrest).trans htook, ht.append hts⟩
  · exact hno hrun

theorem eat (htest : Joins test) : Outlines (Parser.eat test) := .whether htest (fun _ => .pure) .pure

theorem expectWord {text : String} (h : text ≠ "lambda") : Outlines (Parser.expectWord text) :=
  (eat (joins_isName h)).bind fun _ => .ite .pure (.fails (by simp))

theorem expectOp {text : String} (h : text ∉ ["(", "[", "\x7b", ")", "]", "\x7d", ":", "=", ";"]) :
    Outlines (Parser.expectOp text) :=
  (eat (joins_isOp h)).bind fun _ => .ite .pure (.fails (by simp))

theorem identifier : Outlines Parser.identifier := by
  intro c name d hrun
  obtain ⟨⟨hkind, hplain⟩, -, rfl⟩ := runs_identifier.mp hrun
  refine ⟨_, .peek_kind hkind (by decide), clear_name hkind fun htext => hplain ?_⟩
  rw [htext]
  decide

theorem spanFrom {start : Nat} : Outlines (Parser.spanFrom start) := ask

theorem loop {turn : Token → Parser (Turn α)} (htest : Joins test) (h : ∀ t, Outlines (turn t)) :
    Outlines (loop test turn) := by
  have hpart : ∀ {c t ts a d}, c.rest = t :: ts → test c = true → Runs (turn t) c.advance a d →
      ∃ us, Took c.advance us d ∧ Clear (t :: us) := by
    intro c t ts a d hrest hpass hturn
    obtain ⟨t', ts', hrest', ht⟩ := htest hpass
    obtain ⟨rfl, -⟩ := List.cons.inj (hrest.symm.trans hrest')
    obtain ⟨us, htook, hus⟩ := h t hturn
    exact ⟨us, htook, ht.append hus⟩
  intro c as d hrun
  refine Took.of_loop (P := fun ts _ => Clear ts) .nil hpart (fun hrest hpass hturn => ?_) hrun
  obtain ⟨us, htook, hus⟩ := hpart hrest hpass hturn
  exact ⟨us, htook, fun vs as hvs => hus.append hvs⟩

theorem item (h : Outlines p) : Outlines (p >>= fun a => Pure.pure (Turn.item a)) :=
  h.bind fun _ => .pure

theorem loopItems (h : Outlines p) (htest : Joins test) : Outlines (loopItems test p) :=
  loop htest fun _ => item h

theorem separated {separator : String} {closing : Cursor → Bool} (h : Outlines p)
    (htest : Joins (·.isOp separator)) : Outlines (separated separator closing p) :=
  loop htest fun _ => ask.bind fun _ => .ite .pure (item h)

end Outlines

namespace Closes

variable {p : Parser α} {k : α → Parser β}

theorem ite {p' : Parser α} {q : Prop} [Decidable q] (h : Closes p) (h' : Closes p') :
    Closes (if q then p else p') := by
  split
  · exact h
  · exact h'

theorem ask {f : Cursor → α} (h : ∀ a, Closes (k a)) : Closes (Parser.ask f >>= k) := by
  intro c b d hrun
  exact h _ (runs_ask_bind.mp hrun)

/-- What stands on some tokens before those up to the closing bracket. -/
theorem of_took (h : Closes p) {c m d : Cursor} {a : α} {ts : List Token} {parts : List Expr}
    (htook : Took c ts m) (hts : Spread ts parts) (hrun : Runs p m a d) :
    ∃ us r, Took c (us ++ [r]) d ∧ Settled us ∧ (∀ t ∈ us, t.kind ≠ .newline) ∧ r.weight = -1 := by
  obtain ⟨us, r, htook', hus, honLine, hr⟩ := h hrun
  refine ⟨ts ++ us, r, by simpa using htook.trans htook', hts.settled.append hus, ?_, hr⟩
  exact List.forall_mem_append.mpr ⟨hts.onLine, honLine⟩

theorem after {parts : α → List Expr} (hp : GivesAll parts p) (h : ∀ a, Closes (k a)) :
    Closes (p >>= k) := by
  intro c b d hrun
  obtain ⟨a, m, hp', hrun⟩ := runs_bind.mp hrun
  obtain ⟨ts, htook, hts⟩ := hp hp'
  exact (h a).of_took htook hts hrun

/-- The closing bracket. -/
theorem of_closing {closing : String} (hclosing : closing ∈ [")", "]", "\x7d"]) {c : Cursor}
    (hclose : c.isOp closing = true) : ∃ ts r, Took c (ts ++ [r]) c.advance ∧ Settled ts ∧
      (∀ t ∈ ts, t.kind ≠ .newline) ∧ r.weight = -1 := by
  obtain ⟨r, rest, hrest, hkind, rfl⟩ := Cursor.isOp_iff.mp hclose
  exact ⟨[], r, .advance hrest, trivial, nofun, weight_closing hkind hclosing⟩

theorem expectOp {closing : String} (hclosing : closing ∈ [")", "]", "\x7d"]) {build : Parser α}
    (h : ∀ ⦃c a d⦄, Runs build c a d → d = c) :
    Closes (Parser.expectOp closing >>= fun _ => build) := by
  intro c a d hrun
  obtain ⟨hclose, hrun⟩ := runs_expectOp_bind.mp hrun
  obtain rfl := h hrun
  exact of_closing hclosing hclose

theorem eatOp {closing : String} (hclosing : closing ∈ [")", "]", "\x7d"]) {build : Parser α}
    (h : ∀ ⦃c a d⦄, Runs build c a d → d = c) (hno : Closes p) :
    Closes (do if ← Parser.eatOp closing then build else p) := by
  intro c a d hrun
  rcases runs_eat_bind.mp hrun with ⟨hclose, hrun⟩ | ⟨-, hrun⟩
  · obtain rfl := h hrun
    exact of_closing hclosing hclose
  · exact hno hrun

theorem nested (h : Closes p) : Closes (nested p) := by
  intro c a d hrun
  obtain ⟨-, m, hinner, rfl⟩ := runs_nested.mp hrun
  obtain ⟨ts, r, htook, hts⟩ := h hinner
  exact ⟨ts, r, htook.deeper, hts⟩

end Closes

/-- The last steps of a production take nothing. -/
theorem eq_of_node {start : Nat} {build : Span → α} {c d : Cursor} {a : α}
    (h : Runs (do return build (← spanFrom start)) c a d) : d = c := (runs_spanFrom_pure.mp h).2

/-- What stands between brackets that come next. -/
theorem Closes.clear {p : Parser α} (h : Closes p) {c d : Cursor} {a : α} {l : Token}
    {rest : List Token} (hrest : c.rest = l :: rest) (hl : l.weight = 1)
    (hrun : Runs p c.advance a d) : ∃ ts, Took c ts d ∧ Clear ts := by
  obtain ⟨ts, r, htook, hsettled, honLine, hr⟩ := h hrun
  exact ⟨_, (Took.advance hrest).trans htook, .bracketed hl hsettled honLine hr⟩

end Parser

/-- The expressions of a level are such by their outlines. -/
structure Level.Outlined (inner : Level) : Prop where
  sound : inner.Sound
  test : Parser.Outlines inner.test
  notTest : Parser.Outlines inner.notTest
  factor : Parser.Outlines inner.factor
  power : Parser.Outlines inner.power
  link : ∀ start base, Parser.Outlines (inner.link start base)
  paren : ∀ start, Parser.Closes (inner.paren start)
  list : ∀ start, Parser.Closes (inner.list start)
  brace : ∀ start, Parser.Closes (inner.brace start)

namespace Parser

variable {inner : Level}

/-! ## Atoms and operators -/

theorem outlines_atom (h : inner.Outlined) : Outlines (atom inner) := by
  intro c e d hrun
  have hword : ∀ {kind : TokenKind}, c.peek.kind = kind → kind ≠ .endMarker → Clear [c.peek] →
      d = c.advance → ∃ ts, Took c ts d ∧ Clear ts := by
    rintro kind hkind hmarker hclear rfl
    exact ⟨_, .peek_kind hkind hmarker, hclear⟩
  rw [atom, runs_ask_bind] at hrun
  split at hrun
  case h_1 hkind =>
    obtain ⟨-, rfl⟩ := by simpa only [runs_bump_bind, runs_pure] using hrun
    exact hword hkind (by decide) (clear_literal (.inl hkind)) rfl
  case h_2 hkind =>
    obtain ⟨t, ts, value, htook, hall, -⟩ := took_strings hkind hrun
    exact ⟨_, htook, .of_forall fun u hu => clear_literal (.inr (hall u hu))⟩
  case h_3 hkind =>
    have hname : c.peek.text ≠ "lambda" → d = c.advance → ∃ ts, Took c ts d ∧ Clear ts :=
      fun htext => hword hkind (by decide) (clear_name hkind htext)
    simp only [runs_ite, runs_bump_bind, runs_pure, runs_unexpectedToken] at hrun
    obtain ⟨htext, -, hd⟩ | ⟨-, ⟨htext, -, hd⟩ | ⟨-, ⟨htext, -, hd⟩ | ⟨-, ⟨-, ⟨⟩⟩ | ⟨hplain, -, hd⟩⟩⟩⟩ :=
      hrun
    · exact hname (by simp [htext]) hd
    · exact hname (by simp [htext]) hd
    · exact hname (by simp [htext]) hd
    · refine hname (fun htext => hplain ?_) hd
      rw [htext]
      decide
  case h_4 hkind =>
    obtain ⟨t, rest, hrest, ht⟩ :=
      (Cursor.isKind_iff (show TokenKind.op ≠ .endMarker by decide)).mp
        (by simpa [Cursor.isKind] using hkind)
    have hbracket : ∀ {p : Parser Expr}, Closes p → c.peek.text ∈ ["(", "[", "\x7b"] →
        Runs (nested p) c.advance e d → ∃ ts, Took c ts d ∧ Clear ts := by
      intro p hp htext hrun
      rw [Cursor.peek_of_rest hrest] at htext
      exact hp.nested.clear hrest (weight_opening ht htext) hrun
    simp only [runs_ite, runs_bump_bind, runs_pure, runs_unexpectedToken] at hrun
    obtain ⟨htext, -, hd⟩ | ⟨-, ⟨htext, hrun⟩ | ⟨-, ⟨htext, hrun⟩ | ⟨-, ⟨htext, hrun⟩ | ⟨-, ⟨⟩⟩⟩⟩⟩ := hrun
    · exact hword hkind (by decide) (clear_op hkind (by rw [htext]; decide)) hd
    · exact hbracket (h.paren _) (by simp [htext]) hrun
    · exact hbracket (h.list _) (by simp [htext]) hrun
    · exact hbracket (h.brace _) (by simp [htext]) hrun
  case h_5 => simp at hrun

theorem outlines_links (h : inner.Outlined) (start : Nat) (base : Expr) :
    Outlines (links inner start base) :=
  Outlines.ask.bind fun _ => .ite (h.link start base).nested .pure

theorem outlines_primary (h : inner.Outlined) : Outlines (primary inner) :=
  Outlines.ask.bind fun _ => (outlines_atom h).bind fun _ => outlines_links h _ _

theorem outlines_power (h : inner.Outlined) : Outlines (power inner) :=
  Outlines.ask.bind fun _ => (Outlines.eat (joins_isName (by decide))).bind fun _ => .ite
    (h.power.nested.bind fun _ => .bind .spanFrom fun _ => .pure)
    ((outlines_primary h).bind fun _ => (Outlines.eat (joins_isOp (by decide))).bind fun _ => .ite
      (h.factor.nested.bind fun _ => .bind .spanFrom fun _ => .pure) .pure)

theorem outlines_factor (h : inner.Outlined) : Outlines (factor inner) :=
  .whether (joins_isAnyOp (by decide))
    (fun _ => h.factor.nested.bind fun _ => .bind .spanFrom fun _ => .pure) (outlines_power h)

theorem Outlines.chain {isOperator : Cursor → Bool} {operand : Parser Expr} (h : Outlines operand)
    (htest : Joins isOperator) : Outlines (chain isOperator operand) :=
  Outlines.ask.bind fun _ => h.bind fun _ => Outlines.ask.bind fun _ => .ite
    ((h.loopItems htest).bind fun _ => .bind .spanFrom fun _ => .pure) .pure

theorem outlines_binary (h : inner.Outlined) : Outlines (binary inner) := by
  have hfrom : ∀ ranks : List (List String), (∀ ops ∈ ranks, ∀ s ∈ ops,
      s ∉ ["(", "[", "\x7b", ")", "]", "\x7d", ":", "=", ";"]) → Outlines (binaryFrom inner ranks) := by
    intro ranks hranks
    induction ranks with
    | nil => exact outlines_factor h
    | cons ops tighter ih =>
      exact .chain (ih fun ops' hops => hranks ops' (List.mem_cons_of_mem ops hops))
        (joins_isAnyOp (hranks ops List.mem_cons_self))
  exact hfrom binaryRanks (by decide)

theorem joins_atCompareOp : Joins atCompareOp :=
  .or (.or (.or (joins_isAnyOp (by decide)) (joins_isName (by decide))) (joins_isName (by decide)))
    (.and (joins_isName (by decide)) _)

theorem outlines_comparison (h : inner.Outlined) : Outlines (comparison inner) := by
  refine Outlines.ask.bind fun _ => (outlines_binary h).bind fun _ => Outlines.ask.bind fun _ =>
    .ite (.bind (.loop joins_atCompareOp fun _ => .ite ?_ (outlines_binary h).item) fun _ =>
      .bind .spanFrom fun _ => .pure) .pure
  exact (Outlines.eat (joins_isName (by decide))).bind fun _ =>
    (Outlines.eat (joins_isName (by decide))).bind fun _ => (outlines_binary h).item

theorem outlines_notTest (h : inner.Outlined) : Outlines (notTest inner) :=
  .whether (joins_isName (by decide))
    (fun _ => h.notTest.nested.bind fun _ => .bind .spanFrom fun _ => .pure) (outlines_comparison h)

theorem outlines_orTest (h : inner.Outlined) : Outlines (orTest inner) :=
  ((outlines_notTest h).chain (joins_isName (by decide))).chain (joins_isName (by decide))

/-! ## Lambdas and conditionals -/

theorem outlines_lambda (h : inner.Outlined) {c d : Cursor} {e : Expr}
    (hword : c.isName "lambda" = true) (hrun : Runs (lambda inner) c e d) :
    ∃ ts, Took c ts d ∧ Clear ts := by
  rw [lambda, runs_bump_bind, runs_bind] at hrun
  obtain ⟨_, m, hskip, hrun⟩ := hrun
  rw [runs_bump_bind] at hrun
  obtain ⟨l, rest, hrest, hl⟩ := Cursor.isName_iff.mp hword
  obtain ⟨ts, r, after, hparameters, hpassed, hr, hm⟩ := runs_skipParameters.mp hskip
  have hend : m.rest = r :: after := by rw [hm]
  obtain ⟨honLine, hsettled, -⟩ := settled_of_skip hpassed
  have hbody : Outlines (do
      let body ← nested inner.test
      return Expr.closure (← spanFrom c.peek.span.start) [body]) :=
    h.test.nested.bind fun _ => .bind .spanFrom fun _ => .pure
  obtain ⟨us, htook, hus⟩ := hbody hrun
  have hskipped : Took c.advance ts m := ⟨hend ▸ hparameters, by rw [hm]⟩
  refine ⟨_, (Took.advance hrest).trans (hskipped.trans ((Took.advance hend).trans htook)), ?_⟩
  have hclear := Clear.lambda (l := l) (by simp [Token.isWord, hl]) hsettled honLine hpassed hr hus
  simpa using hclear

theorem outlines_test (h : inner.Outlined) : Outlines (test inner) := by
  intro c e d hrun
  rw [test, runs_ask_bind, runs_ite] at hrun
  rcases hrun with ⟨hword, hrun⟩ | ⟨-, hrun⟩
  · exact outlines_lambda h hword hrun
  · refine Outlines.bind .ask (fun _ => (outlines_orTest h).bind fun _ =>
      (Outlines.eat (joins_isName (by decide))).bind fun _ => .ite ?_ .pure) hrun
    exact (outlines_orTest h).bind fun _ => (Outlines.expectWord (by decide)).bind fun _ =>
      h.test.nested.bind fun _ => .bind .spanFrom fun _ => .pure

theorem outlines_starOrTest (h : inner.Outlined) : Outlines (starOrTest inner) :=
  .whether (joins_isOp (by decide))
    (fun _ => (outlines_binary h).bind fun _ => .bind .spanFrom fun _ => .pure) (outlines_test h)

theorem outlines_starExpressions (h : inner.Outlined) : Outlines (starExpressions inner) :=
  Outlines.ask.bind fun _ => (outlines_starOrTest h).bind fun _ => Outlines.ask.bind fun _ => .ite
    (((outlines_starOrTest h).separated (joins_isOp (by decide))).bind fun _ =>
      .bind .spanFrom fun _ => .pure) .pure

theorem outlines_yieldOrStar (h : inner.Outlined) : Outlines (yieldOrStar inner) := by
  refine .whether (joins_isName (by decide)) (fun _ => ?_) (outlines_starExpressions h)
  have hend : ∀ {start : Nat} {es : List Expr},
      Outlines (do return Expr.compound (← spanFrom start) es) :=
    fun {_ _} => Outlines.spanFrom.bind fun _ => .pure
  refine (Outlines.eat (joins_isName (by decide))).bind fun _ => Outlines.ask.bind fun _ =>
    .ite ?_ (.ite ?_ hend)
  · exact (outlines_test h).bind fun _ => hend
  · exact (outlines_starExpressions h).bind fun _ => hend

/-! ## Brackets -/

theorem closes_display (h : inner.Sound) {closing : String} (hclosing : closing ∈ [")", "]", "\x7d"])
    (start : Nat) (first : Expr) (build : Span → List Expr → Expr) :
    Closes (display inner closing start first build) :=
  .ask fun _ => .ite (.after (gives_comprehension h) fun _ => .expectOp hclosing fun _ _ _ => eq_of_node)
    (.after ((gives_starOrNamed h).separated (by decide) _) fun _ =>
      .expectOp hclosing fun _ _ _ => eq_of_node)

theorem closes_paren (h : inner.Sound) (start : Nat) : Closes (paren inner start) := by
  refine .eatOp (by simp) (fun _ _ _ => eq_of_node) fun c e d hrun => ?_
  rw [runs_ask_bind, runs_ite] at hrun
  rcases hrun with ⟨hyield, hrun⟩ | ⟨-, hrun⟩
  · obtain ⟨value, m, hvalue, hrun⟩ := runs_bind.mp hrun
    obtain ⟨ts, parts, htook, -, hparts, -⟩ := gives_yieldExpr h hyield hvalue
    exact (Closes.expectOp (by simp) fun _ _ _ => eq_of_node).of_took htook hparts hrun
  · have hgroup : Closes (do
        let first ← starOrNamed inner
        if ← Parser.ask fun c => atComprehension c || c.isOp "," then
          display inner ")" start first .tuple
        else
          Parser.expectOp ")"
          return first) :=
      .after (gives_starOrNamed h).all fun first => .ask fun _ => .ite
        (closes_display h (by simp) start first .tuple)
        (.expectOp (by simp) fun _ _ _ hend => (runs_pure.mp hend).2)
    exact hgroup hrun

theorem closes_list (h : inner.Sound) (start : Nat) : Closes (list inner start) :=
  .eatOp (by simp) (fun _ _ _ => eq_of_node)
    (.after (gives_starOrNamed h).all fun first => closes_display h (by simp) start first .list)

theorem givesAll_dictValue (h : inner.Sound) (key : Option Expr) :
    GivesAll (fun item => [item.value]) (dictValue inner key) := by
  intro c item d hrun
  obtain ⟨ts, htook, -, hts⟩ := gives_dictValue h hrun
  exact ⟨ts, htook, hts⟩

theorem closes_dictFrom (h : inner.Sound) (start : Nat) (first : DictItem Expr) :
    Closes (dictFrom inner start first) :=
  .ask fun _ => .ite
    (.after (gives_comprehension h) fun _ => .expectOp (by simp) fun _ _ _ => eq_of_node)
    (.after ((gives_dictItem h).separated (by decide) _) fun _ =>
      .expectOp (by simp) fun _ _ _ => eq_of_node)

theorem closes_brace (h : inner.Sound) (start : Nat) : Closes (brace inner start) :=
  .eatOp (by simp) (fun _ _ _ => eq_of_node) (.after (gives_eat (plain_isOp (by decide))) fun _ => .ite
    (.after (givesAll_dictValue h none) fun first => closes_dictFrom h start first)
    (.after (gives_starOrNamed h).all fun first => .ask fun _ => .ite
      (.after (givesAll_dictValue h (some first)) fun item => closes_dictFrom h start item)
      (closes_display h (by simp) start first .set)))

/-! ## Calls and subscripts -/

/-- What stands between brackets, and what follows them. -/
theorem Outlines.enclosed {opening closing : String} (hopening : opening ∈ ["(", "[", "\x7b"])
    (hclosing : closing ∈ [")", "]", "\x7d"]) {p : Parser α} {k : α → Parser β} {q : Parser β}
    (hp : ∀ ⦃c a d⦄, Runs p c a d → ∃ ts, Took c ts d ∧ Settled ts ∧ ∀ t ∈ ts, t.kind ≠ .newline)
    (hk : ∀ a, Outlines (k a)) (hno : Outlines q) :
    Outlines (do if ← Parser.eatOp opening then (do let a ← p; Parser.expectOp closing; k a) else q) := by
  intro c b d hrun
  rcases runs_eat_bind.mp hrun with ⟨hopen, hrun⟩ | ⟨-, hrun⟩
  · obtain ⟨a, m, hinside, hrun⟩ := runs_bind.mp hrun
    obtain ⟨hclose, hmore⟩ := runs_expectOp_bind.mp hrun
    obtain ⟨l, rest, hrest, hl, rfl⟩ := Cursor.isOp_iff.mp hopen
    obtain ⟨r, rest', hrest', hr, rfl⟩ := Cursor.isOp_iff.mp hclose
    obtain ⟨ts, htook, hsettled, honLine⟩ := hp hinside
    obtain ⟨us, htook', hus⟩ := hk a hmore
    have hbrackets : Clear (l :: (ts ++ [r])) :=
      .bracketed (weight_opening hl hopening) hsettled honLine (weight_closing hr hclosing)
    exact ⟨_, ((Took.advance hrest).trans (htook.trans (.advance hrest'))).trans htook',
      hbrackets.append hus⟩
  · exact hno hrun

theorem outlines_link (h : inner.Outlined) (start : Nat) (base : Expr) :
    Outlines (link inner start base) := by
  have hnext : ∀ build : Span → Expr, Outlines (do links inner start (build (← spanFrom start))) :=
    fun _ => Outlines.spanFrom.bind fun _ => outlines_links h start _
  refine .enclosed (by simp) (by simp) (fun c given d hgiven => ?_) (fun _ => hnext _)
    (.enclosed (by simp) (by simp) (fun c parts d hparts => ?_) (fun _ => hnext _) ?_)
  · obtain ⟨ts, htook, hts⟩ := gives_arguments h.sound hgiven
    exact ⟨ts, htook, hts.settled, hts.onLine⟩
  · obtain ⟨ts, htook, hts⟩ := gives_subscript h.sound hparts
    exact ⟨ts, htook, hts.settled, hts.onLine⟩
  · exact (Outlines.expectOp (by decide)).bind fun _ => Outlines.identifier.bind fun _ => hnext _

/-! ## First tokens -/

/-- A parser begins with a token that can start an expression. -/
def Starts (p : Parser α) : Prop :=
  ∀ ⦃c : Cursor⦄ ⦃a : α⦄ ⦃d : Cursor⦄, Runs p c a d → canStartExpr c = true

theorem canStartExpr_of_isName {text : String} {c : Cursor}
    (h : text ∈ ["not", "lambda", "await", "None", "True", "False"]) (hc : c.isName text = true) :
    canStartExpr c = true := by
  obtain ⟨t, ts, hrest, hkind, rfl⟩ := Cursor.isName_iff.mp hc
  simpa [canStartExpr, Cursor.peek_of_rest hrest, hkind] using .inr (by simpa using h)

theorem canStartExpr_of_isAnyOp {texts : List String} {c : Cursor}
    (h : ∀ s ∈ texts, s ∈ ["(", "[", "\x7b", "-", "+", "~", "*", "..."])
    (hc : c.isAnyOp texts = true) : canStartExpr c = true := by
  obtain ⟨t, ts, hrest, hkind, htext⟩ := Cursor.isAnyOp_iff.mp hc
  simpa [canStartExpr, Cursor.peek_of_rest hrest, hkind] using h _ htext

namespace Starts

variable {p q : Parser α} {k : α → Parser β}

theorem bind (h : Starts p) : Starts (p >>= k) := by
  intro c b d hrun
  obtain ⟨a, m, hp, -⟩ := runs_bind.mp hrun
  exact h hp

theorem here {k : Nat → Parser α} (h : ∀ start, Starts (k start)) : Starts (Parser.here >>= k) :=
  fun _ _ _ hrun => h _ (runs_here_bind.mp hrun)

theorem whether {test : Cursor → Bool} (htest : ∀ c, test c = true → canStartExpr c = true)
    (h : Starts p) : Starts (do if ← ask test then q else p) := by
  intro c a d hrun
  rw [runs_ask_bind, runs_ite] at hrun
  rcases hrun with ⟨hpass, -⟩ | ⟨-, hrun⟩
  · exact htest c hpass
  · exact h hrun

theorem eat {test : Cursor → Bool} (htest : ∀ c, test c = true → canStartExpr c = true)
    (h : Starts p) : Starts (do if ← Parser.eat test then q else p) := by
  intro c a d hrun
  rcases runs_eat_bind.mp hrun with ⟨hpass, -⟩ | ⟨-, hrun⟩
  · exact htest c hpass
  · exact h hrun

theorem chain {isOperator : Cursor → Bool} {operand : Parser Expr} (h : Starts operand) :
    Starts (chain isOperator operand) :=
  .here fun _ => h.bind

end Starts

theorem starts_atom : Starts (atom inner) := by
  intro c e d hrun
  rw [atom, runs_ask_bind] at hrun
  split at hrun
  case h_1 hkind => simp [canStartExpr, hkind]
  case h_2 hkind => simp [canStartExpr, hkind]
  case h_3 hkind =>
    simp only [runs_ite, runs_unexpectedToken] at hrun
    rw [canStartExpr, hkind]
    obtain ⟨htext, -⟩ | ⟨-, ⟨htext, -⟩ | ⟨-, ⟨htext, -⟩ | ⟨-, ⟨-, ⟨⟩⟩ | ⟨hplain, -⟩⟩⟩⟩ := hrun
    · simp [htext]
    · simp [htext]
    · simp [htext]
    · simpa using .inl (by simpa using hplain)
  case h_4 hkind =>
    simp only [runs_ite, runs_unexpectedToken] at hrun
    rw [canStartExpr, hkind]
    obtain ⟨htext, -⟩ | ⟨-, ⟨htext, -⟩ | ⟨-, ⟨htext, -⟩ | ⟨-, ⟨htext, -⟩ | ⟨-, ⟨⟩⟩⟩⟩⟩ := hrun
    all_goals simp [htext]
  case h_5 => simp at hrun

theorem starts_factor : Starts (factor inner) :=
  .whether (fun _ => canStartExpr_of_isAnyOp (by simp)) (.here fun _ =>
    .eat (fun _ => canStartExpr_of_isName (by simp)) (.bind (.here fun _ => starts_atom.bind)))

theorem starts_binary : Starts (binary inner) := by
  have hfrom : ∀ ranks : List (List String), Starts (binaryFrom inner ranks) := by
    intro ranks
    induction ranks with
    | nil => exact starts_factor
    | cons ops tighter ih => exact ih.chain
  exact hfrom binaryRanks

theorem starts_test : Starts (test inner) := by
  have hnot : Starts (notTest inner) := .whether (fun _ => canStartExpr_of_isName (by simp))
    (.here fun _ => starts_binary.bind)
  exact .whether (fun _ => canStartExpr_of_isName (by simp)) (.here fun _ => hnot.chain.chain.bind)

/-- An expression begins with a token that the parser takes for the start of one. -/
theorem starts_starExpressions : Starts (starExpressions inner) := by
  have hstar : ∀ c : Cursor, c.isOp "*" = true → canStartExpr c = true := fun c hc =>
    canStartExpr_of_isAnyOp (show ∀ s ∈ ["*"], _ by simp)
      (by simpa [Cursor.isAnyOp, Cursor.isOp] using hc)
  exact .here fun _ => .bind (.whether hstar starts_test)

end Parser

namespace Level

theorem exhausted_outlined : exhausted.Outlined := by
  refine ⟨exhausted_sound, ?_, ?_, ?_, ?_, ?_, ?_, ?_, ?_⟩ <;>
    simp [exhausted, Parser.Outlines, Parser.Closes]

theorem Outlined.above {inner : Level} (h : inner.Outlined) : (above inner).Outlined where
  sound := h.sound.above
  test := Parser.outlines_test h
  notTest := Parser.outlines_notTest h
  factor := Parser.outlines_factor h
  power := Parser.outlines_power h
  link := Parser.outlines_link h
  paren := Parser.closes_paren h.sound
  list := Parser.closes_list h.sound
  brace := Parser.closes_brace h.sound

/-- What an expression of any level takes may stand in an expression. -/
theorem ofBudget_outlined : ∀ n, (ofBudget n).Outlined
  | 0 => exhausted_outlined
  | n + 1 => (ofBudget_outlined n).above

end Level

end WorkflowAudit.Script
