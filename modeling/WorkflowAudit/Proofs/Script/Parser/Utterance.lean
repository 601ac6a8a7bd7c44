import WorkflowAudit.Proofs.Script.Parser.Operator

/-!
# Expressions are phrases of their tokens

One lemma a production. Between two operands there is always a mark, so an operand ends right
before a parenthesis exactly where the parenthesis calls it.
-/

namespace WorkflowAudit.Script

namespace Parser

variable {inner : Level} {start : Cursor} {es : List Expr}

/-! ## Atoms -/

/-- Tokens that are no brackets and make up a node without parts. -/
theorem phrases_leaf {t : Token} {ts : List Token} {e : Expr}
    (h : ∀ u ∈ t :: ts, u.kind.isLexical = true ∧ u.weight = 0 ∧ u.endsOperand = true)
    (hparts : e.children = []) (hplain : e.asCall? = none) : Phrases (t :: ts) [e] .operand := by
  have hwords : ∀ us : List Token, (∀ u ∈ us, u ∈ t :: ts) → ∀ previous,
      (us = [] ∨ (after previous us).any Token.endsOperand = true) ∧
        ∃ vs, Phrase previous us [] vs := by
    intro us hus
    induction us with
    | nil => exact fun previous => ⟨.inl rfl, [], .nil previous⟩
    | cons u us ih =>
      intro previous
      obtain ⟨htext, hweight, hends⟩ := h u (hus u List.mem_cons_self)
      obtain ⟨hlast, vs, hvs⟩ := ih (fun v hv => hus v (List.mem_cons_of_mem u hv)) (some u)
      refine ⟨.inr ?_, _, (Phrase.word previous htext hweight).append hvs⟩
      rcases hlast with rfl | hlast
      · simpa using hends
      · simpa using hlast
  intro previous _
  obtain ⟨hlast, vs, hvs⟩ := hwords (t :: ts) (fun u hu => hu) previous
  exact ⟨hlast.resolve_left (List.cons_ne_nil t ts), vs,
    .node (List.cons_ne_nil t ts) hplain (hparts ▸ hvs)⟩

theorem phrased_token {c : Cursor} {e : Expr} (htext : c.peek.kind.isLexical = true)
    (hweight : c.peek.weight = 0) (hends : c.peek.endsOperand = true) (hspan : e.span = c.peek.span)
    (hparts : e.children = []) (hplain : e.asCall? = none) : Phrased c [e] .whole c.advance := by
  have htook : Took c [c.peek] c.advance :=
    .peek_kind rfl (by rintro hkind; rw [hkind] at htext; cases htext)
  refine .of_enclosed htook (.core ⟨c.peek, [], rfl, htext, by rw [hspan], ?_⟩
    (phrases_leaf (by simp [htext, hweight, hends]) hparts hplain))
  simp [stopAfter, htext, hspan]

theorem utters_strings {c d : Cursor} {e : Expr} (hkind : c.peek.kind = .str)
    (hrun : Runs strings c e d) : Phrased c [e] .whole d := by
  obtain ⟨t, ts, value, htook, hall, rfl⟩ := took_strings hkind hrun
  have hopens := opens_cons (t := t) (by rw [hall t List.mem_cons_self]; rfl) ts
  refine .of_enclosed htook (.core (covers_of_took htook hopens rfl)
    (phrases_leaf (fun u hu => ?_) rfl rfl))
  rw [Token.weight_of_ne_op (by rw [hall u hu]; decide), Token.endsOperand, hall u hu]
  exact ⟨rfl, rfl, rfl⟩

theorem utters_atom (h : inner.Phrased) : Utters (atom inner) := by
  intro c e d hrun
  rw [atom, runs_ask_bind] at hrun
  split at hrun
  case h_1 hkind =>
    obtain ⟨rfl, rfl⟩ := by simpa only [runs_bump_bind, runs_pure] using hrun
    exact phrased_token (by rw [hkind]; rfl) (Token.weight_of_ne_op (by rw [hkind]; decide))
      (by rw [Token.endsOperand, hkind]) rfl rfl rfl
  case h_2 hkind => exact utters_strings hkind hrun
  case h_3 hkind =>
    have hword : ∀ e : Expr, (c.peek.text ∉ keywords ∨ c.peek.text ∈ ["None", "True", "False"]) →
        e.span = c.peek.span → e.children = [] → e.asCall? = none →
          Phrased c [e] .whole c.advance := fun e hends =>
      phrased_token (by rw [hkind]; rfl) (weight_of_name hkind) (by
        simp only [Token.endsOperand, hkind]
        simpa using hends)
    simp only [runs_ite, runs_bump_bind, runs_pure, runs_unexpectedToken] at hrun
    obtain ⟨ht, rfl, rfl⟩ | ⟨-, ⟨ht, rfl, rfl⟩ | ⟨-, ⟨ht, rfl, rfl⟩ | ⟨-, ⟨-, ⟨⟩⟩ | ⟨ht, rfl, rfl⟩⟩⟩⟩ := hrun
    · exact hword _ (.inr (by simp [ht])) rfl rfl rfl
    · exact hword _ (.inr (by simp [ht])) rfl rfl rfl
    · exact hword _ (.inr (by simp [ht])) rfl rfl rfl
    · exact hword _ (.inl (by simpa using ht)) rfl rfl rfl
  case h_4 hkind =>
    have hbracket : ∀ {opening : String} {p : Nat → Parser Expr}, UttersBracketed opening p →
        c.peek.text = opening → Runs (nested (p c.peek.span.start)) c.advance e d →
          Phrased c [e] .whole d := by
      intro opening p hp htext hrun
      obtain ⟨-, m, hinner, rfl⟩ := runs_nested.mp hrun
      have hopened : Took c [c.peek] c.advance := .peek_kind hkind (by decide)
      exact (hp (hopened.toDepth _) ⟨hkind, htext⟩ hinner).toDepth _
    simp only [runs_ite, runs_bump_bind, runs_pure, runs_unexpectedToken] at hrun
    obtain ⟨htext, rfl, rfl⟩ | ⟨-, ⟨htext, hrun⟩ | ⟨-, ⟨htext, hrun⟩ | ⟨-, ⟨htext, hrun⟩ | ⟨-, ⟨⟩⟩⟩⟩⟩ := hrun
    · exact phrased_token (by rw [hkind]; rfl) (by simp [Token.weight, hkind, htext])
        (by rw [endsOperand_of_op hkind, htext]; decide) rfl rfl rfl
    · exact hbracket h.paren htext hrun
    · exact hbracket h.list htext hrun
    · exact hbracket h.brace htext hrun
  case h_5 => simp at hrun

/-! ## Operators -/

theorem says_links (h : inner.Phrased) {base : Expr} :
    Says start [base] .whole (links inner start.peek.span.start base)
      fun e => Phrased start [e] .whole := by
  refine .ask fun _ => .ite (fun c e d hc hrun => ?_) (.pure fun _ => id)
  obtain ⟨-, m, hlink, rfl⟩ := runs_nested.mp hrun
  exact (h.link (hc.toDepth _) hlink).toDepth _

theorem utters_primary (h : inner.Phrased) : Utters (primary inner) :=
  (utters_atom h).here fun _ _ => says_links h

/-- What follows the base of a power. -/
theorem says_exponent (h : inner.Phrased) {base : Expr} : Says start [base] .whole (do
      if ← eatOp "**" then
        let exponent ← nested inner.factor
        return .compound (← spanFrom start.peek.span.start) [base, exponent]
      else return base) fun e => Phrased start [e] .whole :=
  .eat (mark_isOp (by decide))
    (h.factor.nested.bind fun _ => .node (fun _ => rfl) (fun _ => rfl) fun _ => rfl)
    (.pure fun _ hc => hc)

theorem utters_power (h : inner.Phrased) : Utters (power inner) := by
  intro c e d hrun
  rw [power, runs_here_bind, eatName, runs_eat_bind] at hrun
  rcases hrun with ⟨hawait, hrun⟩ | ⟨-, hrun⟩
  · exact h.power.nested.bind (fun _ => .node (fun _ => rfl) (fun _ => rfl) fun _ => rfl)
      ((Phrased.nil c).mark (mark_isName (by decide)) hawait) hrun
  · obtain ⟨base, m, hbase, hrun⟩ := runs_bind.mp hrun
    exact says_exponent h (utters_primary h hbase) hrun

theorem utters_factor (h : inner.Phrased) : Utters (factor inner) :=
  utters_marked (mark_isAnyOp (by decide)) (fun _ => h.factor.nested.bind fun _ =>
    .node (fun _ => rfl) (fun _ => rfl) fun _ => rfl) (utters_power h)

theorem Utters.chain {isOperator : Cursor → Bool} {operand : Parser Expr} (h : Utters operand)
    (htest : Mark isOperator) : Utters (chain isOperator operand) :=
  h.here fun _ _ => .ask fun _ => .ite (.operand <| (h.loopItems htest).bind fun _ =>
    .node (fun _ => rfl) (fun _ => rfl) fun _ => rfl) (.pure fun _ => id)

theorem utters_binary (h : inner.Phrased) : Utters (binary inner) := by
  have hfrom : ∀ ranks : List (List String), (∀ ops ∈ ranks, ∀ s ∈ ops,
      s ∉ ["(", "[", "\x7b", ")", "]", "\x7d", "..."]) → Utters (binaryFrom inner ranks) := by
    intro ranks hranks
    induction ranks with
    | nil => exact utters_factor h
    | cons ops tighter ih =>
      exact .chain (ih fun ops' hops => hranks ops' (List.mem_cons_of_mem ops hops))
        (mark_isAnyOp (hranks ops List.mem_cons_self))
  exact hfrom binaryRanks (by decide)

theorem mark_atCompareOp : Mark atCompareOp :=
  .or (.or (.or (mark_isAnyOp (by decide)) (mark_isName (by decide))) (mark_isName (by decide)))
    (.and (mark_isName (by decide)) _)

theorem utters_comparison (h : inner.Phrased) : Utters (comparison inner) := by
  have hitem : ∀ {start : Cursor} {es : List Expr}, Says start es .mark
      (binary inner >>= fun e => Pure.pure (Turn.item e)) fun turn => Phrased start
        (es ++ turnParts (fun e => [e]) turn) .operand :=
    fun {_ _} => (utters_binary h).bind fun _ => .pure fun _ hc => hc
  have hmore : ∀ {start : Cursor} {es : List Expr}, Says start es .operand
      (loop atCompareOp fun t => do
        if t.kind = .name && (t.text = "not" || t.text = "is") then
          let _ ← eatName "in"
          let _ ← eatName "not"
        return .item (← binary inner)) fun more => Phrased start (es ++ more) .operand := by
    intro start es c more d hc hrun
    rw [← List.flatMap_singleton' more]
    refine says_loop (fun e => [e]) mark_atCompareOp (fun es c t ts _ _ hmark a d hturn => ?_) hc hrun
    refine Says.ite ?_ hitem hmark hturn
    exact .eat (mark_isName (by decide)) (.eat (mark_isName (by decide)) hitem hitem)
      (.eat (mark_isName (by decide)) hitem hitem)
  exact (utters_binary h).here fun _ _ => .ask fun _ => .ite (.operand <| hmore.bind fun _ =>
    .node (fun _ => rfl) (fun _ => rfl) fun _ => rfl) (.pure fun _ => id)

theorem utters_notTest (h : inner.Phrased) : Utters (notTest inner) :=
  utters_marked (mark_isName (by decide)) (fun _ => h.notTest.nested.bind fun _ =>
    .node (fun _ => rfl) (fun _ => rfl) fun _ => rfl) (utters_comparison h)

theorem utters_orTest (h : inner.Phrased) : Utters (orTest inner) :=
  ((utters_notTest h).chain (mark_isName (by decide))).chain (mark_isName (by decide))

/-! ## Lambdas and conditionals -/

theorem utters_lambda (h : inner.Phrased) {c d : Cursor} {e : Expr}
    (hword : c.isName "lambda" = true) (hrun : Runs (lambda inner) c e d) :
    Phrased c [e] .whole d := by
  rw [lambda, runs_bump_bind, runs_bind] at hrun
  obtain ⟨_, m, hskip, hrun⟩ := hrun
  rw [runs_bump_bind] at hrun
  obtain ⟨l, rest, hrest, hl⟩ := Cursor.isName_iff.mp hword
  obtain ⟨ts, hts, -, hsettled, -, hcolon⟩ := settled_of_skipParameters hskip
  obtain ⟨r, rest', hrest', hr⟩ := Cursor.isOp_iff.mp hcolon
  have hparameters : Phrased c [] .mark m.advance := by
    refine ⟨_, (Took.advance hrest).trans (hts.trans (.advance hrest')), fun previous _ => ?_, by simp⟩
    refine ⟨?_, _, .parameters previous hl hsettled hr⟩
    simp [Ending.Fits, endsOperand_of_op hr.1, hr.2]
  exact h.test.nested.bind (fun _ => .node (fun _ => rfl) (fun _ => rfl) fun _ => rfl)
    hparameters hrun

theorem utters_test (h : inner.Phrased) : Utters (test inner) := by
  intro c e d hrun
  rw [test, runs_ask_bind, runs_ite] at hrun
  rcases hrun with ⟨hword, hrun⟩ | ⟨-, hrun⟩
  · exact utters_lambda h hword hrun
  · refine (utters_orTest h).here (fun _ _ => .eat (mark_isName (by decide)) ?_ ?_) hrun
    · exact (utters_orTest h).bind fun _ => .expectWord (mark_isName (by decide)) <|
        h.test.nested.bind fun _ => .node (fun _ => rfl) (fun _ => rfl) fun _ => rfl
    · exact .pure fun _ hc => hc

theorem utters_namedTest (h : inner.Phrased) : Utters (namedTest inner) :=
  (utters_test h).here fun _ _ => .eat (mark_isOp (by decide)) ((utters_test h).bind fun _ =>
    .node (fun _ => rfl) (fun _ => rfl) fun _ => rfl) (.pure fun _ => id)

theorem utters_starOrTest (h : inner.Phrased) : Utters (starOrTest inner) :=
  utters_marked (mark_isOp (by decide)) (fun _ => (utters_binary h).bind fun _ =>
    .node (fun _ => rfl) (fun _ => rfl) fun _ => rfl) (utters_test h)

theorem utters_starOrNamed (h : inner.Phrased) : Utters (starOrNamed inner) :=
  utters_ite (utters_starOrTest h) (utters_namedTest h)

/-- A tuple without parentheses may end with a comma. -/
theorem phrased_starExpressions (h : inner.Phrased) {c d : Cursor} {e : Expr}
    (hrun : Runs (starExpressions inner) c e d) : Phrased c [e] .either d := by
  rw [starExpressions, runs_here_bind, runs_bind] at hrun
  obtain ⟨first, m, hfirst, hrun⟩ := hrun
  have hfirst := utters_starOrTest h hfirst
  rw [runs_ask_bind, runs_ite] at hrun
  rcases hrun with ⟨-, hrun⟩ | ⟨-, hrun⟩
  · obtain ⟨more, m', hmore, hrun⟩ := runs_bind.mp hrun
    obtain ⟨rfl, rfl⟩ := runs_spanFrom_pure.mp hrun
    have hall := (utters_starOrTest h).separated (mark_isOp (by decide)) hfirst hmore
    exact .node_either (e := .tuple _ (first :: more)) hall
      (Nat.lt_of_le_of_lt hmore.1 hfirst.operand.length_lt) rfl
  · obtain ⟨rfl, rfl⟩ := runs_pure.mp hrun
    exact hfirst.either

/-- A `yield` with its operands. -/
theorem phrased_yieldExpr (h : inner.Phrased) {c d : Cursor} {e : Expr}
    (hword : c.isName "yield" = true) (hrun : Runs (yieldExpr inner) c e d) : ∃ parts,
      e = .compound ⟨c.peek.span.start, max d.lastEnd c.peek.span.start⟩ parts ∧
        Phrased c parts .either d := by
  have hmark := (Phrased.nil c).mark (mark_isName (by decide)) hword
  rw [yieldExpr, runs_bump_bind, eatName, runs_eat_bind] at hrun
  rcases hrun with ⟨hfrom, hrun⟩ | ⟨-, hrun⟩
  · rw [runs_ask_bind, if_pos rfl, runs_bind] at hrun
    obtain ⟨operand, m, hoperand, hrun⟩ := hrun
    rw [runs_pure_bind] at hrun
    obtain ⟨rfl, rfl⟩ := runs_spanFrom_pure.mp hrun
    exact ⟨_, rfl, ((hmark.mark (mark_isName (by decide)) hfrom).append (utters_test h hoperand)).either⟩
  rw [runs_ask_bind, if_neg Bool.false_ne_true, runs_ite] at hrun
  rcases hrun with ⟨-, hrun⟩ | ⟨-, hrun⟩
  · rw [runs_bind] at hrun
    obtain ⟨operand, m, hoperand, hrun⟩ := hrun
    rw [runs_pure_bind] at hrun
    obtain ⟨rfl, rfl⟩ := runs_spanFrom_pure.mp hrun
    exact ⟨_, rfl, hmark.append (phrased_starExpressions h hoperand)⟩
  · rw [runs_pure_bind] at hrun
    obtain ⟨rfl, rfl⟩ := runs_spanFrom_pure.mp hrun
    exact ⟨_, rfl, hmark.either⟩

/-! ## Displays -/

theorem utters_comprehensionTarget (h : inner.Phrased) : Utters (comprehensionTarget inner) :=
  utters_ite (utters_starOrTest h) (utters_binary h)

theorem mark_atComprehension : Mark atComprehension :=
  .or (mark_isName (by decide)) (.and (mark_isName (by decide)) _)

/-- One clause of a comprehension, after its first word. -/
theorem says_clause (h : inner.Phrased) : Says start es .mark (do
      let first ← comprehensionTarget inner
      let targets ← separated "," (·.isName "in") (comprehensionTarget inner)
      expectWord "in"
      let source ← orTest inner
      let conditions ← loopItems (·.isName "if") (orTest inner)
      return Turn.item (first :: targets ++ source :: conditions)) fun turn =>
    Phrased start (es ++ turnParts id turn) .operand :=
  (utters_comprehensionTarget h).bind fun _ =>
    ((utters_comprehensionTarget h).separated (mark_isOp (by decide))).bind fun _ =>
      .expectWord (mark_isName (by decide)) <| (utters_orTest h).bind fun _ =>
        ((utters_orTest h).loopItems (mark_isName (by decide))).bind fun _ =>
          .pure fun _ hc => by simpa [turnParts] using hc

theorem says_comprehension (h : inner.Phrased) :
    Says start es .operand (comprehension inner) fun clauses =>
      Phrased start (es ++ clauses) .operand := by
  intro c clauses d hc hrun
  obtain ⟨turns, hloop, rfl⟩ := runs_bind_pure.mp hrun
  rw [← List.flatMap_id]
  refine says_loop id mark_atComprehension (fun es c t ts hrest htest hmark a d hturn => ?_) hc hloop
  by_cases hasync : t.text = "async"
  · rw [if_pos hasync, runs_bump_bind] at hturn
    have hfor : Mark (·.isName "for") := mark_isName (by decide)
    exact says_clause h (hmark.mark hfor (second_atComprehension hrest htest hasync)) hturn
  · rw [if_neg hasync] at hturn
    exact says_clause h hmark hturn

/-- The node of what was read behind an opening bracket, closed. -/
def Fills (start c : Cursor) (closing : String) (e : Expr) (d : Cursor) : Prop :=
  ∃ m, Phrased c e.children .either m ∧ m.isOp closing = true ∧ d = m.advance ∧
    e.asCall? = none ∧ e.span = ⟨start.peek.span.start, max d.lastEnd start.peek.span.start⟩

section

variable {c d : Cursor} {closing : String} {ending : Ending} {e : Expr} {l : Token}

theorem Fills.group (h : Fills start c ")" e d) (hopen : Took start [l] c)
    (hl : l.kind = .op ∧ l.text = "(") : Phrased start [e] .whole d := by
  obtain ⟨m, hm, hclose, rfl, hplain, hspan⟩ := h
  exact hm.closed hopen hl hclose hplain hspan

theorem Fills.display (h : Fills start c closing e d) (hopen : Took start [l] c)
    (hl : l.kind = .op ∧ l.text ∈ ["[", "\x7b"]) (hclosing : closing ∈ ["]", "\x7d"]) :
    Phrased start [e] .whole d := by
  obtain ⟨m, hm, hclose, rfl, hplain, hspan⟩ := h
  exact hm.display hopen hl hclosing hclose hplain hspan

theorem fills_empty (hclose : c.isOp closing = true) (hchildren : e.children = [])
    (hplain : e.asCall? = none)
    (hspan : e.span = ⟨start.peek.span.start, max c.advance.lastEnd start.peek.span.start⟩) :
    Fills start c closing e c.advance :=
  ⟨c, hchildren ▸ (Phrased.nil c).either, hclose, rfl, hplain, hspan⟩

theorem says_closing (build : Span → Expr) (hspan : ∀ s, (build s).span = s)
    (hchildren : ∀ s, (build s).children = es) (hplain : ∀ s, (build s).asCall? = none) :
    Says c es ending (do expectOp closing; return build (← spanFrom start.peek.span.start))
      (Fills start c closing) := by
  intro m e d hm hrun
  obtain ⟨hclose, hrun⟩ := runs_expectOp_bind.mp hrun
  obtain ⟨rfl, rfl⟩ := runs_spanFrom_pure.mp hrun
  exact ⟨m, hchildren _ ▸ hm.either, hclose, rfl, hplain _, hspan _⟩

end

/-- The items of a display after its first one, and its closing bracket. -/
theorem says_display (h : inner.Phrased) {c : Cursor} {closing : String} {first : Expr}
    {build : Span → List Expr → Expr} (hbuild : Builds build) :
    Says c [first] .operand (display inner closing start.peek.span.start first build)
      (Fills start c closing) :=
  .ask fun _ => .ite
    ((says_comprehension h).bind fun clauses =>
      says_closing _ (fun _ => rfl) (fun _ => rfl) fun _ => rfl)
    (((utters_starOrNamed h).separated (mark_isOp (by decide))).bind fun more =>
      says_closing _ (fun s => hbuild.span s _) (fun s => hbuild.children s _)
        fun s => hbuild.plain s _)

theorem utters_paren (h : inner.Phrased) : UttersBracketed "(" (paren inner) := by
  intro start c l e d hopen hl hrun
  rw [paren, eatOp, runs_eat_bind] at hrun
  rcases hrun with ⟨hclose, hrun⟩ | ⟨-, hrun⟩
  · rw [if_pos rfl] at hrun
    obtain ⟨rfl, rfl⟩ := runs_spanFrom_pure.mp hrun
    exact (fills_empty (e := .tuple _ []) hclose rfl rfl rfl).group hopen hl
  rw [if_neg Bool.false_ne_true, runs_ask_bind, runs_ite] at hrun
  rcases hrun with ⟨hyield, hrun⟩ | ⟨-, hrun⟩
  · rw [runs_bind] at hrun
    obtain ⟨value, m, hvalue, hrun⟩ := hrun
    obtain ⟨parts, rfl, hparts⟩ := phrased_yieldExpr h hyield hvalue
    exact (says_closing (.compound · parts) (fun _ => rfl) (fun _ => rfl)
      (fun _ => rfl) hparts hrun).group hopen hl
  · rw [runs_bind] at hrun
    obtain ⟨first, m, hfirst, hrun⟩ := hrun
    have hfirst := utters_starOrNamed h hfirst
    rw [runs_ask_bind, runs_ite] at hrun
    rcases hrun with ⟨-, hrun⟩ | ⟨-, hrun⟩
    · exact (says_display h builds_tuple hfirst.operand hrun).group hopen hl
    · obtain ⟨hclose, hrun⟩ := runs_expectOp_bind.mp hrun
      obtain ⟨rfl, rfl⟩ := runs_pure.mp hrun
      exact hfirst.parens hopen hl hclose

theorem utters_list (h : inner.Phrased) : UttersBracketed "[" (list inner) := by
  intro start c l e d hopen hl hrun
  suffices hfills : Fills start c "]" e d from
    hfills.display hopen ⟨hl.1, by simp [hl.2]⟩ (by simp)
  rw [list, eatOp, runs_eat_bind] at hrun
  rcases hrun with ⟨hclose, hrun⟩ | ⟨-, hrun⟩
  · rw [if_pos rfl] at hrun
    obtain ⟨rfl, rfl⟩ := runs_spanFrom_pure.mp hrun
    exact fills_empty (e := .list _ []) hclose rfl rfl rfl
  · rw [if_neg Bool.false_ne_true, runs_bind] at hrun
    obtain ⟨first, m, hfirst, hrun⟩ := hrun
    exact says_display h builds_list (utters_starOrNamed h hfirst).operand hrun

/-- The value of an entry whose key has been read. -/
theorem says_dictValue (h : inner.Phrased) {key : Expr} {ending : Ending} :
    Says start [key] ending (dictValue inner (some key)) fun item =>
      Phrased start item.parts .operand :=
  .expectOp (mark_isOp (by decide)) ((utters_test h).bind fun _ => .pure fun _ hc => hc)

theorem says_dictSpread (h : inner.Phrased) :
    Says start [] .mark (dictValue inner none) fun item => Phrased start item.parts .operand :=
  (utters_binary h).bind fun _ => .pure fun _ hc => hc

theorem phrased_dictItem (h : inner.Phrased) {c d : Cursor} {item : DictItem Expr}
    (hrun : Runs (dictItem inner) c item d) : Phrased c item.parts .operand d := by
  rw [dictItem, eatOp, runs_eat_bind] at hrun
  rcases hrun with ⟨hstars, hrun⟩ | ⟨-, hrun⟩
  · exact says_dictSpread h ((Phrased.nil c).mark (mark_isOp (by decide)) hstars) hrun
  · rw [if_neg Bool.false_ne_true, runs_bind] at hrun
    obtain ⟨key, m, hkey, hrun⟩ := hrun
    exact says_dictValue h (utters_test h hkey) hrun

theorem says_dictFrom (h : inner.Phrased) {c : Cursor} {first : DictItem Expr} :
    Says c first.parts .operand (dictFrom inner start.peek.span.start first)
      (Fills start c "\x7d") :=
  .ask fun _ => .ite
    ((says_comprehension h).bind fun clauses =>
      says_closing _ (fun _ => rfl) (fun _ => by simp [DictItem.parts, Expr.children]) fun _ => rfl)
    ((says_separated DictItem.parts (mark_isOp (by decide)) fun _ _ _ hitem =>
      ⟨_, phrased_dictItem h hitem⟩).bind fun more =>
        says_closing _ (fun _ => rfl) (fun _ => rfl) fun _ => rfl)

theorem utters_brace (h : inner.Phrased) : UttersBracketed "\x7b" (brace inner) := by
  intro start c l e d hopen hl hrun
  suffices hfills : Fills start c "\x7d" e d from
    hfills.display hopen ⟨hl.1, by simp [hl.2]⟩ (by simp)
  rw [brace, eatOp, runs_eat_bind] at hrun
  rcases hrun with ⟨hclose, hrun⟩ | ⟨-, hrun⟩
  · rw [if_pos rfl] at hrun
    obtain ⟨rfl, rfl⟩ := runs_spanFrom_pure.mp hrun
    exact fills_empty (e := .dict _ []) hclose rfl rfl rfl
  rw [if_neg Bool.false_ne_true, eatOp, runs_eat_bind] at hrun
  rcases hrun with ⟨hstars, hrun⟩ | ⟨-, hrun⟩
  · rw [if_pos rfl, runs_bind] at hrun
    obtain ⟨first, m, hfirst, hrun⟩ := hrun
    have hmark := (Phrased.nil c).mark (mark_isOp (by decide)) hstars
    exact says_dictFrom h (says_dictSpread h hmark hfirst) hrun
  rw [if_neg Bool.false_ne_true, runs_bind] at hrun
  obtain ⟨first, m, hfirst, hrun⟩ := hrun
  have hfirst := utters_starOrNamed h hfirst
  rw [runs_ask_bind, runs_ite] at hrun
  rcases hrun with ⟨-, hrun⟩ | ⟨-, hrun⟩
  · rw [runs_bind] at hrun
    obtain ⟨item, m', hitem, hrun⟩ := hrun
    exact says_dictFrom h (says_dictValue h hfirst hitem) hrun
  · exact says_display h builds_set hfirst.operand hrun

/-! ## Calls and subscripts -/

/-- The expression of an argument. -/
def argumentValue : Expr ⊕ Keyword Expr → Expr := Sum.elim id Keyword.value

/-- A call lists its arguments by position before those by keyword. -/
theorem perm_argumentValue (given : List (Expr ⊕ Keyword Expr)) : (given.map argumentValue).Perm
    (given.filterMap Sum.getLeft? ++ Keyword.valuesOf (given.filterMap Sum.getRight?)) := by
  induction given with
  | nil => exact .nil
  | cons a given ih =>
    cases a with
    | inl e => exact ih.cons e
    | inr k => exact (ih.cons k.value).trans List.perm_middle.symm

theorem phrased_argument (h : inner.Phrased) {c d : Cursor} {a : Expr ⊕ Keyword Expr}
    (hrun : Runs (argument inner) c a d) : Phrased c [argumentValue a] .operand d := by
  rw [argument, runs_here_bind, eatOp, runs_eat_bind] at hrun
  rcases hrun with ⟨hstars, hrun⟩ | ⟨-, hrun⟩
  · rw [if_pos rfl, runs_bind] at hrun
    obtain ⟨value, m, hvalue, hrun⟩ := hrun
    obtain ⟨rfl, rfl⟩ := runs_spanFrom_pure.mp hrun
    exact ((Phrased.nil c).mark (mark_isOp (by decide)) hstars).append (utters_test h hvalue)
  rw [if_neg Bool.false_ne_true, runs_ask_bind, runs_ite] at hrun
  rcases hrun with ⟨-, hrun⟩ | ⟨-, hrun⟩
  · obtain ⟨e, he, rfl⟩ := runs_bind_pure.mp hrun
    exact (utters_starOrTest h he).operand
  rw [runs_ask_bind, runs_ite] at hrun
  rcases hrun with ⟨hkeyword, hrun⟩ | ⟨-, hrun⟩
  · obtain ⟨t, l, rest, hrest, ht, hl, hlt⟩ := atKeywordArgument_iff.mp hkeyword
    rw [runs_bind] at hrun
    obtain ⟨arg, m, harg, hrun⟩ := hrun
    obtain ⟨-, rfl, rfl⟩ := runs_identifier.mp harg
    rw [runs_bump_bind, runs_bind] at hrun
    obtain ⟨value, m, hvalue, hrun⟩ := hrun
    obtain ⟨rfl, rfl⟩ := runs_spanFrom_pure.mp hrun
    have hname : Phrased c [] .either c.advance :=
      (Phrased.nil c).token hrest (by rw [ht]; rfl) (weight_of_name ht) trivial (by simp)
    have hequals : c.advance.isOp "=" = true :=
      Cursor.isOp_iff.mpr ⟨l, rest, Cursor.rest_advance hrest, hl, hlt⟩
    exact (hname.mark (mark_isOp (by decide)) hequals).append (utters_test h hvalue)
  · rw [runs_bind] at hrun
    obtain ⟨value, m, hvalue, hrun⟩ := hrun
    have hvalue := utters_namedTest h hvalue
    rw [runs_ask_bind, runs_ite] at hrun
    rcases hrun with ⟨-, hrun⟩ | ⟨-, hrun⟩
    · rw [runs_bind] at hrun
      obtain ⟨clauses, m', hclauses, hrun⟩ := hrun
      obtain ⟨rfl, rfl⟩ := runs_spanFrom_pure.mp hrun
      have hall := says_comprehension h hvalue.operand hclauses
      exact (Phrased.node (e := .closure _ (value :: clauses)) hall rfl rfl).operand
    · obtain ⟨rfl, rfl⟩ := runs_pure.mp hrun
      exact hvalue.operand

theorem phrased_arguments (h : inner.Phrased) {c d : Cursor} {given : List (Expr ⊕ Keyword Expr)}
    (hrun : Runs (arguments inner) c given d) :
    Phrased c (given.map argumentValue) .either d := by
  rw [arguments, runs_ask_bind, runs_ite] at hrun
  rcases hrun with ⟨-, hrun⟩ | ⟨-, hrun⟩
  · obtain ⟨rfl, rfl⟩ := runs_pure.mp hrun
    exact (Phrased.nil d).either
  · rw [runs_bind] at hrun
    obtain ⟨first, m, hfirst, hrun⟩ := hrun
    obtain ⟨more, hmore, rfl⟩ := runs_bind_pure.mp hrun
    have hall := says_separated (fun a => [argumentValue a]) (mark_isOp (by decide))
      (fun _ _ _ hitem => ⟨_, phrased_argument h hitem⟩) (phrased_argument h hfirst) hmore
    rwa [List.map_eq_flatMap, List.flatMap_cons]

theorem phrased_slice (h : inner.Phrased) {c d : Cursor} {es : List Expr}
    (hrun : Runs (slice inner) c es d) : Phrased c es .either d := by
  have hbounds : ∀ {start : Cursor} {lower : List Expr}, Says start lower .either (do
      let bounds ← loop (·.isOp ":") fun _ => do
        if ← ask (·.isAnyOp [":", "]", ","]) then return .item []
        else return .item [← test inner]
      return lower ++ bounds.flatten) fun es => Phrased start es .either := by
    intro start lower
    refine .bind (says_loop id (mark_isOp (by decide))
      fun es c t ts _ _ hmark a d hturn => ?_) fun bounds => .pure fun _ hc => by simpa using hc
    rw [runs_ask_bind, runs_ite] at hturn
    rcases hturn with ⟨-, hturn⟩ | ⟨-, hturn⟩
    · obtain ⟨rfl, rfl⟩ := runs_pure.mp hturn
      simpa [turnParts] using hmark.either
    · obtain ⟨e, he, rfl⟩ := runs_bind_pure.mp hturn
      exact (hmark.append (utters_test h he)).either
  rw [slice, runs_ask_bind, runs_ite] at hrun
  rcases hrun with ⟨-, hrun⟩ | ⟨-, hrun⟩
  · exact hbounds (Phrased.nil c).either (runs_pure_bind.mp hrun)
  · rw [runs_bind] at hrun
    obtain ⟨lower, m, hlower, hrun⟩ := hrun
    exact hbounds (utters_starOrNamed h hlower).either (runs_pure_bind.mp hrun)

theorem phrased_subscript (h : inner.Phrased) {c d : Cursor} {es : List Expr}
    (hrun : Runs (subscript inner) c es d) : Phrased c es .either d := by
  rw [subscript, runs_bind] at hrun
  obtain ⟨first, m, hfirst, hrun⟩ := hrun
  obtain ⟨more, hmore, rfl⟩ := runs_bind_pure.mp hrun
  rw [← List.flatMap_id]
  exact says_separated id (mark_isOp (by decide))
    (fun _ _ _ hitem => ⟨_, phrased_slice h hitem⟩) (phrased_slice h hfirst) hmore

theorem utters_link (h : inner.Phrased) : UttersLink (link inner) := by
  intro start base c e d hbase hrun
  rw [link, eatOp, runs_eat_bind] at hrun
  rcases hrun with ⟨hopen, hrun⟩ | ⟨-, hrun⟩
  · rw [if_pos rfl, runs_bind] at hrun
    obtain ⟨given, m, hgiven, hrun⟩ := hrun
    obtain ⟨hclose, hrun⟩ := runs_expectOp_bind.mp hrun
    obtain ⟨s, _, hs, hrun⟩ := runs_bind.mp hrun
    obtain ⟨rfl, rfl⟩ := runs_spanFrom.mp hs
    exact says_links h (hbase.call hopen (phrased_arguments h hgiven) hclose
      (perm_argumentValue given)) hrun
  rw [if_neg Bool.false_ne_true, eatOp, runs_eat_bind] at hrun
  rcases hrun with ⟨hopen, hrun⟩ | ⟨-, hrun⟩
  · rw [if_pos rfl, runs_bind] at hrun
    obtain ⟨parts, m, hparts, hrun⟩ := hrun
    obtain ⟨hclose, hrun⟩ := runs_expectOp_bind.mp hrun
    obtain ⟨s, _, hs, hrun⟩ := runs_bind.mp hrun
    obtain ⟨rfl, rfl⟩ := runs_spanFrom.mp hs
    exact says_links h (hbase.subscript hopen (phrased_subscript h hparts) hclose) hrun
  · rw [if_neg Bool.false_ne_true, runs_expectOp_bind] at hrun
    obtain ⟨hdot, hrun⟩ := hrun
    obtain ⟨attr, m, hattr, hrun⟩ := runs_bind.mp hrun
    obtain ⟨⟨hname, hplain⟩, rfl, rfl⟩ := runs_identifier.mp hattr
    obtain ⟨s, _, hs, hrun⟩ := runs_bind.mp hrun
    obtain ⟨rfl, rfl⟩ := runs_spanFrom.mp hs
    obtain ⟨t, ts, hrest, ht⟩ := (Cursor.isKind_iff (show TokenKind.name ≠ .endMarker by decide)).mp
      (by simpa [Cursor.isKind] using hname)
    rw [Cursor.peek_of_rest hrest] at hplain hrun
    have hall : Phrased start [base] .operand c.advance.advance :=
      (hbase.mark (mark_isOp (by decide)) hdot).token hrest (by rw [ht]; rfl) (weight_of_name ht)
        (by simpa [Ending.Fits, Token.endsOperand, ht] using .inl hplain) (by simp)
    exact says_links h (Phrased.node (e := .member _ base t.text) hall rfl rfl) hrun

end Parser

namespace Level

theorem exhausted_phrased : exhausted.Phrased := by
  constructor <;> intro <;> simp [exhausted, Parser.Says]

theorem Phrased.above {inner : Level} (h : inner.Phrased) : (above inner).Phrased where
  test := Parser.utters_test h
  notTest := Parser.utters_notTest h
  factor := Parser.utters_factor h
  power := Parser.utters_power h
  link := Parser.utters_link h
  paren := Parser.utters_paren h
  list := Parser.utters_list h
  brace := Parser.utters_brace h

end Level

end WorkflowAudit.Script
