import WorkflowAudit.Proofs.Script.Parser.Run

/-!
# When a literal is called malformed

A parser leaves an end of the tokens that it found, and it calls a literal malformed only if one of
these tokens is a literal that does not decode. Every way to put parsers together keeps this, so it
holds of every production and of the parser as a whole.
-/

namespace WorkflowAudit.Script

namespace Parser

/-- A result that a parser may give over some tokens. -/
def Outcome (ts : List Token) {c : Cursor} : Except SyntaxError (Parsed α c) → Prop
  | .ok r => r.cursor.rest <:+ ts
  | .error e => e.fault = .malformedString →
      ∃ t ∈ ts, t.kind = .str ∧ StringPiece.ofToken? t.text = none

theorem Outcome.mono {ts us : List Token} {c : Cursor} {r : Except SyntaxError (Parsed α c)}
    (h : Outcome ts r) (suffix : ts <:+ us) : Outcome us r := by
  cases r with
  | ok r => exact h.trans suffix
  | error e =>
    intro hfault
    obtain ⟨t, ht, hbad⟩ := h hfault
    exact ⟨t, suffix.subset ht, hbad⟩

/-- What an outcome says when it is an error. -/
theorem Outcome.of_error {ts : List Token} {c : Cursor} {r : Except SyntaxError (Parsed α c)}
    {e : SyntaxError} (h : Outcome ts r) (he : r = .error e) : e.fault = .malformedString →
      ∃ t ∈ ts, t.kind = .str ∧ StringPiece.ofToken? t.text = none := by
  subst he
  exact h

/-- What an outcome says when it is a result. -/
theorem Outcome.of_ok {ts : List Token} {c : Cursor} {r : Except SyntaxError (Parsed α c)}
    {parsed : Parsed α c} (h : Outcome ts r) (hr : r = .ok parsed) : parsed.cursor.rest <:+ ts := by
  subst hr
  exact h

theorem suffix_advance (c : Cursor) : c.advance.rest <:+ c.rest := by
  unfold Cursor.advance
  split
  · exact List.suffix_refl _
  · rename_i hrest
    rw [hrest]
    exact List.suffix_cons _ _

/-- Whether a parser calls a literal malformed only over one that does not decode. -/
def Honest (p : Parser α) : Prop := ∀ c : Cursor, Outcome c.rest (p c)

namespace Honest

theorem pure (a : α) : Honest (Pure.pure a) := fun _ => List.suffix_refl _

theorem bind {p : Parser α} {f : α → Parser β} (h : Honest p) (hf : ∀ a, Honest (f a)) :
    Honest (p >>= f) := by
  intro c
  have hp := h c
  simp only [Bind.bind]
  split
  case h_1 e he => exact hp.of_error he
  case h_2 a m hm hrun =>
    have hmore := (hf a m).mono (hp.of_ok hrun)
    split
    case h_1 e he => exact hmore.of_error he
    case h_2 b d hd hrun' => exact hmore.of_ok hrun'

theorem ite {p₁ p₂ : Parser α} {q : Prop} [Decidable q] (h₁ : Honest p₁) (h₂ : Honest p₂) :
    Honest (if q then p₁ else p₂) := by
  split
  · exact h₁
  · exact h₂

theorem ask (f : Cursor → α) : Honest (ask f) := fun _ => List.suffix_refl _

theorem bump : Honest bump := suffix_advance

theorem failWith {fault : SyntaxFault} (h : fault ≠ .malformedString) :
    Honest (failWith fault : Parser α) := fun _ hfault => absurd hfault h

theorem unexpectedToken : Honest (unexpectedToken : Parser α) := by
  intro c hfault
  dsimp only at hfault
  split at hfault <;> cases hfault

theorem eat (test : Cursor → Bool) : Honest (eat test) :=
  .bind (.ask _) fun _ => .ite (.bind .bump fun _ => .pure _) (.pure _)

theorem expectOp (text : String) : Honest (expectOp text) :=
  .bind (.eat _) fun _ => .ite (.pure _) (.failWith nofun)

theorem expectWord (text : String) : Honest (expectWord text) :=
  .bind (.eat _) fun _ => .ite (.pure _) (.failWith nofun)

theorem expectKind {kind : TokenKind} {fault : SyntaxFault} (h : fault ≠ .malformedString) :
    Honest (expectKind kind fault) :=
  .bind (.eat _) fun _ => .ite (.pure _) (.failWith h)

theorem identifier : Honest identifier :=
  .bind (.ask _) fun _ => .ite (.bind .bump fun _ => .pure _) (.failWith nofun)

theorem nested {p : Parser α} (h : Honest p) : Honest (nested p) := by
  intro c
  unfold Parser.nested
  split
  case isTrue => exact nofun
  case isFalse =>
    have hp := h { c with depth := c.depth + 1 }
    split
    case h_1 e he => exact hp.of_error he
    case h_2 a m hm hrun => exact hp.of_ok hrun

/-- A turn of a loop may also call the token malformed that it takes. -/
theorem loop_of_turn {test : Cursor → Bool} {turn : Token → Parser (Turn α)}
    (h : ∀ {c : Cursor} {t : Token} {ts : List Token}, c.rest = t :: ts → test c = true →
      Outcome c.rest (turn t c.advance)) : Honest (loop test turn) := by
  intro c
  induction hn : c.rest.length using Nat.strongRecOn generalizing c with
  | ind n ih =>
    unfold Parser.loop
    split
    case h_1 => exact List.suffix_refl _
    case h_2 t ts hrest =>
      split
      case isFalse => exact List.suffix_refl _
      case isTrue htest =>
        have hturn := h hrest htest
        split
        case h_1 e he => exact hturn.of_error he
        case h_2 m hm hrun => exact hturn.of_ok hrun
        case h_3 a m hm hrun =>
          have hless : m.rest.length < n := by
            rw [Cursor.rest_advance hrest] at hm
            rw [← hn, hrest, List.length_cons]
            omega
          have hmore := (ih _ hless m rfl).mono (hturn.of_ok hrun)
          split
          case h_1 e he => exact hmore.of_error he
          case h_2 as d hd hrun' => exact hmore.of_ok hrun'

theorem loop {test : Cursor → Bool} {turn : Token → Parser (Turn α)}
    (h : ∀ t, Honest (turn t)) : Honest (loop test turn) :=
  .loop_of_turn fun {c} {t} _ _ _ => (h t c.advance).mono (suffix_advance c)

theorem loopItems {test : Cursor → Bool} {p : Parser α} (h : Honest p) :
    Honest (loopItems test p) :=
  .loop fun _ => h.bind fun _ => .pure _

theorem separated {separator : String} {closing : Cursor → Bool} {p : Parser α}
    (h : Honest p) : Honest (separated separator closing p) :=
  .loop fun _ => .bind (.ask _) fun _ => .ite (.pure _) (h.bind fun _ => .pure _)

theorem many {test : Cursor → Bool} {p : Parser α} (h : Honest p) : Honest (many test p) := by
  intro c
  induction hn : c.rest.length using Nat.strongRecOn generalizing c with
  | ind n ih =>
    unfold Parser.many
    split
    case isFalse => exact List.suffix_refl _
    case isTrue =>
      have hitem := h c
      split
      case h_1 e he => exact hitem.of_error he
      case h_2 a m hm hrun =>
        split
        case isFalse => exact hitem.of_ok hrun
        case isTrue hless =>
          have hmore := (ih _ (hn ▸ hless) m rfl).mono (hitem.of_ok hrun)
          split
          case h_1 e he => exact hmore.of_error he
          case h_2 as d hd hrun' => exact hmore.of_ok hrun'

end Honest

end Parser

/-- A level all of whose productions are honest. -/
structure Level.Honest (inner : Level) : Prop where
  test : Parser.Honest inner.test
  notTest : Parser.Honest inner.notTest
  factor : Parser.Honest inner.factor
  power : Parser.Honest inner.power
  link : ∀ start base, Parser.Honest (inner.link start base)
  paren : ∀ start, Parser.Honest (inner.paren start)
  list : ∀ start, Parser.Honest (inner.list start)
  brace : ∀ start, Parser.Honest (inner.brace start)
  suite : Parser.Honest inner.suite

namespace Parser

/-! ## Expressions -/

/-- The only place where a literal is called malformed. -/
theorem honest_strings : Honest strings := by
  refine .bind (.ask _) fun _ => .bind (.loop_of_turn fun {c t ts} hrest htest => ?_) fun _ =>
    .bind (.ask _) fun _ => .pure _
  cases hpiece : StringPiece.ofToken? t.text with
  | some piece => exact suffix_advance c
  | none =>
    have hkind : t.kind = .str := by simpa [Cursor.isKind, Cursor.peek_of_rest hrest] using htest
    exact fun _ => ⟨t, hrest ▸ List.mem_cons_self, hkind, hpiece⟩

theorem honest_skipParameters (depth : Nat) : Honest (skipParameters depth) := by
  intro c
  induction hn : c.rest.length using Nat.strongRecOn generalizing c depth with
  | ind n ih =>
    unfold skipParameters
    split
    case h_1 => rintro ⟨⟩
    case h_2 t ts hrest =>
      split
      case isTrue => rintro ⟨⟩
      case isFalse =>
        split
        case isTrue => exact List.suffix_refl _
        case isFalse =>
          have hless : c.advance.rest.length < n := by
            rw [Cursor.length_advance, ← hn, hrest, List.length_cons]
            omega
          have hmore := fun deeper => (ih _ hless deeper c.advance rfl).mono (suffix_advance c)
          dsimp only
          split
          case h_1 e he => exact (hmore _).of_error he
          case h_2 d hd hrun => exact (hmore _).of_ok hrun

theorem Honest.chain {isOperator : Cursor → Bool} {operand : Parser Expr} (h : Honest operand) :
    Honest (chain isOperator operand) :=
  .bind (.ask _) fun _ => h.bind fun _ => .bind (.ask _) fun _ =>
    .ite (h.loopItems.bind fun _ => .bind (.ask _) fun _ => .pure _) (.pure _)

section

variable {inner : Level} (h : inner.Honest)

include h

theorem honest_atom : Honest (atom inner) := by
  have hleaf : ∀ {e : Expr}, Honest (bump >>= fun _ => Pure.pure e) := .bind .bump fun _ => .pure _
  refine .bind (.ask _) fun t => ?_
  split
  · exact hleaf
  · exact honest_strings
  · exact .ite hleaf (.ite hleaf (.ite hleaf (.ite .unexpectedToken hleaf)))
  · exact .ite hleaf (.ite (.bind .bump fun _ => (h.paren _).nested)
      (.ite (.bind .bump fun _ => (h.list _).nested)
        (.ite (.bind .bump fun _ => (h.brace _).nested) .unexpectedToken)))
  · exact .unexpectedToken

theorem honest_links (start : Nat) (base : Expr) : Honest (links inner start base) :=
  .bind (.ask _) fun _ => .ite (h.link start base).nested (.pure _)

theorem honest_primary : Honest (primary inner) :=
  .bind (.ask _) fun _ => (honest_atom h).bind fun _ => honest_links h _ _

theorem honest_power : Honest (power inner) :=
  .bind (.ask _) fun _ => .bind (.eat _) fun _ => .ite
    (h.power.nested.bind fun _ => .bind (.ask _) fun _ => .pure _)
    ((honest_primary h).bind fun _ => .bind (.eat _) fun _ => .ite
      (h.factor.nested.bind fun _ => .bind (.ask _) fun _ => .pure _) (.pure _))

theorem honest_factor : Honest (factor inner) :=
  .bind (.ask _) fun _ => .ite
    (.bind .bump fun _ => h.factor.nested.bind fun _ => .bind (.ask _) fun _ => .pure _)
    (honest_power h)

theorem honest_binary : Honest (binary inner) := by
  have hfrom : ∀ ranks, Honest (binaryFrom inner ranks) := by
    intro ranks
    induction ranks with
    | nil => exact honest_factor h
    | cons ops tighter ih => exact .chain ih
  exact hfrom binaryRanks

theorem honest_comparison : Honest (comparison inner) := by
  have hitem : Honest (binary inner >>= fun e => Pure.pure (Turn.item e)) :=
    (honest_binary h).bind fun _ => .pure _
  exact .bind (.ask _) fun _ => (honest_binary h).bind fun _ => .bind (.ask _) fun _ => .ite
    (.bind (.loop fun _ => .ite (.bind (.eat _) fun _ => .bind (.eat _) fun _ => hitem) hitem)
      fun _ => .bind (.ask _) fun _ => .pure _)
    (.pure _)

theorem honest_notTest : Honest (notTest inner) :=
  .bind (.ask _) fun _ => .ite
    (.bind .bump fun _ => h.notTest.nested.bind fun _ => .bind (.ask _) fun _ => .pure _)
    (honest_comparison h)

theorem honest_orTest : Honest (orTest inner) := .chain (.chain (honest_notTest h))

theorem honest_lambda : Honest (lambda inner) :=
  .bind .bump fun _ => (honest_skipParameters 0).bind fun _ => .bind .bump fun _ =>
    h.test.nested.bind fun _ => .bind (.ask _) fun _ => .pure _

theorem honest_test : Honest (test inner) :=
  .bind (.ask _) fun _ => .ite (honest_lambda h) (.bind (.ask _) fun _ =>
    (honest_orTest h).bind fun _ => .bind (.eat _) fun _ => .ite
      ((honest_orTest h).bind fun _ => .bind (.expectWord _) fun _ =>
        h.test.nested.bind fun _ => .bind (.ask _) fun _ => .pure _)
      (.pure _))

theorem honest_namedTest : Honest (namedTest inner) :=
  .bind (.ask _) fun _ => (honest_test h).bind fun _ => .bind (.eat _) fun _ => .ite
    ((honest_test h).bind fun _ => .bind (.ask _) fun _ => .pure _) (.pure _)

theorem honest_starOrTest : Honest (starOrTest inner) :=
  .bind (.ask _) fun _ => .ite
    (.bind .bump fun _ => (honest_binary h).bind fun _ => .bind (.ask _) fun _ => .pure _)
    (honest_test h)

theorem honest_starOrNamed : Honest (starOrNamed inner) :=
  .bind (.ask _) fun _ => .ite (honest_starOrTest h) (honest_namedTest h)

theorem honest_starExpressions : Honest (starExpressions inner) :=
  .bind (.ask _) fun _ => (honest_starOrTest h).bind fun _ => .bind (.ask _) fun _ => .ite
    ((honest_starOrTest h).separated.bind fun _ => .bind (.ask _) fun _ => .pure _) (.pure _)

theorem honest_yieldExpr : Honest (yieldExpr inner) := by
  have hend : ∀ {start : Nat} (parts : List Expr),
      Honest (do return Expr.compound (← spanFrom start) parts) :=
    fun _ => .bind (.ask _) fun _ => .pure _
  exact .bind .bump fun _ => .bind (.eat _) fun _ => .bind (.ask _) fun _ => .ite
    ((honest_test h).bind fun _ => hend _)
    (.ite ((honest_starExpressions h).bind fun _ => hend _) (hend _))

theorem honest_yieldOrStar : Honest (yieldOrStar inner) :=
  .bind (.ask _) fun _ => .ite (honest_yieldExpr h) (honest_starExpressions h)

/-! ## Displays, calls and subscripts -/

theorem honest_comprehension : Honest (comprehension inner) := by
  have htarget : Honest (comprehensionTarget inner) :=
    .bind (.ask _) fun _ => .ite (honest_starOrTest h) (honest_binary h)
  have hclause : Honest (do
      let first ← comprehensionTarget inner
      let targets ← separated "," (·.isName "in") (comprehensionTarget inner)
      expectWord "in"
      let source ← orTest inner
      let conditions ← loopItems (·.isName "if") (orTest inner)
      return Turn.item (first :: targets ++ source :: conditions)) :=
    htarget.bind fun _ => htarget.separated.bind fun _ => .bind (.expectWord _) fun _ =>
      (honest_orTest h).bind fun _ => (honest_orTest h).loopItems.bind fun _ => .pure _
  exact .bind (.loop fun _ => .ite (.bind .bump fun _ => hclause) hclause) fun _ => .pure _

theorem honest_display {closing : String} {start : Nat} {first : Expr}
    {build : Span → List Expr → Expr} : Honest (display inner closing start first build) :=
  .bind (.ask _) fun _ => .ite
    ((honest_comprehension h).bind fun _ => .bind (.expectOp _) fun _ =>
      .bind (.ask _) fun _ => .pure _)
    ((honest_starOrNamed h).separated.bind fun _ => .bind (.expectOp _) fun _ =>
      .bind (.ask _) fun _ => .pure _)

theorem honest_paren (start : Nat) : Honest (paren inner start) :=
  .bind (.eat _) fun _ => .ite (.bind (.ask _) fun _ => .pure _) (.bind (.ask _) fun _ => .ite
    ((honest_yieldExpr h).bind fun _ => .bind (.expectOp _) fun _ => .bind (.ask _) fun _ => .pure _)
    ((honest_starOrNamed h).bind fun _ => .bind (.ask _) fun _ => .ite (honest_display h)
      (.bind (.expectOp _) fun _ => .pure _)))

theorem honest_list (start : Nat) : Honest (list inner start) :=
  .bind (.eat _) fun _ => .ite (.bind (.ask _) fun _ => .pure _)
    ((honest_starOrNamed h).bind fun _ => honest_display h)

theorem honest_dictValue (key : Option Expr) : Honest (dictValue inner key) := by
  cases key with
  | some key => exact .bind (.expectOp _) fun _ => (honest_test h).bind fun _ => .pure _
  | none => exact (honest_binary h).bind fun _ => .pure _

theorem honest_dictFrom (start : Nat) (first : DictItem Expr) :
    Honest (dictFrom inner start first) := by
  have hitem : Honest (dictItem inner) :=
    .bind (.eat _) fun _ => .ite (honest_dictValue h none)
      ((honest_test h).bind fun _ => honest_dictValue h _)
  exact .bind (.ask _) fun _ => .ite
    ((honest_comprehension h).bind fun _ => .bind (.expectOp _) fun _ =>
      .bind (.ask _) fun _ => .pure _)
    (hitem.separated.bind fun _ => .bind (.expectOp _) fun _ => .bind (.ask _) fun _ => .pure _)

theorem honest_brace (start : Nat) : Honest (brace inner start) :=
  .bind (.eat _) fun _ => .ite (.bind (.ask _) fun _ => .pure _) (.bind (.eat _) fun _ => .ite
    ((honest_dictValue h none).bind fun _ => honest_dictFrom h _ _)
    ((honest_starOrNamed h).bind fun _ => .bind (.ask _) fun _ => .ite
      ((honest_dictValue h _).bind fun _ => honest_dictFrom h _ _) (honest_display h)))

theorem honest_argument : Honest (argument inner) := by
  have hvalue : ∀ {arg : Option String} {start : Nat}, Honest (do
      let value ← test inner
      return (.inr ⟨arg, value, ← spanFrom start⟩ : Expr ⊕ Keyword Expr)) :=
    (honest_test h).bind fun _ => .bind (.ask _) fun _ => .pure _
  exact .bind (.ask _) fun _ => .bind (.eat _) fun _ => .ite hvalue (.bind (.ask _) fun _ => .ite
    ((honest_starOrTest h).bind fun _ => .pure _) (.bind (.ask _) fun _ => .ite
      (.bind .identifier fun _ => .bind .bump fun _ => hvalue)
      ((honest_namedTest h).bind fun _ => .bind (.ask _) fun _ => .ite
        ((honest_comprehension h).bind fun _ => .bind (.ask _) fun _ => .pure _) (.pure _))))

theorem honest_arguments : Honest (arguments inner) :=
  .bind (.ask _) fun _ => .ite (.pure _)
    ((honest_argument h).bind fun _ => (honest_argument h).separated.bind fun _ => .pure _)

theorem honest_slice : Honest (slice inner) := by
  have hbounds : ∀ {lower : List Expr}, Honest (do
      let bounds ← loop (·.isOp ":") fun _ => do
        if ← ask (·.isAnyOp [":", "]", ","]) then return .item []
        else return .item [← test inner]
      return lower ++ bounds.flatten) :=
    .bind (.loop fun _ => .bind (.ask _) fun _ => .ite (.pure _)
      ((honest_test h).bind fun _ => .pure _)) fun _ => .pure _
  exact .bind (.ask _) fun _ => .ite (.bind (.pure _) fun _ => hbounds)
    ((honest_starOrNamed h).bind fun _ => .bind (.pure _) fun _ => hbounds)

theorem honest_subscript : Honest (subscript inner) :=
  (honest_slice h).bind fun _ => (honest_slice h).separated.bind fun _ => .pure _

theorem honest_link (start : Nat) (base : Expr) : Honest (link inner start base) :=
  .bind (.eat _) fun _ => .ite
    ((honest_arguments h).bind fun _ => .bind (.expectOp _) fun _ => .bind (.ask _) fun _ =>
      honest_links h _ _)
    (.bind (.eat _) fun _ => .ite
      ((honest_subscript h).bind fun _ => .bind (.expectOp _) fun _ => .bind (.ask _) fun _ =>
        honest_links h _ _)
      (.bind (.expectOp _) fun _ => .bind .identifier fun _ => .bind (.ask _) fun _ =>
        honest_links h _ _))

end

/-! ## Statements -/

theorem honest_skipHeader (depth lambdas : Nat) : Honest (skipHeader depth lambdas) := by
  intro c
  induction hn : c.rest.length using Nat.strongRecOn generalizing c depth lambdas with
  | ind n ih =>
    unfold skipHeader
    split
    case h_1 => rintro ⟨⟩
    case h_2 t ts hrest =>
      dsimp only
      split
      case isTrue => rintro ⟨⟩
      case isFalse =>
        split
        case isTrue => exact suffix_advance c
        case isFalse =>
          have hless : c.advance.rest.length < n := by
            rw [Cursor.length_advance, ← hn, hrest, List.length_cons]
            omega
          have hmore := fun deeper more =>
            (ih _ hless deeper more c.advance rfl).mono (suffix_advance c)
          split
          case h_1 e he => exact (hmore _ _).of_error he
          case h_2 d hd hrun => exact (hmore _ _).of_ok hrun

theorem honest_dottedName : Honest dottedName :=
  .bind .identifier fun _ => .bind (.loopItems .identifier) fun _ => .pure _

theorem honest_asName : Honest asName :=
  .bind (.eat _) fun _ => .ite (.bind .identifier fun _ => .pure _) (.pure _)

theorem honest_importNames {span : Parser Span} (hspan : Honest span) :
    Honest (importNames span) := by
  have halias : Honest dottedAlias :=
    honest_dottedName.bind fun _ => honest_asName.bind fun _ => .pure _
  exact halias.bind fun _ => halias.loopItems.bind fun _ => hspan.bind fun _ => .pure _

theorem honest_importFrom {span : Parser Span} (hspan : Honest span) :
    Honest (importFrom span) := by
  have halias : Honest plainAlias := .bind .identifier fun _ => honest_asName.bind fun _ => .pure _
  have hlevel : Honest importLevel := .bind (.loop fun _ => .pure _) fun _ => .pure _
  have hnames : ∀ level source, Honest (do
      expectWord "import"
      if ← eatOp "*" then return Stmt.importFrom (← span) source level [⟨"*", none⟩]
      else
        let inParens ← eatOp "("
        let first ← plainAlias
        let more ← separated "," (fun c => inParens && c.isOp ")") plainAlias
        if inParens then expectOp ")"
        return Stmt.importFrom (← span) source level (first :: more)) := fun _ _ =>
    .bind (.expectWord _) fun _ => .bind (.eat _) fun _ => .ite (hspan.bind fun _ => .pure _)
      (.bind (.eat _) fun _ => halias.bind fun _ => halias.separated.bind fun _ =>
        .ite (.bind (.expectOp _) fun _ => hspan.bind fun _ => .pure _)
          (hspan.bind fun _ => .pure _))
  exact hlevel.bind fun _ => .bind (.ask _) fun _ => .ite
    (.bind (.pure _) fun _ => hnames _ _)
    (.bind (honest_dottedName.bind fun _ => .pure _) fun _ => hnames _ _)

section

variable {inner : Level} (h : inner.Honest)

include h

theorem honest_exprStatement {span : Parser Span} (hspan : Honest span) :
    Honest (exprStatement inner span) := by
  have hannotated : ∀ {target annotation : Expr} {value : Option Expr}, Honest (do
      return Stmt.annAssign (← span) target annotation value) :=
    hspan.bind fun _ => .pure _
  have hassignment : ∀ first, Honest (assignment inner first) := fun _ =>
    (honest_yieldOrStar h).loopItems.bind fun _ => .pure _
  exact (honest_starExpressions h).bind fun _ => .bind (.eat _) fun _ => .ite
    ((honest_test h).bind fun _ => .bind (.eat _) fun _ => .ite
      (.bind ((honest_yieldOrStar h).bind fun _ => .pure _) fun _ => hannotated)
      (.bind (.pure _) fun _ => hannotated))
    (.bind (.eat _) fun _ => .ite
      ((honest_yieldOrStar h).bind fun _ => hspan.bind fun _ => .pure _)
      (.bind (.ask _) fun _ => .ite ((hassignment _).bind fun _ => hspan.bind fun _ => .pure _)
        (hspan.bind fun _ => .pure _)))

theorem honest_keywordOperands (word : String) : Honest (keywordOperands inner word) := by
  unfold keywordOperands
  split
  · exact .bind (.ask _) fun _ => .ite (.pure _)
      ((honest_starExpressions h).bind fun _ => .pure _)
  · exact .bind (.ask _) fun _ => .ite (.pure _) ((honest_test h).bind fun _ =>
      .bind (.eat _) fun _ => .ite ((honest_test h).bind fun _ => .pure _) (.pure _))
  · exact (honest_starExpressions h).bind fun _ => .pure _
  · exact (honest_test h).bind fun _ => .bind (.eat _) fun _ =>
      .ite ((honest_test h).bind fun _ => .pure _) (.pure _)
  · exact .bind .identifier fun _ => .bind (.loopItems .identifier) fun _ => .pure _
  · exact .bind .identifier fun _ => .bind (.loopItems .identifier) fun _ => .pure _
  · exact .pure _

theorem honest_smallStatement : Honest (smallStatement inner) := by
  refine .bind (.ask _) fun t => ?_
  have hspan : Honest (spanFrom t.span.start) := .ask _
  exact .ite
    (.bind .bump fun _ => (honest_keywordOperands h _).bind fun _ => hspan.bind fun _ => .pure _)
    (.ite (.bind .bump fun _ => honest_importNames hspan)
      (.ite (.bind .bump fun _ => honest_importFrom hspan)
        (.ite ((honest_yieldExpr h).bind fun _ => hspan.bind fun _ => .pure _)
          (honest_exprStatement h hspan))))

theorem honest_simpleStatements : Honest (simpleStatements inner) :=
  (honest_smallStatement h).bind fun _ => (honest_smallStatement h).separated.bind fun _ =>
    .bind (.ask _) fun _ => .ite (.pure _) (.bind (.expectKind nofun) fun _ => .pure _)

theorem honest_blockHeader (keyword : String) : Honest (blockHeader inner keyword) := by
  have hcondition : Honest (do
      let condition ← namedTest inner
      expectOp ":"
      return ((none : Option String), [condition])) :=
    (honest_namedTest h).bind fun _ => .bind (.expectOp _) fun _ => .pure _
  have hcolon : Honest (do
      expectOp ":"
      return ((none : Option String), ([] : List Expr))) := .bind (.expectOp _) fun _ => .pure _
  have hnamed : Honest (do
      let name ← identifier
      skipHeader 0 0
      return (some name, ([] : List Expr))) :=
    .bind .identifier fun _ => (honest_skipHeader 0 0).bind fun _ => .pure _
  have hskipped : Honest (do
      skipHeader 0 0
      return ((none : Option String), ([] : List Expr))) :=
    (honest_skipHeader 0 0).bind fun _ => .pure _
  unfold blockHeader
  split
  iterate 3 exact hcondition
  iterate 3 exact hcolon
  iterate 2 exact hnamed
  iterate 5 exact hskipped
  · exact .failWith nofun

theorem honest_block : Honest (block inner) := by
  have hbody : ∀ {start : Nat} {keyword : String}, Honest (do
      let header ← blockHeader inner keyword
      let body ← nested inner.suite
      return Stmt.block (← spanFrom start) keyword header.1 header.2 body) :=
    (honest_blockHeader h _).bind fun _ => h.suite.nested.bind fun _ => .bind (.ask _) fun _ =>
      .pure _
  exact .bind .bump fun _ => .ite (.bind (.bind .bump fun _ => .pure _) fun _ => hbody)
    (.bind (.pure _) fun _ => hbody)

theorem honest_statement : Honest (statement inner) := by
  have hdecorator : Honest (decorator inner) :=
    .bind .bump fun _ => (honest_namedTest h).bind fun _ => .bind (.expectKind nofun) fun _ =>
      .bind (.ask _) fun _ => .pure _
  exact .bind (.ask _) fun _ => .ite (hdecorator.bind fun _ => .pure _) (.bind (.ask _) fun _ =>
    .ite ((honest_block h).bind fun _ => .pure _) (honest_simpleStatements h))

theorem honest_suite : Honest (suite inner) :=
  .bind (.eat _) fun _ => .ite
    (.bind (.expectKind nofun) fun _ => (honest_statement h).many.bind fun _ =>
      .bind (.eat _) fun _ => .pure _)
    (honest_simpleStatements h)

theorem honest_statements : Honest (statements inner) := by
  have htop : Honest (topLevel inner) :=
    .bind (.eat _) fun _ => .ite (.pure _) (.bind (.ask _) fun _ => .ite .unexpectedToken
      (honest_statement h))
  exact htop.many.bind fun _ => .pure _

end

end Parser

namespace Level

theorem honest_exhausted : exhausted.Honest where
  test := .failWith nofun
  notTest := .failWith nofun
  factor := .failWith nofun
  power := .failWith nofun
  link _ _ := .failWith nofun
  paren _ := .failWith nofun
  list _ := .failWith nofun
  brace _ := .failWith nofun
  suite := .failWith nofun

theorem Honest.above {inner : Level} (h : inner.Honest) : inner.above.Honest where
  test := Parser.honest_test h
  notTest := Parser.honest_notTest h
  factor := Parser.honest_factor h
  power := Parser.honest_power h
  link := Parser.honest_link h
  paren := Parser.honest_paren h
  list := Parser.honest_list h
  brace := Parser.honest_brace h
  suite := Parser.honest_suite h

theorem honest_ofBudget (n : Nat) : (ofBudget n).Honest := by
  induction n with
  | zero => exact honest_exhausted
  | succ n ih => exact ih.above

end Level

end WorkflowAudit.Script
