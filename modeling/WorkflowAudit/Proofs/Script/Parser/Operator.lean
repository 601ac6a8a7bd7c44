import WorkflowAudit.Proofs.Script.Outline
import WorkflowAudit.Proofs.Script.Parser.Production

/-!
# Atoms and operators stand on the tokens they were read from

One lemma a production, from constants and names up to tuples and `yield`.
-/

namespace WorkflowAudit.Script

namespace Parser

variable {inner : Level}

/-! ## Atoms -/

/-- A node without parts over one token. -/
theorem stands_token {t : Token} {e : Expr} (hkind : t.kind.isLexical = true)
    (hweight : t.weight ≤ 0) (hspan : e.span = t.span)
    (hparts : (Node.expression e).children = []) (hfits : Fits [t] e) : Stands [t] e := by
  have honLine : t.kind ≠ .newline := by
    intro h
    rw [h] at hkind
    cases hkind
  refine .node (hparts ▸ .token honLine hweight) ⟨t, [], rfl, hkind, by rw [hspan], ?_⟩ hfits
  simp [stopAfter, hkind, hspan]

theorem fits_literal {ts : List Token} (h : ∀ t ∈ ts, t.kind = .str) (s : Span)
    (value : Literal) : Fits ts (.literal s value) := by
  cases value with
  | str => exact h
  | _ => trivial

theorem spread_strings {ts : List Token} (h : ∀ t ∈ ts, t.kind = .str) : Spread ts [] := by
  induction ts with
  | nil => exact .nil
  | cons t ts ih =>
    have hkind := h t List.mem_cons_self
    exact .cons (by rw [hkind]; decide)
      (Int.le_of_eq (Token.weight_of_ne_op (by rw [hkind]; decide)))
      (ih fun u hu => h u (List.mem_cons_of_mem t hu))

/-- What the turns of the loop over adjacent string literals take is only their first token. -/
theorem strings_turn {t : Token} {turn : Turn StringPiece} {c d : Cursor}
    (h : Runs (match StringPiece.ofToken? t.text with
      | some piece => pure (Turn.item piece)
      | none => failAt .malformedString t.span.start) c turn d) : d = c ∧ turn ≠ .stop := by
  split at h
  · obtain ⟨rfl, rfl⟩ := runs_pure.mp h
    exact ⟨rfl, by simp⟩
  · exact absurd h (by simp)

/-- Adjacent string literals are string tokens alone. -/
theorem took_strings {c d : Cursor} {e : Expr} (hkind : c.peek.kind = .str)
    (h : Runs strings c e d) : ∃ t ts value, Took c (t :: ts) d ∧ (∀ u ∈ t :: ts, u.kind = .str) ∧
      e = .literal ⟨c.peek.span.start, max d.lastEnd c.peek.span.start⟩ value := by
  rw [strings, runs_here_bind, runs_bind] at h
  obtain ⟨pieces, m, hloop, h⟩ := h
  obtain ⟨rfl, rfl⟩ := runs_spanFrom_pure.mp h
  obtain ⟨t, rest, hrest, ht⟩ := (Cursor.isKind_iff (show TokenKind.str ≠ .endMarker by decide)).mp
    (by simpa [Cursor.isKind] using hkind)
  have hstr : ∀ {c : Cursor} {t : Token} {ts : List Token}, c.rest = t :: ts →
      c.isKind .str = true → t.kind = .str := fun hrest htest => by
    simpa [Cursor.isKind, Cursor.peek_of_rest hrest] using htest
  have htook : ∃ ts, Took c (t :: ts) d ∧ ∀ u ∈ ts, u.kind = .str := by
    rw [runs_loop] at hloop
    cases hloop with
    | done hdone =>
      have := hdone (by simp [hrest])
      simp [Cursor.isKind, hkind] at this
    | stop _ _ hturn => exact absurd rfl (strings_turn hturn).2
    | item hrest' htest hturn hmore =>
      obtain ⟨rfl, -⟩ := List.cons.inj (hrest.symm.trans hrest')
      obtain ⟨rfl, -⟩ := strings_turn hturn
      obtain ⟨ts, htook, hts⟩ := Took.of_loop (P := fun ts _ => ∀ u ∈ ts, u.kind = .str)
        (by simp) (fun _ _ hturn => absurd rfl (strings_turn hturn).2) (fun hrest htest hturn => by
          obtain ⟨rfl, -⟩ := strings_turn hturn
          refine ⟨[], .refl _, fun vs _ hvs => ?_⟩
          simpa [hstr hrest htest] using hvs) (runs_loop.mpr hmore)
      exact ⟨ts, (Took.advance hrest).trans htook, hts⟩
  obtain ⟨ts, htook, hts⟩ := htook
  exact ⟨t, ts, _, htook, by simpa [ht] using hts, rfl⟩

/-- Adjacent string literals stand on string tokens alone. -/
theorem stands_strings {c d : Cursor} {e : Expr} (hkind : c.peek.kind = .str)
    (h : Runs strings c e d) : ∃ ts, Took c ts d ∧ Stands ts e := by
  obtain ⟨t, ts, value, htook, hall, rfl⟩ := took_strings hkind h
  have hopens := opens_cons (t := t) (by rw [hall t List.mem_cons_self]; rfl) ts
  exact ⟨_, htook, stands_of_took htook hopens (spread_strings hall) rfl (fits_literal hall _ _) rfl⟩

theorem gives_atom (h : inner.Sound) : Gives (atom inner) := by
  intro c e d hrun
  rw [atom, runs_ask_bind] at hrun
  split at hrun
  case h_1 hkind =>
    obtain ⟨rfl, rfl⟩ := by simpa only [runs_bump_bind, runs_pure] using hrun
    exact ⟨_, .peek_kind hkind (by decide), stands_token (by rw [hkind]; rfl)
      (Int.le_of_eq (Token.weight_of_ne_op (by rw [hkind]; decide))) rfl rfl trivial⟩
  case h_2 hkind => exact stands_strings hkind hrun
  case h_3 hkind =>
    have htook := Took.peek_kind hkind (by decide)
    have hword : ∀ e : Expr, e.span = c.peek.span → (Node.expression e).children = [] → Fits [c.peek] e →
        ∃ ts, Took c ts c.advance ∧ Stands ts e := fun e hspan hparts hfits =>
      ⟨_, htook, stands_token (by rw [hkind]; rfl) (Int.le_of_eq (weight_of_name hkind)) hspan hparts
        hfits⟩
    simp only [runs_ite, runs_bump_bind, runs_pure, runs_unexpectedToken] at hrun
    obtain ⟨-, rfl, rfl⟩ | ⟨-, ⟨-, rfl, rfl⟩ | ⟨-, ⟨-, rfl, rfl⟩ | ⟨-, ⟨-, ⟨⟩⟩ | ⟨-, rfl, rfl⟩⟩⟩⟩ := hrun
    all_goals exact hword _ rfl rfl trivial
  case h_4 hkind =>
    have htook := Took.peek_kind hkind (by decide)
    have hbracket : ∀ {p : Nat → Parser Expr}, GivesBracketed p → c.peek.text ∈ ["(", "[", "\x7b"] →
        Runs (nested (p c.peek.span.start)) c.advance e d → ∃ ts, Took c ts d ∧ Stands ts e := by
      intro p hp htext hrun
      obtain ⟨-, m, hinner, rfl⟩ := runs_nested.mp hrun
      have hopened : Took c [c.peek] { c.advance with depth := c.advance.depth + 1 } :=
        htook.toDepth _
      obtain ⟨ts, htook', hts⟩ := hp hopened hkind (weight_opening hkind htext) hinner
      exact ⟨_, htook.trans htook'.deeper, hts⟩
    simp only [runs_ite, runs_bump_bind, runs_pure, runs_unexpectedToken] at hrun
    obtain ⟨htext, rfl, rfl⟩ | ⟨-, ⟨htext, hrun⟩ | ⟨-, ⟨htext, hrun⟩ | ⟨-, ⟨htext, hrun⟩ | ⟨-, ⟨⟩⟩⟩⟩⟩ := hrun
    · exact ⟨_, htook, stands_token (by rw [hkind]; rfl)
        (weight_le_of_text (by rw [htext]; decide)) rfl rfl trivial⟩
    · exact hbracket h.paren (by simp [htext]) hrun
    · exact hbracket h.list (by simp [htext]) hrun
    · exact hbracket h.brace (by simp [htext]) hrun
  case h_5 => simp at hrun


/-! ## Operators -/

theorem gives_links (h : inner.Sound) : GivesLink (links inner) := by
  intro start c before base e d htook hbase hrun
  rw [links, runs_ask_bind, runs_ite] at hrun
  rcases hrun with ⟨-, hrun⟩ | ⟨-, hrun⟩
  · obtain ⟨-, m, hlink, rfl⟩ := runs_nested.mp hrun
    obtain ⟨ts, htook', hts⟩ := h.link (htook.toDepth _) hbase hlink
    exact ⟨ts, htook'.deeper, hts⟩
  · obtain ⟨rfl, rfl⟩ := runs_pure.mp hrun
    exact ⟨[], .refl _, by rwa [List.append_nil]⟩

theorem gives_primary (h : inner.Sound) : Gives (primary inner) := by
  intro c e d hrun
  rw [primary, runs_here_bind, runs_bind] at hrun
  obtain ⟨base, m, hatom, hlinks⟩ := hrun
  obtain ⟨ts, htook, hts⟩ := gives_atom h hatom
  obtain ⟨us, htook', hus⟩ := gives_links h htook hts hlinks
  exact ⟨_, htook.trans htook', hus⟩

theorem gives_power (h : inner.Sound) : Gives (power inner) := by
  intro c e d hrun
  rw [power, runs_here_bind, eatName, runs_eat_bind] at hrun
  rcases hrun with ⟨hawait, hrun⟩ | ⟨-, hrun⟩
  · rw [if_pos rfl, runs_bind] at hrun
    obtain ⟨operand, m, hoperand, hrun⟩ := hrun
    obtain ⟨rfl, rfl⟩ := runs_spanFrom_pure.mp hrun
    obtain ⟨ts, htook, hopens, hts⟩ := Took.word hawait
    obtain ⟨us, htook', hus⟩ := h.power.nested hoperand
    have hall := htook.trans htook'
    exact ⟨_, hall, stands_of_took hall (hopens.append us) (hts.append hus.spread) rfl trivial rfl⟩
  rw [if_neg Bool.false_ne_true, runs_bind] at hrun
  obtain ⟨base, m, hbase, hrun⟩ := hrun
  obtain ⟨ts, htook, hts⟩ := gives_primary h hbase
  rw [eatOp, runs_eat_bind] at hrun
  rcases hrun with ⟨hop, hrun⟩ | ⟨-, hrun⟩
  · rw [if_pos rfl, runs_bind] at hrun
    obtain ⟨exponent, m', hexponent, hrun⟩ := hrun
    obtain ⟨rfl, rfl⟩ := runs_spanFrom_pure.mp hrun
    obtain ⟨us, htook', -, hus⟩ := Took.op hop (by decide)
    obtain ⟨vs, htook'', hvs⟩ := h.factor.nested hexponent
    have hall := htook.trans (htook'.trans htook'')
    exact ⟨_, hall, stands_of_took hall (hts.opens.append _)
      (hts.spread.append (hus.append hvs.spread)) rfl trivial rfl⟩
  · rw [if_neg Bool.false_ne_true] at hrun
    obtain ⟨rfl, rfl⟩ := runs_pure.mp hrun
    exact ⟨_, htook, hts⟩

theorem gives_factor (h : inner.Sound) : Gives (factor inner) := by
  intro c e d hrun
  rw [factor, runs_ask_bind, runs_ite] at hrun
  rcases hrun with ⟨hsign, hrun⟩ | ⟨-, hrun⟩
  · rw [runs_bump_bind, runs_bind] at hrun
    obtain ⟨operand, m, hoperand, hrun⟩ := hrun
    obtain ⟨rfl, rfl⟩ := runs_spanFrom_pure.mp hrun
    obtain ⟨ts, htook, hopens, hts⟩ := Took.anyOp hsign (by decide)
    obtain ⟨us, htook', hus⟩ := h.factor.nested hoperand
    have hall := htook.trans htook'
    exact ⟨_, hall, stands_of_took hall (hopens.append us) (hts.append hus.spread) rfl trivial rfl⟩
  · exact gives_power h hrun

theorem Gives.chain {isOperator : Cursor → Bool} {operand : Parser Expr} (h : Gives operand)
    (hplain : Plain isOperator) : Gives (chain isOperator operand) := by
  intro c e d hrun
  rw [Parser.chain, runs_here_bind, runs_bind] at hrun
  obtain ⟨first, m, hfirst, hrun⟩ := hrun
  obtain ⟨ts, htook, hts⟩ := h hfirst
  rw [runs_ask_bind, runs_ite] at hrun
  rcases hrun with ⟨-, hrun⟩ | ⟨-, hrun⟩
  · rw [runs_bind] at hrun
    obtain ⟨more, m', hmore, hrun⟩ := hrun
    obtain ⟨rfl, rfl⟩ := runs_spanFrom_pure.mp hrun
    obtain ⟨us, htook', hus⟩ := h.loopItems hplain hmore
    have hall := htook.trans htook'
    exact ⟨_, hall, stands_of_took hall (hts.opens.append us)
      (hts.spread.append hus) rfl trivial rfl⟩
  · obtain ⟨rfl, rfl⟩ := runs_pure.mp hrun
    exact ⟨_, htook, hts⟩

theorem gives_binary (h : inner.Sound) : Gives (binary inner) := by
  have hfrom : ∀ ranks : List (List String), (∀ ops ∈ ranks, ∀ s ∈ ops, s ∉ ["(", "[", "\x7b"]) →
      Gives (binaryFrom inner ranks) := by
    intro ranks hranks
    induction ranks with
    | nil => exact gives_factor h
    | cons ops tighter ih =>
      exact .chain (ih fun ops' hops => hranks ops' (List.mem_cons_of_mem ops hops))
        (plain_isAnyOp (hranks ops List.mem_cons_self))
  exact hfrom binaryRanks (by decide)

theorem plain_atCompareOp : Plain atCompareOp :=
  .or (.or (.or (plain_isAnyOp (by decide)) (plain_isName "in")) (plain_isName "is"))
    (.and (plain_isName "not") _)

theorem gives_comparison (h : inner.Sound) : Gives (comparison inner) := by
  intro c e d hrun
  rw [comparison, runs_here_bind, runs_bind] at hrun
  obtain ⟨first, m, hfirst, hrun⟩ := hrun
  obtain ⟨ts, htook, hts⟩ := gives_binary h hfirst
  have hoperand : GivesAll (turnParts fun e => [e])
      (binary inner >>= fun e => Pure.pure (Turn.item e)) :=
    (gives_binary h).all.bindPure Turn.item fun _ => rfl
  rw [runs_ask_bind, runs_ite] at hrun
  rcases hrun with ⟨-, hrun⟩ | ⟨-, hrun⟩
  · rw [runs_bind] at hrun
    obtain ⟨more, m', hmore, hrun⟩ := hrun
    obtain ⟨rfl, rfl⟩ := runs_spanFrom_pure.mp hrun
    have hloop : ∃ us, Took m us d ∧ Spread us more := by
      rw [← List.flatMap_singleton' more]
      refine GivesAll.loop plain_atCompareOp (fun _ _ hturn => ?_) hmore
      refine GivesAll.ite ?_ hoperand hturn
      exact .skip (gives_eat (plain_isName "in")) fun _ =>
        .skip (gives_eat (plain_isName "not")) fun _ => hoperand
    obtain ⟨us, htook', hus⟩ := hloop
    have hall := htook.trans htook'
    exact ⟨_, hall, stands_of_took hall (hts.opens.append us)
      (hts.spread.append hus) rfl trivial rfl⟩
  · obtain ⟨rfl, rfl⟩ := runs_pure.mp hrun
    exact ⟨_, htook, hts⟩

theorem gives_notTest (h : inner.Sound) : Gives (notTest inner) := by
  intro c e d hrun
  rw [notTest, runs_ask_bind, runs_ite] at hrun
  rcases hrun with ⟨hnot, hrun⟩ | ⟨-, hrun⟩
  · rw [runs_bump_bind, runs_bind] at hrun
    obtain ⟨operand, m, hoperand, hrun⟩ := hrun
    obtain ⟨rfl, rfl⟩ := runs_spanFrom_pure.mp hrun
    obtain ⟨ts, htook, hopens, hts⟩ := Took.word hnot
    obtain ⟨us, htook', hus⟩ := h.notTest.nested hoperand
    have hall := htook.trans htook'
    exact ⟨_, hall, stands_of_took hall (hopens.append us) (hts.append hus.spread) rfl trivial rfl⟩
  · exact gives_comparison h hrun

theorem gives_orTest (h : inner.Sound) : Gives (orTest inner) :=
  .chain (.chain (gives_notTest h) (plain_isName "and")) (plain_isName "or")

/-! ## Lambdas and conditionals -/

/-- The count of open brackets that both skippers keep. -/
theorem depthAfter_eq (t : Token) (depth : Nat) :
    (if t.kind = .op && ["(", "[", "\x7b"].contains t.text then depth + 1
      else if t.kind = .op && [")", "]", "\x7d"].contains t.text then depth - 1
      else depth) = t.depthAfter depth := by
  unfold Token.depthAfter Token.weight
  by_cases hkind : t.kind = .op
  · simp only [hkind, decide_true, Bool.true_and, if_true]
    split
    · omega
    split
    · omega
    · omega
  · simp [hkind]

/-- A count of open brackets, cut off at none, is not below what the brackets give. -/
theorem weight_le_depth (t : Token) (depth : Nat) :
    depth + t.weight ≤ ((if t.kind = .op && ["(", "[", "\x7b"].contains t.text then depth + 1
      else if t.kind = .op && [")", "]", "\x7d"].contains t.text then depth - 1
      else depth : Nat) : Int) := by
  rw [depthAfter_eq]
  exact Int.self_le_toNat _

/-- One step over the parameters of a lambda. -/
theorem runs_skipParameters_cons {depth : Nat} {c d : Cursor} {u : Unit} {t : Token}
    {ts : List Token} (hrest : c.rest = t :: ts) :
    Runs (skipParameters depth) c u d ↔ (depth = 0 ∧ t.isAnyOp [":"] = true ∧ d = c) ∨
      ∃ next, skip? depth t = some next ∧ Runs (skipParameters next) c.advance u d := by
  have hcolon : (t.kind = .op && t.text = ":" && depth = 0) = true ↔
      depth = 0 ∧ t.isAnyOp [":"] = true := by
    simp [Token.isAnyOp, and_comm]
  constructor
  · rintro ⟨hle, hrun⟩
    unfold skipParameters at hrun
    split at hrun
    case h_1 hnil => simp [hrest] at hnil
    case h_2 t' ts' hrest' =>
      obtain ⟨rfl, rfl⟩ := List.cons.inj (hrest.symm.trans hrest')
      split at hrun
      case isTrue => cases hrun
      case isFalse hline =>
        split at hrun
        case isTrue hends =>
          cases hrun
          exact .inl ⟨(hcolon.mp hends).1, (hcolon.mp hends).2, rfl⟩
        case isFalse hgoes =>
          simp only [depthAfter_eq] at hrun
          split at hrun
          case h_1 => cases hrun
          case h_2 m hm hmore =>
            cases hrun
            rw [hcolon] at hgoes
            exact .inr ⟨_, if_neg (by simp [hline, hgoes]), hm, hmore⟩
  · rintro (⟨rfl, hends, rfl⟩ | ⟨next, hnext, hle, hmore⟩)
    · have hkind : t.kind = .op := of_decide_eq_true (Bool.and_eq_true_iff.mp hends).1
      refine ⟨Nat.le_refl _, ?_⟩
      unfold skipParameters
      split
      case h_1 hnil => simp [hrest] at hnil
      case h_2 t' ts' hrest' =>
        obtain ⟨rfl, rfl⟩ := List.cons.inj (hrest.symm.trans hrest')
        rw [if_neg (by simp [hkind]), if_pos (hcolon.mpr ⟨rfl, hends⟩)]
    · refine ⟨by rw [Cursor.length_advance] at hle; omega, ?_⟩
      unfold skip? at hnext
      split at hnext
      case isTrue => cases hnext
      case isFalse hgoes =>
        obtain rfl := Option.some.inj hnext
        obtain ⟨hline, hgoes⟩ := not_or.mp hgoes
        rw [← hcolon] at hgoes
        unfold skipParameters
        split
        case h_1 hnil => simp [hrest] at hnil
        case h_2 t' ts' hrest' =>
          obtain ⟨rfl, rfl⟩ := List.cons.inj (hrest.symm.trans hrest')
          simp only [if_neg hline, if_neg hgoes, depthAfter_eq]
          rw [hmore]

/-- The parameters of a lambda are the tokens up to the first colon outside their brackets. -/
theorem runs_skipParameters {depth : Nat} {c d : Cursor} {u : Unit} :
    Runs (skipParameters depth) c u d ↔ ∃ ts r rest, c.rest = ts ++ r :: rest ∧
      ts.foldlM skip? depth = some 0 ∧ r.isAnyOp [":"] = true ∧
        d = ⟨r :: rest, c.endAt, stopAfter c.lastEnd ts, c.depth⟩ := by
  induction hn : c.rest generalizing c depth with
  | nil =>
    have hnone : ¬Runs (skipParameters depth) c u d := by
      rintro ⟨hle, hrun⟩
      unfold skipParameters at hrun
      split at hrun
      case h_1 => cases hrun
      case h_2 hrest => simp [hn] at hrest
    simpa using hnone
  | cons t ts ih =>
    have hadvance : c.advance =
        ⟨ts, c.endAt, if t.kind.isLexical then t.span.stop else c.lastEnd, c.depth⟩ := by
      simp [Cursor.advance, hn]
    rw [runs_skipParameters_cons hn]
    simp only [ih (Cursor.rest_advance hn)]
    constructor
    · rintro (⟨rfl, hends, rfl⟩ | ⟨next, hnext, us, r, rest, rfl, hskip, hends, rfl⟩)
      · exact ⟨[], t, ts, rfl, rfl, hends, by rw [← hn]; rfl⟩
      · refine ⟨t :: us, r, rest, rfl, ?_, hends, by rw [hadvance]; rfl⟩
        rw [List.foldlM_cons, hnext]
        exact hskip
    · rintro ⟨us, r, rest, hus, hskip, hends, rfl⟩
      cases us with
      | nil =>
        obtain ⟨rfl, rfl⟩ := List.cons.inj hus
        exact .inl ⟨Option.some.inj hskip, hends, by rw [← hn]; rfl⟩
      | cons v us =>
        obtain ⟨rfl, rfl⟩ := List.cons.inj hus
        rw [List.foldlM_cons] at hskip
        obtain ⟨next, hnext, hskip⟩ := Option.bind_eq_some_iff.mp hskip
        exact .inr ⟨next, hnext, us, r, rest, rfl, hskip, hends, by rw [hadvance]; rfl⟩

/-- The parameters of a lambda leave no bracket open that they open, and a colon comes next. -/
theorem settled_of_skipParameters {depth : Nat} {c d : Cursor} {u : Unit}
    (h : Runs (skipParameters depth) c u d) :
    ∃ ts, Took c ts d ∧ (∀ t ∈ ts, t.kind ≠ .newline) ∧ Settled ts ∧ balance ts + depth ≤ 0 ∧
      d.isOp ":" = true := by
  obtain ⟨ts, r, rest, hrest, hskip, hcolon, rfl⟩ := runs_skipParameters.mp h
  obtain ⟨honLine, hsettled, hbalance⟩ := settled_of_skip hskip
  refine ⟨ts, ⟨hrest, rfl⟩, honLine, hsettled, hbalance, ?_⟩
  simpa [Cursor.isOp, Cursor.peek, Token.isAnyOp] using hcolon

theorem gives_lambda (h : inner.Sound) {c d : Cursor} {e : Expr}
    (hword : c.isName "lambda" = true) (hrun : Runs (lambda inner) c e d) :
    ∃ ts, Took c ts d ∧ Stands ts e := by
  rw [lambda, runs_bump_bind, runs_bind] at hrun
  obtain ⟨_, m, hskip, hrun⟩ := hrun
  rw [runs_bump_bind, runs_bind] at hrun
  obtain ⟨body, m', hbody, hrun⟩ := hrun
  obtain ⟨rfl, rfl⟩ := runs_spanFrom_pure.mp hrun
  obtain ⟨ts, hwordTook, hopens, hts⟩ := Took.word hword
  obtain ⟨us, hskipTook, honLine, hsettled, -, hcolon⟩ := settled_of_skipParameters hskip
  obtain ⟨vs, hcolonTook, -, hvs⟩ := Took.op hcolon (by decide)
  obtain ⟨ws, hbodyTook, hws⟩ := h.test.nested hbody
  have hus : Spread us [] := .of_settled hsettled honLine
  have hall := hwordTook.trans (hskipTook.trans (hcolonTook.trans hbodyTook))
  exact ⟨_, hall, stands_of_took hall (hopens.append _)
    (hts.append (hus.append (hvs.append hws.spread))) rfl trivial rfl⟩

theorem gives_test (h : inner.Sound) : Gives (test inner) := by
  intro c e d hrun
  rw [test, runs_ask_bind, runs_ite] at hrun
  rcases hrun with ⟨hword, hrun⟩ | ⟨-, hrun⟩
  · exact gives_lambda h hword hrun
  rw [runs_here_bind, runs_bind] at hrun
  obtain ⟨body, m, hbody, hrun⟩ := hrun
  obtain ⟨ts, htook, hts⟩ := gives_orTest h hbody
  rw [eatName, runs_eat_bind] at hrun
  rcases hrun with ⟨hif, hrun⟩ | ⟨-, hrun⟩
  · rw [if_pos rfl, runs_bind] at hrun
    obtain ⟨condition, m', hcondition, hrun⟩ := hrun
    rw [runs_bind] at hrun
    obtain ⟨_, _, hword, hrun⟩ := hrun
    obtain ⟨helse, rfl⟩ := runs_expectWord.mp hword
    rw [runs_bind] at hrun
    obtain ⟨otherwise, m'', hotherwise, hrun⟩ := hrun
    obtain ⟨rfl, rfl⟩ := runs_spanFrom_pure.mp hrun
    obtain ⟨us, hifTook, -, hus⟩ := Took.word hif
    obtain ⟨vs, hconditionTook, hvs⟩ := gives_orTest h hcondition
    obtain ⟨ws, helseTook, -, hws⟩ := Took.word helse
    obtain ⟨xs, hotherwiseTook, hxs⟩ := h.test.nested hotherwise
    have hall := htook.trans (hifTook.trans (hconditionTook.trans (helseTook.trans hotherwiseTook)))
    exact ⟨_, hall, stands_of_took hall (hts.opens.append _)
      (hts.spread.append (hus.append (hvs.spread.append (hws.append hxs.spread)))) rfl trivial rfl⟩
  · rw [if_neg Bool.false_ne_true] at hrun
    obtain ⟨rfl, rfl⟩ := runs_pure.mp hrun
    exact ⟨_, htook, hts⟩

theorem gives_namedTest (h : inner.Sound) : Gives (namedTest inner) := by
  intro c e d hrun
  rw [namedTest, runs_here_bind, runs_bind] at hrun
  obtain ⟨target, m, htarget, hrun⟩ := hrun
  obtain ⟨ts, htook, hts⟩ := gives_test h htarget
  rw [eatOp, runs_eat_bind] at hrun
  rcases hrun with ⟨hop, hrun⟩ | ⟨-, hrun⟩
  · rw [if_pos rfl, runs_bind] at hrun
    obtain ⟨value, m', hvalue, hrun⟩ := hrun
    obtain ⟨rfl, rfl⟩ := runs_spanFrom_pure.mp hrun
    obtain ⟨us, htook', -, hus⟩ := Took.op hop (by decide)
    obtain ⟨vs, htook'', hvs⟩ := gives_test h hvalue
    have hall := htook.trans (htook'.trans htook'')
    exact ⟨_, hall, stands_of_took hall (hts.opens.append _)
      (hts.spread.append (hus.append hvs.spread)) rfl trivial rfl⟩
  · rw [if_neg Bool.false_ne_true] at hrun
    obtain ⟨rfl, rfl⟩ := runs_pure.mp hrun
    exact ⟨_, htook, hts⟩

theorem gives_starOrTest (h : inner.Sound) : Gives (starOrTest inner) := by
  intro c e d hrun
  rw [starOrTest, runs_ask_bind, runs_ite] at hrun
  rcases hrun with ⟨hstar, hrun⟩ | ⟨-, hrun⟩
  · rw [runs_bump_bind, runs_bind] at hrun
    obtain ⟨value, m, hvalue, hrun⟩ := hrun
    obtain ⟨rfl, rfl⟩ := runs_spanFrom_pure.mp hrun
    obtain ⟨ts, htook, hopens, hts⟩ := Took.op hstar (by decide)
    obtain ⟨us, htook', hus⟩ := gives_binary h hvalue
    have hall := htook.trans htook'
    exact ⟨_, hall, stands_of_took hall (hopens.append us) (hts.append hus.spread) rfl trivial rfl⟩
  · exact gives_test h hrun

theorem Gives.askIte {p₁ p₂ : Parser Expr} {f : Cursor → Bool} (h₁ : Gives p₁) (h₂ : Gives p₂) :
    Gives (do if ← ask f then p₁ else p₂) := by
  intro c e d hrun
  rw [runs_ask_bind, runs_ite] at hrun
  exact hrun.elim (fun hrun => h₁ hrun.2) fun hrun => h₂ hrun.2

theorem gives_starOrNamed (h : inner.Sound) : Gives (starOrNamed inner) :=
  .askIte (gives_starOrTest h) (gives_namedTest h)

theorem gives_starExpressions (h : inner.Sound) :
    Gives (starExpressions inner) := by
  intro c e d hrun
  rw [starExpressions, runs_here_bind, runs_bind] at hrun
  obtain ⟨first, m, hfirst, hrun⟩ := hrun
  obtain ⟨ts, htook, hts⟩ := gives_starOrTest h hfirst
  rw [runs_ask_bind, runs_ite] at hrun
  rcases hrun with ⟨-, hrun⟩ | ⟨-, hrun⟩
  · rw [runs_bind] at hrun
    obtain ⟨more, m', hmore, hrun⟩ := hrun
    obtain ⟨rfl, rfl⟩ := runs_spanFrom_pure.mp hrun
    obtain ⟨us, htook', hus⟩ := (gives_starOrTest h).separated (by decide) _ hmore
    have hall := htook.trans htook'
    exact ⟨_, hall, stands_of_took hall (hts.opens.append us)
      (hts.spread.append hus) rfl trivial rfl⟩
  · obtain ⟨rfl, rfl⟩ := runs_pure.mp hrun
    exact ⟨_, htook, hts⟩

/-- A `yield` with its operands. -/
theorem gives_yieldExpr (h : inner.Sound) {c d : Cursor} {e : Expr}
    (hword : c.isName "yield" = true) (hrun : Runs (yieldExpr inner) c e d) :
    ∃ ts parts, Took c ts d ∧ Opens ts ∧ Spread ts parts ∧
      e = .compound ⟨c.peek.span.start, max d.lastEnd c.peek.span.start⟩ parts := by
  rw [yieldExpr, runs_bump_bind, eatName, runs_eat_bind] at hrun
  obtain ⟨ts, htook, hopens, hts⟩ := Took.word hword
  have hoperands : ∃ us parts, Took c.advance us d ∧ Spread us parts ∧
      e = .compound ⟨c.peek.span.start, max d.lastEnd c.peek.span.start⟩ parts := by
    rcases hrun with ⟨hfrom, hrun⟩ | ⟨-, hrun⟩
    · rw [runs_ask_bind, if_pos rfl, runs_bind] at hrun
      obtain ⟨operand, m, hoperand, hrun⟩ := hrun
      rw [runs_pure_bind] at hrun
      obtain ⟨rfl, rfl⟩ := runs_spanFrom_pure.mp hrun
      obtain ⟨us, hfromTook, -, hus⟩ := Took.word hfrom
      obtain ⟨vs, hoperandTook, hvs⟩ := gives_test h hoperand
      exact ⟨_, _, hfromTook.trans hoperandTook, hus.append hvs.spread, rfl⟩
    · rw [runs_ask_bind, if_neg Bool.false_ne_true, runs_ite] at hrun
      rcases hrun with ⟨-, hrun⟩ | ⟨-, hrun⟩
      · rw [runs_bind] at hrun
        obtain ⟨operand, m, hoperand, hrun⟩ := hrun
        rw [runs_pure_bind] at hrun
        obtain ⟨rfl, rfl⟩ := runs_spanFrom_pure.mp hrun
        obtain ⟨us, hoperandTook, hus⟩ := gives_starExpressions h hoperand
        exact ⟨_, _, hoperandTook, hus.spread, rfl⟩
      · rw [runs_pure_bind] at hrun
        obtain ⟨rfl, rfl⟩ := runs_spanFrom_pure.mp hrun
        exact ⟨_, _, .refl _, .nil, rfl⟩
  obtain ⟨us, parts, htook', hus, rfl⟩ := hoperands
  exact ⟨_, parts, htook.trans htook', hopens.append us, hts.append hus, rfl⟩

theorem gives_yieldOrStar (h : inner.Sound) : Gives (yieldOrStar inner) := by
  intro c e d hrun
  rw [yieldOrStar, runs_ask_bind, runs_ite] at hrun
  rcases hrun with ⟨hword, hrun⟩ | ⟨-, hrun⟩
  · obtain ⟨ts, parts, htook, hopens, hts, rfl⟩ := gives_yieldExpr h hword hrun
    exact ⟨ts, htook, stands_of_took htook hopens hts rfl trivial rfl⟩
  · exact gives_starExpressions h hrun

end Parser

end WorkflowAudit.Script
