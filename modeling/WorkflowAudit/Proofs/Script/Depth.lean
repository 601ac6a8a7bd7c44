import WorkflowAudit.Proofs.Script.Parser.Height

/-!
# Trees of scripts are shallow

However long a script is, its blocks are nested no deeper than the levels that may be open, and
no way down into an expression is longer than what those levels can give. The count of open
levels is the same after a production as before it.
-/

namespace WorkflowAudit.Script

namespace Parser

open Script.Expr (Within)

variable {inner : Level} {k l : Nat}

/-! ## Simple statements -/

theorem keeps_stmt {n : Nat} {span : Parser Span} (hspan : Restores span) {build : Span → Stmt}
    (hexprs : ∀ s, ∀ e ∈ (build s).exprs, e.Within n) (hinner : ∀ s, (build s).inner = []) :
    Keeps (Stmt.Within n 1) (span >>= fun s => Pure.pure (build s)) :=
  .after hspan fun s => .pure ⟨hexprs s, by simp [hinner s]⟩

theorem restores_dottedName : Restores dottedName :=
  .after restores_identifier fun _ => .after (restores_loopItems restores_identifier) fun _ =>
    .pure trivial

theorem restores_asName : Restores asName :=
  .after restores_eat fun _ => .ite (.after restores_identifier fun _ => .pure trivial)
    (.pure trivial)

theorem restores_dottedAlias : Restores dottedAlias :=
  .after restores_dottedName fun _ => .after restores_asName fun _ => .pure trivial

theorem restores_plainAlias : Restores plainAlias :=
  .after restores_identifier fun _ => .after restores_asName fun _ => .pure trivial

theorem restores_importLevel : Restores importLevel :=
  .after (restores_loop fun _ => .pure trivial) fun _ => .pure trivial

theorem keeps_importNames {n : Nat} {span : Parser Span} (hspan : Restores span) :
    Keeps (Stmt.Within n 1) (importNames span) :=
  .after restores_dottedAlias fun _ => .after (restores_loopItems restores_dottedAlias) fun _ =>
    keeps_stmt hspan (fun _ => nofun) fun _ => rfl

theorem keeps_importFrom {n : Nat} {span : Parser Span} (hspan : Restores span) :
    Keeps (Stmt.Within n 1) (importFrom span) := by
  have hbuilt : ∀ source level names, Keeps (Stmt.Within n 1)
      (span >>= fun s => Pure.pure (.importFrom s source level names)) := fun _ _ _ =>
    keeps_stmt hspan (fun _ => nofun) fun _ => rfl
  have hend : ∀ source level, Keeps (Stmt.Within n 1) (do
      expectWord "import"
      if ← eatOp "*" then return .importFrom (← span) source level [⟨"*", none⟩]
      else
        let inParens ← eatOp "("
        let first ← plainAlias
        let more ← separated "," (fun c => inParens && c.isOp ")") plainAlias
        if inParens then expectOp ")"
        return .importFrom (← span) source level (first :: more)) := fun _ _ =>
    .after restores_expectWord fun _ => .after restores_eat fun _ => .ite (hbuilt _ _ _)
      (.after restores_eat fun _ => .after restores_plainAlias fun _ =>
        .after restores_plainAlias.separated.restores fun _ =>
          .ite (.after restores_expectOp fun _ => hbuilt _ _ _) (hbuilt _ _ _))
  exact .after restores_importLevel fun _ => .after restores_ask fun _ => .ite
    (.after (.pure trivial) fun _ => hend _ _)
    (.after (.after restores_dottedName fun _ => .pure trivial) fun _ => hend _ _)

theorem keeps_assignment (h : inner.Bounded k l) {first : Expr}
    (hfirst : first.Within (k + l + 13)) :
    Keeps (fun parts => ∀ e ∈ parts.1 ++ [parts.2], e.Within (k + l + 13))
      (assignment inner first) := by
  refine (keeps_yieldOrStar h).loopItems.bind fun more hmore => .pure fun e he => ?_
  have hall : ∀ e ∈ first :: more, e.Within (k + l + 13) := List.forall_mem_cons.mpr ⟨hfirst, hmore⟩
  rcases List.mem_append.mp he with he | he
  · exact hall e (List.dropLast_subset _ he)
  · rw [List.mem_singleton.mp he]
    exact hall _ List.getLastD_mem_cons

theorem keeps_exprStatement (h : inner.Bounded k l) {span : Parser Span} (hspan : Restores span) :
    Keeps (Stmt.Within (k + l + 13) 1) (exprStatement inner span) := by
  have htest : Keeps (Within (k + l + 13)) (test inner) :=
    (keeps_test h).mono fun _ he => he.mono (by omega)
  refine ((keeps_starExpressions h).mono fun _ he => he.mono (Nat.le_succ _)).bind
    fun first hfirst => .after restores_eat fun _ => .ite ?_ (.after restores_eat fun _ => .ite ?_
      (.after restores_ask fun _ => .ite ?_ ?_))
  · have hbuilt : ∀ note : Expr, note.Within (k + l + 13) → ∀ value : Option Expr,
        (∀ e ∈ value, e.Within (k + l + 13)) → Keeps (Stmt.Within (k + l + 13) 1)
          (span >>= fun s => Pure.pure (.annAssign s first note value)) := by
      intro note hnote value hvalue
      refine keeps_stmt hspan (fun s e he => ?_) fun _ => rfl
      simp only [Stmt.exprs, List.cons_append, List.nil_append, List.mem_cons,
        Option.mem_toList] at he
      rcases he with rfl | rfl | he
      · exact hfirst
      · exact hnote
      · exact hvalue e he
    have hvalue : Keeps (fun value : Option Expr => ∀ e ∈ value, e.Within (k + l + 13))
        (yieldOrStar inner >>= fun e => Pure.pure (some e)) :=
      (keeps_yieldOrStar h).bind fun e he => .pure (by rintro _ ⟨⟩; exact he)
    have hnone : Keeps (fun value : Option Expr => ∀ e ∈ value, e.Within (k + l + 13))
        (Pure.pure none) := .pure nofun
    exact htest.bind fun note hnote => .after restores_eat fun _ => .ite
      (hvalue.bind fun value hvalue => hbuilt note hnote value hvalue)
      (hnone.bind fun value hvalue => hbuilt note hnote value hvalue)
  · exact (keeps_yieldOrStar h).bind fun _ hvalue => keeps_stmt hspan
      (fun _ => List.forall_mem_cons.mpr ⟨hfirst, List.forall_mem_singleton.mpr hvalue⟩) fun _ => rfl
  · exact (keeps_assignment h hfirst).bind fun _ hparts => keeps_stmt hspan (fun _ => hparts)
      fun _ => rfl
  · exact keeps_stmt hspan (fun _ => List.forall_mem_singleton.mpr hfirst) fun _ => rfl

theorem keeps_keywordOperands (h : inner.Bounded k l) (word : String) :
    Keeps (∀ e ∈ ·, e.Within (k + l + 13)) (keywordOperands inner word) := by
  have htest : Keeps (Within (k + l + 13)) (test inner) :=
    (keeps_test h).mono fun _ he => he.mono (by omega)
  have hnone : Keeps (∀ e ∈ ·, e.Within (k + l + 13)) (Pure.pure ([] : List Expr)) := .pure nofun
  have hone : ∀ {e : Expr}, e.Within (k + l + 13) →
      Keeps (∀ e ∈ ·, e.Within (k + l + 13)) (Pure.pure [e]) :=
    fun he => .pure (List.forall_mem_singleton.mpr he)
  have hsecond : ∀ {e : Expr}, e.Within (k + l + 13) →
      Keeps (∀ e ∈ ·, e.Within (k + l + 13)) (test inner >>= fun e' => Pure.pure [e, e']) :=
    fun he => htest.bind fun _ he' =>
      .pure (List.forall_mem_cons.mpr ⟨he, List.forall_mem_singleton.mpr he'⟩)
  have hoperands : Keeps (∀ e ∈ ·, e.Within (k + l + 13))
      (starExpressions inner >>= fun e => Pure.pure [e]) :=
    (keeps_starExpressions h).bind fun _ he => hone (he.mono (Nat.le_succ _))
  have hnames : Keeps (∀ e ∈ ·, e.Within (k + l + 13)) (do
      let _ ← identifier
      let _ ← loopItems (·.isOp ",") identifier
      Pure.pure ([] : List Expr)) :=
    .after restores_identifier fun _ => .after (restores_loopItems restores_identifier) fun _ => hnone
  unfold keywordOperands
  split
  case h_1 => exact .after restores_ask fun _ => .ite hnone hoperands
  case h_2 =>
    exact .after restores_ask fun _ => .ite hnone (htest.bind fun _ he =>
      .after restores_eat fun _ => .ite (hsecond he) (hone he))
  case h_3 => exact hoperands
  case h_4 => exact htest.bind fun _ he => .after restores_eat fun _ => .ite (hsecond he) (hone he)
  case h_5 | h_6 => exact hnames
  case h_7 => exact hnone

theorem keeps_smallStatement (h : inner.Bounded k l) :
    Keeps (Stmt.Within (k + l + 13) 1) (smallStatement inner) := by
  have hspan : ∀ start, Restores (spanFrom start) := fun _ => restores_ask
  refine .after restores_ask fun t => .ite ?_ (.ite ?_ (.ite ?_ (.ite ?_ ?_)))
  · exact .after restores_bump fun _ => (keeps_keywordOperands h _).bind fun _ hes =>
      keeps_stmt (hspan _) (fun _ => hes) fun _ => rfl
  · exact .after restores_bump fun _ => keeps_importNames (hspan _)
  · exact .after restores_bump fun _ => keeps_importFrom (hspan _)
  · exact (keeps_yieldExpr h).bind fun _ he =>
      keeps_stmt (hspan _) (fun _ => List.forall_mem_singleton.mpr he) fun _ => rfl
  · exact keeps_exprStatement h (hspan _)

theorem keeps_simpleStatements (h : inner.Bounded k l) :
    Keeps (∀ s ∈ ·, s.Within (k + l + 13) 1) (simpleStatements inner) :=
  (keeps_smallStatement h).bind fun _ hfirst => (keeps_smallStatement h).separated.bind
    fun _ hmore => .after restores_ask fun _ => .ite
      (.pure (List.forall_mem_cons.mpr ⟨hfirst, hmore⟩))
      (.after restores_expectKind fun _ => .pure (List.forall_mem_cons.mpr ⟨hfirst, hmore⟩))

/-! ## Compound statements -/

theorem restores_skipHeader {depth lambdas : Nat} : Restores (skipHeader depth lambdas) := by
  rintro c u d ⟨hle, hrun⟩
  refine ⟨trivial, ?_⟩
  induction hn : c.rest.length using Nat.strongRecOn generalizing c depth lambdas with
  | ind n ih =>
    unfold skipHeader at hrun
    split at hrun
    case h_1 => cases hrun
    case h_2 t ts hrest =>
      dsimp only at hrun
      split at hrun
      case isTrue => cases hrun
      case isFalse =>
        split at hrun
        case isTrue => cases hrun; exact depth_advance c
        case isFalse =>
          split at hrun
          case h_1 => cases hrun
          case h_2 m hm hmore =>
            cases hrun
            have hlt : c.advance.rest.length < n := by
              rw [Cursor.length_advance, ← hn, hrest, List.length_cons]
              omega
            exact (ih _ hlt hm hmore rfl).trans (depth_advance c)

theorem keeps_blockHeader (h : inner.Bounded k l) (keyword : String) :
    Keeps (fun header => ∀ e ∈ header.2, e.Within (k + l + 13)) (blockHeader inner keyword) := by
  have hnone : ∀ name : Option String, Keeps (fun header => ∀ e ∈ header.2, e.Within (k + l + 13))
      (Pure.pure (name, ([] : List Expr))) := fun _ => .pure nofun
  unfold blockHeader
  split
  case h_1 | h_2 | h_3 =>
    exact (keeps_namedTest h).bind fun _ he => .after restores_expectOp fun _ =>
      .pure (List.forall_mem_singleton.mpr (he.mono (Nat.le_succ _)))
  case h_4 | h_5 | h_6 => exact .after restores_expectOp fun _ => hnone none
  case h_7 | h_8 =>
    exact .after restores_identifier fun name => .after restores_skipHeader fun _ => hnone (some name)
  case h_9 | h_10 | h_11 | h_12 | h_13 => exact .after restores_skipHeader fun _ => hnone none
  case h_14 => exact .fails (by simp)

/-- The header and the statements of a clause, after its keyword. -/
theorem keeps_blockClause (h : inner.Bounded k l) (keyword : String) (start : Nat) :
    Keeps (Stmt.Within (k + l + 13) (l + 1)) (do
      let (name, header) ← blockHeader inner keyword
      let body ← nested inner.suite
      return .block (← spanFrom start) keyword name header body) :=
  (keeps_blockHeader h keyword).bind fun _ hheader => h.suite.nested.bind fun _ hbody =>
    .after restores_ask fun _ =>
      .pure ⟨hheader, fun s hs => (hbody s hs).mono (by omega) (Nat.le_refl l)⟩

theorem keeps_block (h : inner.Bounded k l) :
    Keeps (Stmt.Within (k + l + 13) (l + 1)) (block inner) :=
  .after restores_bump fun _ => .ite
    (.after (.after restores_bump fun _ => .pure trivial) fun _ => keeps_blockClause h _ _)
    (.after (.pure trivial) fun _ => keeps_blockClause h _ _)

theorem keeps_decorator (h : inner.Bounded k l) :
    Keeps (Stmt.Within (k + l + 13) 1) (decorator inner) :=
  .after restores_bump fun _ => (keeps_namedTest h).bind fun _ he =>
    .after restores_expectKind fun _ => keeps_stmt restores_ask
      (fun _ => List.forall_mem_singleton.mpr (he.mono (Nat.le_succ _))) fun _ => rfl

theorem keeps_statement (h : inner.Bounded k l) :
    Keeps (∀ s ∈ ·, s.Within (k + l + 13) (l + 1)) (statement inner) :=
  .after restores_ask fun _ => .ite
    ((keeps_decorator h).bind fun _ hs =>
      .pure (List.forall_mem_singleton.mpr (hs.mono (Nat.le_refl _) (by omega))))
    (.after restores_ask fun _ => .ite
      ((keeps_block h).bind fun _ hs => .pure (List.forall_mem_singleton.mpr hs))
      ((keeps_simpleStatements h).mono fun _ hss s hs =>
        (hss s hs).mono (Nat.le_refl _) (by omega)))

theorem keeps_suite (h : inner.Bounded k l) :
    Keeps (∀ s ∈ ·, s.Within (k + l + 13) (l + 1)) (suite inner) :=
  .after restores_eat fun _ => .ite
    (.after restores_expectKind fun _ => (keeps_statement h).many.bind fun _ hbody =>
      .after restores_eat fun _ => .pure (forall_mem_flatten hbody))
    ((keeps_simpleStatements h).mono fun _ hss s hs => (hss s hs).mono (Nat.le_refl _) (by omega))

theorem keeps_topLevel (h : inner.Bounded k l) :
    Keeps (∀ s ∈ ·, s.Within (k + l + 13) (l + 1)) (topLevel inner) :=
  .after restores_eat fun _ => .ite (.pure nofun)
    (.after restores_ask fun _ => .ite (.fails (by simp)) (keeps_statement h))

theorem keeps_statements (h : inner.Bounded k l) :
    Keeps (∀ s ∈ ·, s.Within (k + l + 13) (l + 1)) (statements inner) :=
  (keeps_topLevel h).many.bind fun _ hbody => .pure (forall_mem_flatten hbody)

/-! ## Productions -/

/-- The productions of the grammar over a level. -/
inductive Production (inner : Level) : {α : Type} → Parser α → Prop
  | strings : Production inner strings
  | skipParameters (depth : Nat) : Production inner (skipParameters depth)
  | atom : Production inner (atom inner)
  | links (start : Nat) (base : Expr) : Production inner (links inner start base)
  | primary : Production inner (primary inner)
  | power : Production inner (power inner)
  | factor : Production inner (factor inner)
  | binaryFrom (ranks : List (List String)) : Production inner (binaryFrom inner ranks)
  | comparison : Production inner (comparison inner)
  | notTest : Production inner (notTest inner)
  | andTest : Production inner (andTest inner)
  | orTest : Production inner (orTest inner)
  | lambda : Production inner (lambda inner)
  | test : Production inner (test inner)
  | namedTest : Production inner (namedTest inner)
  | starOrTest : Production inner (starOrTest inner)
  | starOrNamed : Production inner (starOrNamed inner)
  | starExpressions : Production inner (starExpressions inner)
  | yieldExpr : Production inner (yieldExpr inner)
  | yieldOrStar : Production inner (yieldOrStar inner)
  | comprehensionTarget : Production inner (comprehensionTarget inner)
  | comprehension : Production inner (comprehension inner)
  | display (closing : String) (start : Nat) (first : Expr) (build : Span → List Expr → Expr) :
      Production inner (display inner closing start first build)
  | paren (start : Nat) : Production inner (paren inner start)
  | list (start : Nat) : Production inner (list inner start)
  | dictValue (key : Option Expr) : Production inner (dictValue inner key)
  | dictItem : Production inner (dictItem inner)
  | dictFrom (start : Nat) (first : DictItem Expr) : Production inner (dictFrom inner start first)
  | brace (start : Nat) : Production inner (brace inner start)
  | argument : Production inner (argument inner)
  | arguments : Production inner (arguments inner)
  | slice : Production inner (slice inner)
  | subscript : Production inner (subscript inner)
  | link (start : Nat) (base : Expr) : Production inner (link inner start base)
  | skipHeader (depth lambdas : Nat) : Production inner (skipHeader depth lambdas)
  | importNames (start : Nat) : Production inner (importNames (spanFrom start))
  | importFrom (start : Nat) : Production inner (importFrom (spanFrom start))
  | assignment (first : Expr) : Production inner (assignment inner first)
  | exprStatement (start : Nat) : Production inner (exprStatement inner (spanFrom start))
  | keywordOperands (word : String) : Production inner (keywordOperands inner word)
  | smallStatement : Production inner (smallStatement inner)
  | simpleStatements : Production inner (simpleStatements inner)
  | blockHeader (keyword : String) : Production inner (blockHeader inner keyword)
  | block : Production inner (block inner)
  | decorator : Production inner (decorator inner)
  | statement : Production inner (statement inner)
  | suite : Production inner (suite inner)
  | topLevel : Production inner (topLevel inner)
  | statements : Production inner (statements inner)

/-- A level may be said to give higher trees than it does, so that it bounds some given ones. -/
theorem exists_bounded (h : inner.Bounded k l) (es : List Expr) :
    ∃ j, inner.Bounded j l ∧ ∀ e ∈ es, e.Within j := by
  refine ⟨max k (totalSize es), h.mono (Nat.le_max_left ..), fun e he => ?_⟩
  exact (Expr.within_totalSize he).mono (Nat.le_max_right ..)

theorem Production.restores {p : Parser α} (hp : Production inner p) (h : inner.Bounded k l) :
    Restores p := by
  cases hp with
  | strings => exact (keeps_strings Nat.one_pos).restores
  | skipParameters => exact restores_skipParameters
  | atom => exact (keeps_atom h).restores
  | links start base =>
    exact (keeps_links h (Expr.within_totalSize (List.mem_singleton_self base))).restores
  | primary => exact (keeps_primary h).restores
  | power => exact (keeps_power h).restores
  | factor => exact (keeps_factor h).restores
  | binaryFrom ranks => exact (keeps_binaryFrom h ranks).restores
  | comparison => exact (keeps_comparison h).restores
  | notTest => exact (keeps_notTest h).restores
  | andTest => exact (keeps_andTest h).restores
  | orTest => exact (keeps_orTest h).restores
  | lambda => exact (keeps_lambda h).restores
  | test => exact (keeps_test h).restores
  | namedTest => exact (keeps_namedTest h).restores
  | starOrTest => exact (keeps_starOrTest h).restores
  | starOrNamed => exact (keeps_starOrNamed h).restores
  | starExpressions => exact (keeps_starExpressions h).restores
  | yieldExpr => exact (keeps_yieldExpr h).restores
  | yieldOrStar => exact (keeps_yieldOrStar h).restores
  | comprehensionTarget => exact (keeps_comprehensionTarget h).restores
  | comprehension => exact (keeps_comprehension h).restores
  | display =>
    exact .after restores_ask fun _ => .ite
      (.after (keeps_comprehension h).restores fun _ => .after restores_expectOp fun _ =>
        .after restores_ask fun _ => .pure trivial)
      (.after (keeps_starOrNamed h).separated.restores fun _ => .after restores_expectOp fun _ =>
        .after restores_ask fun _ => .pure trivial)
  | paren => exact (keeps_paren h).restores
  | list => exact (keeps_list h).restores
  | dictValue key =>
    obtain ⟨j, hj, hkey⟩ := exists_bounded h key.toList
    exact (keeps_dictValue hj fun e he =>
      (hkey e (Option.mem_toList.mpr he)).mono (by omega)).restores
  | dictItem => exact (keeps_dictItem h).restores
  | dictFrom start first =>
    obtain ⟨j, hj, hfirst⟩ := exists_bounded h first.parts
    exact (keeps_dictFrom hj fun e he => (hfirst e he).mono (by omega)).restores
  | brace => exact (keeps_brace h).restores
  | argument => exact (keeps_argument h).restores
  | arguments => exact (keeps_arguments h).restores
  | slice => exact (keeps_slice h).restores
  | subscript => exact (keeps_subscript h).restores
  | link start base =>
    exact (keeps_link h (Expr.within_totalSize (List.mem_singleton_self base))).restores
  | skipHeader => exact restores_skipHeader
  | importNames => exact (keeps_importNames (n := 0) restores_ask).restores
  | importFrom => exact (keeps_importFrom (n := 0) restores_ask).restores
  | assignment first =>
    obtain ⟨j, hj, hfirst⟩ := exists_bounded h [first]
    exact (keeps_assignment hj ((hfirst first List.mem_cons_self).mono (by omega))).restores
  | exprStatement => exact (keeps_exprStatement h restores_ask).restores
  | keywordOperands word => exact (keeps_keywordOperands h word).restores
  | smallStatement => exact (keeps_smallStatement h).restores
  | simpleStatements => exact (keeps_simpleStatements h).restores
  | blockHeader keyword => exact (keeps_blockHeader h keyword).restores
  | block => exact (keeps_block h).restores
  | decorator => exact (keeps_decorator h).restores
  | statement => exact (keeps_statement h).restores
  | suite => exact (keeps_suite h).restores
  | topLevel => exact (keeps_topLevel h).restores
  | statements => exact (keeps_statements h).restores

end Parser

/-! ## Levels -/

namespace Level

/-- Height of the trees that the productions of a budget give. -/
def heightBound : Nat → Nat
  | 0 => 1
  | n + 1 => heightBound n + n + 13

theorem exhausted_bounded : exhausted.Bounded 1 0 where
  pos := Nat.one_pos
  test := .fails (by simp [exhausted])
  notTest := .fails (by simp [exhausted])
  factor := .fails (by simp [exhausted])
  power := .fails (by simp [exhausted])
  link _ := .fails (by simp [exhausted])
  paren _ := .fails (by simp [exhausted])
  list _ := .fails (by simp [exhausted])
  brace _ := .fails (by simp [exhausted])
  suite := .fails (by simp [exhausted])

theorem Bounded.above {inner : Level} {k l : Nat} (h : inner.Bounded k l) :
    (above inner).Bounded (k + l + 13) (l + 1) where
  pos := by omega
  test := (Parser.keeps_test h).mono fun _ he => he.mono (by omega)
  notTest := (Parser.keeps_notTest h).mono fun _ he => he.mono (by omega)
  factor := (Parser.keeps_factor h).mono fun _ he => he.mono (by omega)
  power := (Parser.keeps_power h).mono fun _ he => he.mono (by omega)
  link := Parser.keeps_link h
  paren _ := Parser.keeps_paren h
  list _ := Parser.keeps_list h
  brace _ := Parser.keeps_brace h
  suite := Parser.keeps_suite h

theorem ofBudget_bounded : ∀ n, (ofBudget n).Bounded (heightBound n) n
  | 0 => exhausted_bounded
  | n + 1 => (ofBudget_bounded n).above

end Level

/-! ## Scripts -/

/-- Every way down from an expression is as long as its height allows. -/
theorem Expr.Within.length_le {n : Nat} {e : Expr} {rest : List Expr} (h : e.Within n)
    (hchain : (e :: rest).IsChain fun e c => c ∈ e.children) : (e :: rest).length ≤ n := by
  induction rest generalizing n e with
  | nil =>
    cases n with
    | zero => exact h.elim
    | succ n => simp
  | cons c rest ih =>
    cases n with
    | zero => exact h.elim
    | succ n =>
      obtain ⟨hc, hchain⟩ := List.isChain_cons_cons.mp hchain
      have := ih (h c hc) hchain
      rw [List.length_cons]
      omega

theorem Expr.within_of_mem_visit {n : Nat} {es : List Expr} (h : ∀ e ∈ es, e.Within n) {v : Expr}
    (hv : v ∈ visit es) : v.Within n := by
  induction es using visit.induct with
  | case1 => simp [visit] at hv
  | case2 e es ih =>
    obtain ⟨he, hes⟩ := List.forall_mem_cons.mp h
    rw [visit] at hv
    rcases List.mem_cons.mp hv with rfl | hv
    · exact he
    · refine ih (fun c hc => ?_) hv
      rcases List.mem_append.mp hc with hc | hc
      · cases n with
        | zero => exact he.elim
        | succ n => exact (he c hc).mono (Nat.le_succ n)
      · exact hes c hc

/-- The depth of a statement and its own height are together no more than the height of the
statements that the walk began with. -/
theorem Stmt.within_of_mem_visit {k n : Nat} {ss : List (Stmt × Nat)}
    (h : ∀ p ∈ ss, ∃ j, p.2 + j = n ∧ p.1.Within k j) {s : Stmt} {d : Nat}
    (hs : (s, d) ∈ visit ss) : ∃ j, d + j = n ∧ s.Within k j := by
  induction ss using visit.induct with
  | case1 => simp [visit] at hs
  | case2 r b ss ih =>
    obtain ⟨⟨j, hj, hr⟩, hss⟩ := List.forall_mem_cons.mp h
    rw [visit] at hs
    rcases List.mem_cons.mp hs with heq | hs
    · obtain ⟨rfl, rfl⟩ := Prod.mk.inj heq
      exact ⟨j, hj, hr⟩
    · refine ih (fun p hp => ?_) hs
      rcases List.mem_append.mp hp with hp | hp
      · obtain ⟨r', hr', rfl⟩ := List.mem_map.mp hp
        cases j with
        | zero => exact hr.elim
        | succ j => exact ⟨j, by simp only; omega, hr.2 r' hr'⟩
      · exact hss p hp

theorem within_of_parse {text : String} {m : Module} (h : parse text = .ok m) :
    ∀ s ∈ m.body, s.Within (Level.heightBound (levelLimit + 1)) (levelLimit + 1) := by
  obtain ⟨tokens, d, -, hrun, -⟩ := parse_eq_ok_iff.mp h
  exact (Parser.keeps_statements (Level.ofBudget_bounded levelLimit) hrun).1

/-- The nesting of a script is bounded by numbers that do not depend on it. -/
structure Module.Shallow (m : Module) : Prop where
  /-- Blocks are nested no deeper than the levels that may be open. -/
  blocks : ∀ p ∈ m.statements, p.2 ≤ levelLimit
  /-- Every way down from an expression, itself included, has at most 2000 nodes. -/
  expressions : ∀ e ∈ m.expressions, ∀ rest : List Expr,
    (e :: rest).IsChain (fun e c => c ∈ e.children) → (e :: rest).length ≤ 2000

/-- A parser leaves as many levels open as it found, and when it runs with one more level open,
that level is still open at its end, so that closing it takes the count back and not below. -/
structure Parser.ClosesLevels (p : Parser α) : Prop where
  restored : ∀ {c : Cursor} {a : α} {d : Cursor}, Runs p c a d → d.depth = c.depth
  closed : ∀ {c : Cursor} {a : α} {d : Cursor}, Runs (nested p) c a d →
    ∃ m, Runs p { c with depth := c.depth + 1 } a m ∧ m.depth = c.depth + 1 ∧
      d = { m with depth := c.depth }

theorem Parser.Keeps.closesLevels {p : Parser α} (h : Restores p) : p.ClosesLevels where
  restored hrun := (h hrun).2
  closed {c a d} hrun := by
    obtain ⟨-, m, hinner, rfl⟩ := runs_nested.mp hrun
    have hdepth : m.depth = c.depth + 1 := (h hinner).2
    refine ⟨m, hinner, hdepth, ?_⟩
    rw [hdepth, Nat.add_sub_cancel]

/-- Whatever the length of a script, its nesting is bounded, and the productions that read it
close the levels that they open. -/
theorem shallow_of_parse {text : String} {m : Module} (h : parse text = .ok m) :
    m.Shallow ∧ ∀ (n : Nat) {α : Type} (p : Parser α),
      Parser.Production (Level.ofBudget n) p → p.ClosesLevels := by
  have hstatements : ∀ {s d}, (s, d) ∈ m.statements →
      ∃ j, d + j = levelLimit + 1 ∧ s.Within (Level.heightBound (levelLimit + 1)) j := by
    refine Stmt.within_of_mem_visit fun p hp => ?_
    obtain ⟨s, hs, rfl⟩ := List.mem_map.mp hp
    exact ⟨levelLimit + 1, Nat.zero_add _, within_of_parse h s hs⟩
  refine ⟨⟨fun ⟨s, d⟩ hs => ?_, fun e he rest hchain => ?_⟩,
    fun n α p hp => (hp.restores (Level.ofBudget_bounded n)).closesLevels⟩
  · obtain ⟨j, hj, hwithin⟩ := hstatements hs
    cases j with
    | zero => exact hwithin.elim
    | succ j =>
      change d ≤ levelLimit
      omega
  · obtain ⟨⟨s, d⟩, hs, he⟩ := List.mem_flatMap.mp he
    obtain ⟨root, hroot, he⟩ := List.mem_flatMap.mp he
    obtain ⟨j, -, hwithin⟩ := hstatements hs
    have hheight : Level.heightBound (levelLimit + 1) ≤ 2000 := by decide
    cases j with
    | zero => exact hwithin.elim
    | succ j =>
      have hv := Expr.within_of_mem_visit (List.forall_mem_singleton.mpr (hwithin.1 root hroot)) he
      exact Nat.le_trans (hv.length_le hchain) hheight

/-- A script that opens levels by blocks, brackets, postfixes and operators. -/
def levelsText : String :=
  "def f():\n  while a:\n    x = [not -g.h(k=(b ** c))[0]] if y else lambda z: z\n"

theorem shallow_levelsText : ∃ m, parse levelsText = .ok m ∧ m.Shallow ∧
    ∀ (n : Nat) {α : Type} (p : Parser α),
      Parser.Production (Level.ofBudget n) p → p.ClosesLevels := by
  have hparses : (parse levelsText).isOk = true := by decide +kernel
  obtain ⟨m, hparse⟩ := exists_parse_of_isOk hparses
  exact ⟨m, hparse, shallow_of_parse hparse⟩

end WorkflowAudit.Script
