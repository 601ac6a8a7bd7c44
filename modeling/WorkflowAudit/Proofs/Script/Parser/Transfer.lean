import WorkflowAudit.Proofs.Script.Parser.Display
import WorkflowAudit.Proofs.Script.Parser.Embedding

/-!
# Expressions in two scripts

One lemma a production: what it reads in a script it also reads in another one that has the same
tokens, the same tree where those stand. A production asks for the start of its first token before
it reads one. That token stands for text, since it is the first one of an expression, so it has
moved with its text.
-/

namespace WorkflowAudit.Script

namespace Parser

/-- An expression read in both scripts, in each one where its tokens stand. -/
abbrev Moves (x : Setting) (p q : Parser Expr) : Prop := Tracks x (Expr.move x.place) p q

end Parser

/-- The expressions of a level are read in both scripts. -/
structure Level.Tracked (x : Setting) (inner : Level) : Prop where
  sound : inner.Sound
  test : Parser.Moves x inner.test inner.test
  notTest : Parser.Moves x inner.notTest inner.notTest
  factor : Parser.Moves x inner.factor inner.factor
  power : Parser.Moves x inner.power inner.power
  link : ∀ start base, Parser.Moves x (inner.link start base)
    (inner.link (x.place start) (base.move x.place))
  paren : ∀ start, Parser.Moves x (inner.paren start) (inner.paren (x.place start))
  list : ∀ start, Parser.Moves x (inner.list start) (inner.list (x.place start))
  brace : ∀ start, Parser.Moves x (inner.brace start) (inner.brace (x.place start))

namespace Parser

variable {x : Setting} {inner : Level}

theorem Gives.atText {p : Parser Expr} (h : Gives p) {c d : Cursor} {e : Expr}
    (hrun : Runs p c e d) : c.AtText := by
  obtain ⟨ts, htook, hstands⟩ := h hrun
  obtain ⟨t, us, rfl, ht⟩ := hstands.opens
  rwa [Cursor.AtText, htook.peek_eq]

/-- The start of an expression, and the expression. -/
theorem tracks_start {p q : Parser Expr} {k : Nat → Expr → Parser α} {l : Nat → Expr → Parser β}
    {f : α → β} (h : Moves x p q) (hgives : Gives p)
    (hk : ∀ start e, Tracks x f (k start e) (l (x.place start) (e.move x.place))) :
    Tracks x f (here >>= fun start => p >>= k start) (here >>= fun start => q >>= l start) := by
  refine .of_text (.here fun start => h.bind (hk start)) fun c a d hrun => ?_
  rw [runs_here_bind, runs_bind] at hrun
  obtain ⟨e, m, hfirst, -⟩ := hrun
  exact hgives.atText hfirst

/-! ## Tests -/

theorem textual_isKind {kind : TokenKind} (h : kind.isLexical = true) :
    Textual (·.isKind kind) := fun c htest => by
  rwa [Cursor.AtText, of_decide_eq_true htest]

theorem stable_canStartExpr : Stable x canStartExpr := by
  intro c c' h hne
  have hpeek := h.peek hne
  simp only [canStartExpr, hpeek.kind, hpeek.text]

theorem stable_atCompareOp : Stable x atCompareOp :=
  .or (.or (.or (stable_isAnyOp _) (stable_isName "in")) (stable_isName "is"))
    ((stable_isName "not").andSecond (naming_isName "not")
      fun kind text => kind = .name && text = "in")

theorem stable_atComprehension : Stable x atComprehension :=
  .or (stable_isName "for") ((stable_isName "async").andSecond (naming_isName "async")
    fun kind text => kind = .name && text = "for")

theorem stable_atKeywordArgument : Stable x atKeywordArgument :=
  (stable_isKind .name).andSecond naming_isKind fun kind text => kind = .op && text = "="

theorem stable_atPostfix : Stable x atPostfix :=
  .or (.or (stable_isOp "(") (stable_isOp "[")) (stable_isOp ".")

/-! ## Atoms and operators -/

theorem tracks_pieces : Tracks x id
    (loop (·.isKind .str) fun t =>
      match StringPiece.ofToken? t.text with
      | some piece => return .item piece
      | none => failAt .malformedString t.span.start)
    (loop (·.isKind .str) fun t =>
      match StringPiece.ofToken? t.text with
      | some piece => return .item piece
      | none => failAt .malformedString t.span.start) := by
  rw [← List.map_id_fun]
  refine tracks_loop (stable_isKind .str) fun t u hmoved => ?_
  rw [hmoved.text]
  split
  · exact .pure rfl
  · exact .fails (by simp)

theorem tracks_strings : TracksAt x Cursor.AtText (Expr.move x.place) strings strings :=
  .here fun _ => tracks_pieces.after fun _ => tracks_node fun _ => rfl

theorem tracks_atom (h : inner.Tracked x) : Moves x (atom inner) (atom inner) := by
  refine .of_text (.peek fun t => ?_) fun c e d => (gives_atom h.sound).atText
  have hleaf : ∀ {e e' : Expr}, e.move x.place = e' →
      TracksAt x Cursor.AtText (Expr.move x.place)
        (bump >>= fun _ => Pure.pure e) (bump >>= fun _ => Pure.pure e') :=
    fun he => .of_tracks (tracks_skip (.pure he))
  have hbracket : ∀ {p q : Parser Expr}, Moves x p q → TracksAt x Cursor.AtText
      (Expr.move x.place) (bump >>= fun _ => nested p) (bump >>= fun _ => nested q) :=
    fun hp => .of_tracks (tracks_skip hp.nested)
  have hfails : TracksAt x Cursor.AtText (Expr.move x.place) unexpectedToken unexpectedToken :=
    .fails (by simp)
  dsimp only [Token.move]
  split
  · exact hleaf rfl
  · exact tracks_strings
  · exact .ite (hleaf rfl) (.ite (hleaf rfl) (.ite (hleaf rfl) (.ite hfails (hleaf rfl))))
  · exact .ite (hleaf rfl) (.ite (hbracket (h.paren _)) (.ite (hbracket (h.list _))
      (.ite (hbracket (h.brace _)) hfails)))
  · exact hfails

theorem tracks_links (h : inner.Tracked x) (start : Nat) (base : Expr) :
    Moves x (links inner start base) (links inner (x.place start) (base.move x.place)) :=
  (tracks_ask stable_atPostfix).after fun _ => .ite (h.link start base).nested (.pure rfl)

theorem tracks_primary (h : inner.Tracked x) : Moves x (primary inner) (primary inner) :=
  tracks_start (tracks_atom h) (gives_atom h.sound) fun start base => tracks_links h start base

theorem tracks_power (h : inner.Tracked x) : Moves x (power inner) (power inner) := by
  refine .of_text (.here fun start => (tracks_eat (stable_isName "await")).after fun _ =>
    .ite ?_ ?_) fun c e d => (gives_power h.sound).atText
  · exact h.power.nested.bind fun _ => tracks_node fun _ => Expr.move_compound ..
  · exact (tracks_primary h).bind fun _ => (tracks_eat (stable_isOp "**")).after fun _ => .ite
      (h.factor.nested.bind fun _ => tracks_node fun _ => Expr.move_compound ..) (.pure rfl)

theorem tracks_factor (h : inner.Tracked x) : Moves x (factor inner) (factor inner) :=
  tracks_whether (stable_isAnyOp _) (textual_isAnyOp _)
    (.bump fun _ => h.factor.nested.bind fun _ => tracks_node fun _ => Expr.move_compound ..)
    (tracks_power h)

theorem Tracks.chain {isOperator : Cursor → Bool} {p q : Parser Expr} (h : Moves x p q)
    (hgives : Gives p) (htest : Stable x isOperator) :
    Moves x (chain isOperator p) (chain isOperator q) :=
  tracks_start h hgives fun _ _ => (tracks_ask htest).after fun _ => .ite
    ((h.loopItems htest).bind fun _ => tracks_node fun _ => Expr.move_compound ..) (.pure rfl)

theorem tracks_binary (h : inner.Tracked x) : Moves x (binary inner) (binary inner) := by
  have hfrom : ∀ ranks : List (List String), (∀ ops ∈ ranks, ∀ s ∈ ops, s ∉ ["(", "[", "\x7b"]) →
      Gives (binaryFrom inner ranks) ∧
        Moves x (binaryFrom inner ranks) (binaryFrom inner ranks) := by
    intro ranks hranks
    induction ranks with
    | nil => exact ⟨gives_factor h.sound, tracks_factor h⟩
    | cons ops tighter ih =>
      obtain ⟨hgives, hmoves⟩ := ih fun ops' hops => hranks ops' (List.mem_cons_of_mem ops hops)
      exact ⟨hgives.chain (plain_isAnyOp (hranks ops List.mem_cons_self)),
        hmoves.chain hgives (stable_isAnyOp ops)⟩
  exact (hfrom binaryRanks (by decide)).2

theorem tracks_comparison (h : inner.Tracked x) :
    Moves x (comparison inner) (comparison inner) := by
  refine tracks_start (tracks_binary h) (gives_binary h.sound) fun start first =>
    (tracks_ask stable_atCompareOp).after fun _ => .ite (.bind (f := List.map (Expr.move x.place))
      (tracks_loop stable_atCompareOp fun t u hmoved => ?_) fun _ =>
        tracks_node fun _ => Expr.move_compound ..) (.pure rfl)
  rw [hmoved.kind, hmoved.text]
  exact .ite ((tracks_eat (stable_isName "in")).after fun _ =>
      (tracks_eat (stable_isName "not")).after fun _ => (tracks_binary h).item)
    (tracks_binary h).item

theorem tracks_notTest (h : inner.Tracked x) : Moves x (notTest inner) (notTest inner) :=
  tracks_whether (stable_isName "not") (textual_isName "not")
    (.bump fun _ => h.notTest.nested.bind fun _ => tracks_node fun _ => Expr.move_compound ..)
    (tracks_comparison h)

theorem tracks_orTest (h : inner.Tracked x) : Moves x (orTest inner) (orTest inner) := by
  have hnot := gives_notTest h.sound
  have hand : Moves x (andTest inner) (andTest inner) :=
    (tracks_notTest h).chain hnot (stable_isName "and")
  exact hand.chain (hnot.chain (plain_isName "and")) (stable_isName "or")

/-! ## Lambdas and conditionals -/

theorem tracks_skipParameters (depth : Nat) :
    Tracks x id (skipParameters depth) (skipParameters depth) := by
  rintro c c' u d - hc ⟨hle, hrun⟩ hne
  have hbefore : c.Before x := Nat.lt_of_lt_of_le hne hle
  induction hn : c.rest.length using Nat.strongRecOn generalizing c c' depth with
  | ind n ih =>
    unfold skipParameters at hrun
    split at hrun
    case h_1 => cases hrun
    case h_2 t ts hrest =>
      obtain ⟨v, vs, hv, hmoved⟩ := hc.cons hbefore hrest
      split at hrun
      case isTrue => cases hrun
      case isFalse hline =>
        suffices hsame : ∃ d', Runs (skipParameters depth) c' () d' ∧ d.Embeds x d' from hsame
        split at hrun
        case isTrue hcolon =>
          cases hrun
          refine ⟨c', ⟨Nat.le_refl _, ?_⟩, hc⟩
          unfold skipParameters
          split
          case h_1 hnil => simp [hv] at hnil
          case h_2 v' vs' hv' =>
            obtain ⟨rfl, rfl⟩ := List.cons.inj (hv.symm.trans hv')
            rw [hmoved.kind, hmoved.text, if_neg hline, if_pos hcolon]
        case isFalse hcolon =>
          dsimp only at hrun
          split at hrun
          case h_1 => cases hrun
          case h_2 m hm hmore =>
            cases hrun
            have hlt : c.advance.rest.length < n := by
              rw [Cursor.length_advance, ← hn, hrest, List.length_cons]
              omega
            obtain ⟨d', ⟨hle', hmore'⟩, hd⟩ :=
              ih _ hlt _ (hc.advance hbefore) hm hmore (Nat.lt_of_lt_of_le hne hm) rfl
            refine ⟨d', ⟨by rw [Cursor.length_advance] at hle'; omega, ?_⟩, hd⟩
            unfold skipParameters
            split
            case h_1 hnil => simp [hv] at hnil
            case h_2 v' vs' hv' =>
              obtain ⟨rfl, rfl⟩ := List.cons.inj (hv.symm.trans hv')
              simp only [hmoved.kind, hmoved.text, if_neg hline, if_neg hcolon]
              rw [hmore']

theorem tracks_lambda (h : inner.Tracked x) :
    TracksAt x Cursor.AtText (Expr.move x.place) (lambda inner) (lambda inner) :=
  .bump fun _ => (tracks_skipParameters 0).after fun _ => tracks_skip (h.test.nested.bind fun _ =>
    tracks_node fun _ => Expr.move_closure ..)

theorem tracks_test (h : inner.Tracked x) : Moves x (test inner) (test inner) := by
  refine tracks_whether (stable_isName "lambda") (textual_isName "lambda") (tracks_lambda h)
    (tracks_start (tracks_orTest h) (gives_orTest h.sound) fun _ _ =>
      (tracks_eat (stable_isName "if")).after fun _ => .ite ?_ (.pure rfl))
  exact (tracks_orTest h).bind fun _ => (tracks_expectWord "else").after fun _ =>
    h.test.nested.bind fun _ => tracks_node fun _ => Expr.move_compound ..

theorem tracks_namedTest (h : inner.Tracked x) : Moves x (namedTest inner) (namedTest inner) :=
  tracks_start (tracks_test h) (gives_test h.sound) fun _ _ =>
    (tracks_eat (stable_isOp ":=")).after fun _ => .ite
      ((tracks_test h).bind fun _ => tracks_node fun _ => Expr.move_compound ..) (.pure rfl)

theorem tracks_starOrTest (h : inner.Tracked x) : Moves x (starOrTest inner) (starOrTest inner) :=
  tracks_whether (stable_isOp "*") (textual_isOp "*")
    (.bump fun _ => (tracks_binary h).bind fun _ => tracks_node fun _ => Expr.move_starred ..)
    (tracks_test h)

theorem tracks_starOrNamed (h : inner.Tracked x) :
    Moves x (starOrNamed inner) (starOrNamed inner) :=
  (tracks_ask (stable_isOp "*")).after fun _ => .ite (tracks_starOrTest h) (tracks_namedTest h)

theorem tracks_starExpressions (h : inner.Tracked x) :
    Moves x (starExpressions inner) (starExpressions inner) :=
  tracks_start (tracks_starOrTest h) (gives_starOrTest h.sound) fun _ _ =>
    (tracks_ask (stable_isOp ",")).after fun _ => .ite
      (((tracks_starOrTest h).separated "," (stable_canStartExpr.map not)).bind fun _ =>
        tracks_node fun _ => Expr.move_tuple ..) (.pure rfl)

theorem tracks_yieldExpr (h : inner.Tracked x) :
    TracksAt x Cursor.AtText (Expr.move x.place) (yieldExpr inner) (yieldExpr inner) := by
  have hend : ∀ {start : Nat} (es : List Expr), Moves x
      (do return .compound (← spanFrom start) es)
      (do return .compound (← spanFrom (x.place start)) (es.map (Expr.move x.place))) :=
    fun _ => tracks_node fun _ => Expr.move_compound ..
  refine .bump fun _ => (tracks_eat (stable_isName "from")).after fun _ =>
    (tracks_ask stable_canStartExpr).after fun _ => .ite ?_ (.ite ?_ (hend []))
  · exact (tracks_test h).bind fun e => hend [e]
  · exact (tracks_starExpressions h).bind fun e => hend [e]

theorem tracks_yieldOrStar (h : inner.Tracked x) :
    Moves x (yieldOrStar inner) (yieldOrStar inner) :=
  tracks_whether (stable_isName "yield") (textual_isName "yield") (tracks_yieldExpr h)
    (tracks_starExpressions h)

/-! ## Displays -/

theorem tracks_comprehensionTarget (h : inner.Tracked x) :
    Moves x (comprehensionTarget inner) (comprehensionTarget inner) :=
  (tracks_ask (stable_isOp "*")).after fun _ => .ite (tracks_starOrTest h) (tracks_binary h)

/-- One clause of a comprehension, after its first word. -/
theorem tracks_clause (h : inner.Tracked x) :
    Tracks x (Turn.map (List.map (Expr.move x.place))) (do
      let first ← comprehensionTarget inner
      let targets ← separated "," (·.isName "in") (comprehensionTarget inner)
      expectWord "in"
      let source ← orTest inner
      let conditions ← loopItems (·.isName "if") (orTest inner)
      return .item (first :: targets ++ source :: conditions)) (do
      let first ← comprehensionTarget inner
      let targets ← separated "," (·.isName "in") (comprehensionTarget inner)
      expectWord "in"
      let source ← orTest inner
      let conditions ← loopItems (·.isName "if") (orTest inner)
      return .item (first :: targets ++ source :: conditions)) :=
  (tracks_comprehensionTarget h).bind fun _ =>
    ((tracks_comprehensionTarget h).separated "," (stable_isName "in")).bind fun _ =>
      (tracks_expectWord "in").after fun _ => (tracks_orTest h).bind fun _ =>
        ((tracks_orTest h).loopItems (stable_isName "if")).bind fun _ => .pure (by simp [Turn.map])

theorem tracks_comprehension (h : inner.Tracked x) :
    Tracks x (List.map (Expr.move x.place)) (comprehension inner) (comprehension inner) := by
  refine .bind (f := List.map (List.map (Expr.move x.place)))
    (tracks_loop stable_atComprehension fun t u hmoved => ?_) fun _ => .pure List.map_flatten
  rw [hmoved.text]
  exact .ite (tracks_skip (tracks_clause h)) (tracks_clause h)

theorem tracks_display (h : inner.Tracked x) (closing : String) (start : Nat) (first : Expr)
    {build : Span → List Expr → Expr} (hbuild : ∀ s es, (build s es).move x.place =
      build (s.move x.place) (es.map (Expr.move x.place))) :
    Moves x (display inner closing start first build)
      (display inner closing (x.place start) (first.move x.place) build) :=
  (tracks_ask stable_atComprehension).after fun _ => .ite
    ((tracks_comprehension h).bind fun _ => (tracks_expectOp closing).after fun _ =>
      tracks_node fun _ => Expr.move_closure ..)
    (((tracks_starOrNamed h).separated "," (stable_isOp closing)).bind fun _ =>
      (tracks_expectOp closing).after fun _ => tracks_node fun _ => hbuild _ _)

theorem tracks_paren (h : inner.Tracked x) (start : Nat) :
    Moves x (paren inner start) (paren inner (x.place start)) := by
  refine (tracks_eat (stable_isOp ")")).after fun _ => .ite
    (tracks_node fun _ => Expr.move_tuple ..)
    (tracks_whether (stable_isName "yield") (textual_isName "yield") ?_ ?_)
  · exact (tracks_yieldExpr h).bind fun value => (tracks_expectOp ")").after fun _ =>
      tracks_node fun s => value.move_withSpan x.place s
  · exact (tracks_starOrNamed h).bind fun first =>
      (tracks_ask (stable_atComprehension.or (stable_isOp ","))).after fun _ => .ite
        (tracks_display h ")" start first fun _ _ => Expr.move_tuple ..)
        ((tracks_expectOp ")").after fun _ => .pure rfl)

theorem tracks_list (h : inner.Tracked x) (start : Nat) :
    Moves x (list inner start) (list inner (x.place start)) :=
  (tracks_eat (stable_isOp "]")).after fun _ => .ite (tracks_node fun _ => Expr.move_list ..)
    ((tracks_starOrNamed h).bind fun first =>
      tracks_display h "]" start first fun _ _ => Expr.move_list ..)

theorem tracks_dictValue (h : inner.Tracked x) (key : Option Expr) :
    Tracks x (DictItem.move x.place) (dictValue inner key)
      (dictValue inner (key.map (Expr.move x.place))) := by
  cases key with
  | some key => exact (tracks_expectOp ":").after fun _ => (tracks_test h).bind fun _ => .pure rfl
  | none => exact (tracks_binary h).bind fun _ => .pure rfl

theorem tracks_dictItem (h : inner.Tracked x) :
    Tracks x (DictItem.move x.place) (dictItem inner) (dictItem inner) :=
  (tracks_eat (stable_isOp "**")).after fun _ => .ite (tracks_dictValue h none)
    ((tracks_test h).bind fun key => tracks_dictValue h (some key))

theorem tracks_dictFrom (h : inner.Tracked x) (start : Nat) (first : DictItem Expr) :
    Moves x (dictFrom inner start first)
      (dictFrom inner (x.place start) (first.move x.place)) := by
  have hkey : (first.move x.place).key.isSome = first.key.isSome := Option.isSome_map
  have hparts : (first.move x.place).key.toList = first.key.toList.map (Expr.move x.place) :=
    Option.toList_map
  unfold dictFrom
  rw [hkey, hparts]
  refine (tracks_ask stable_atComprehension).after fun _ => .ite ?_ ?_
  · exact (tracks_comprehension h).bind fun clauses => (tracks_expectOp "\x7d").after fun _ =>
      tracks_node fun _ => by simp [DictItem.move]
  · exact ((tracks_dictItem h).separated "," (stable_isOp "\x7d")).bind fun _ =>
      (tracks_expectOp "\x7d").after fun _ => tracks_node fun _ => Expr.move_dict ..

theorem tracks_brace (h : inner.Tracked x) (start : Nat) :
    Moves x (brace inner start) (brace inner (x.place start)) := by
  refine (tracks_eat (stable_isOp "\x7d")).after fun _ => .ite
    (tracks_node fun _ => Expr.move_dict ..) ((tracks_eat (stable_isOp "**")).after fun _ =>
      .ite ((tracks_dictValue h none).bind fun first => tracks_dictFrom h start first) ?_)
  exact (tracks_starOrNamed h).bind fun first => (tracks_ask (stable_isOp ":")).after fun _ =>
    .ite ((tracks_dictValue h (some first)).bind fun item => tracks_dictFrom h start item)
      (tracks_display h "\x7d" start first fun _ _ => Expr.move_set ..)

/-! ## Calls and subscripts -/

/-- An argument where `place` says where each byte stands. -/
def moveArgument (place : Nat → Nat) : Expr ⊕ Keyword Expr → Expr ⊕ Keyword Expr :=
  Sum.map (Expr.move place) (Keyword.move place)

theorem tracks_argument (h : inner.Tracked x) :
    Tracks x (moveArgument x.place) (argument inner) (argument inner) := by
  have hkeyword : ∀ {arg : Option String} {start : Nat}, Tracks x (moveArgument x.place) (do
        let value ← test inner
        return .inr ⟨arg, value, ← spanFrom start⟩) (do
        let value ← test inner
        return .inr ⟨arg, value, ← spanFrom (x.place start)⟩) :=
    fun {_ _} => (tracks_test h).bind fun _ => tracks_node fun _ => rfl
  refine .of_text (.here fun start => (tracks_eat (stable_isOp "**")).after fun _ =>
    .ite hkeyword ((tracks_ask (stable_isOp "*")).after fun _ => .ite ?_
      ((tracks_ask stable_atKeywordArgument).after fun _ => .ite ?_ ?_))) ?_
  · exact (tracks_starOrTest h).bind fun _ => .pure rfl
  · exact tracks_identifier.after fun _ => tracks_skip hkeyword
  · refine (tracks_namedTest h).bind fun value => (tracks_ask stable_atComprehension).after fun _ =>
      .ite ?_ (.pure rfl)
    exact (tracks_comprehension h).bind fun clauses => tracks_node fun s =>
      congrArg Sum.inl (Expr.move_closure x.place s (value :: clauses))
  · intro c a d hrun
    rw [argument, runs_here_bind, eatOp, runs_eat_bind] at hrun
    rcases hrun with ⟨hop, -⟩ | ⟨-, hrun⟩
    · exact textual_isOp "**" hop
    rw [if_neg Bool.false_ne_true, runs_ask_bind, runs_ite] at hrun
    rcases hrun with ⟨hstar, -⟩ | ⟨-, hrun⟩
    · exact textual_isOp "*" hstar
    rw [runs_ask_bind, runs_ite] at hrun
    rcases hrun with ⟨hname, -⟩ | ⟨-, hrun⟩
    · exact textual_isKind rfl (Bool.and_eq_true_iff.mp hname).1
    · obtain ⟨value, m, hvalue, -⟩ := runs_bind.mp hrun
      exact (gives_namedTest h.sound).atText hvalue

theorem tracks_arguments (h : inner.Tracked x) :
    Tracks x (List.map (moveArgument x.place)) (arguments inner) (arguments inner) :=
  (tracks_ask (stable_isOp ")")).after fun _ => .ite (.pure rfl)
    ((tracks_argument h).bind fun _ =>
      ((tracks_argument h).separated "," (stable_isOp ")")).bind fun _ => .pure rfl)

theorem tracks_slice (h : inner.Tracked x) :
    Tracks x (List.map (Expr.move x.place)) (slice inner) (slice inner) := by
  have hbounds : ∀ lower : List Expr, Tracks x (List.map (Expr.move x.place)) (do
        let bounds ← loop (·.isOp ":") fun _ => do
          if ← ask (·.isAnyOp [":", "]", ","]) then return .item []
          else return .item [← test inner]
        return lower ++ bounds.flatten) (do
        let bounds ← loop (·.isOp ":") fun _ => do
          if ← ask (·.isAnyOp [":", "]", ","]) then return .item []
          else return .item [← test inner]
        return lower.map (Expr.move x.place) ++ bounds.flatten) := fun lower =>
    .bind (f := List.map (List.map (Expr.move x.place)))
      (tracks_loop (stable_isOp ":") fun _ _ _ =>
        (tracks_ask (stable_isAnyOp [":", "]", ","])).after fun _ => .ite (.pure rfl)
          ((tracks_test h).bind fun _ => .pure rfl))
      fun _ => .pure (by simp [List.map_flatten])
  refine (tracks_ask ((stable_isOp ":").or (stable_isOp "]"))).after fun _ => .ite ?_ ?_
  · exact .bind (f := List.map (Expr.move x.place)) (.pure rfl) fun lower => hbounds lower
  · exact (tracks_starOrNamed h).bind fun e =>
      .bind (f := List.map (Expr.move x.place)) (.pure rfl) fun lower => hbounds lower

theorem tracks_subscript (h : inner.Tracked x) :
    Tracks x (List.map (Expr.move x.place)) (subscript inner) (subscript inner) :=
  (tracks_slice h).bind fun _ => ((tracks_slice h).separated "," (stable_isOp "]")).bind fun _ =>
    .pure (by simp [List.map_flatten])

theorem filterMap_getLeft_move (place : Nat → Nat) (given : List (Expr ⊕ Keyword Expr)) :
    (given.map (moveArgument place)).filterMap Sum.getLeft? =
      (given.filterMap Sum.getLeft?).map (Expr.move place) := by
  rw [List.filterMap_map, List.map_filterMap]
  congr 1
  funext a
  cases a <;> rfl

theorem filterMap_getRight_move (place : Nat → Nat) (given : List (Expr ⊕ Keyword Expr)) :
    (given.map (moveArgument place)).filterMap Sum.getRight? =
      (given.filterMap Sum.getRight?).map (Keyword.move place) := by
  rw [List.filterMap_map, List.map_filterMap]
  congr 1
  funext a
  cases a <;> rfl

theorem tracks_link (h : inner.Tracked x) (start : Nat) (base : Expr) :
    Moves x (link inner start base) (link inner (x.place start) (base.move x.place)) := by
  have hnext : ∀ {build build' : Span → Expr},
      (∀ s, (build s).move x.place = build' (s.move x.place)) → Moves x
        (do links inner start (build (← spanFrom start)))
        (do links inner (x.place start) (build' (← spanFrom (x.place start)))) :=
    fun hbuild => (tracks_spanFrom start).bind fun s => hbuild s ▸ tracks_links h start _
  refine (tracks_eat (stable_isOp "(")).after fun _ => .ite ?_
    ((tracks_eat (stable_isOp "[")).after fun _ => .ite ?_ ?_)
  · refine (tracks_arguments h).bind fun given => (tracks_expectOp ")").after fun _ =>
      hnext fun s => ?_
    rw [Expr.move_call, filterMap_getLeft_move, filterMap_getRight_move]
  · exact (tracks_subscript h).bind fun _ => (tracks_expectOp "]").after fun _ =>
      hnext fun _ => Expr.move_compound ..
  · exact (tracks_expectOp ".").after fun _ => tracks_identifier.after fun _ => hnext fun _ => rfl

end Parser

namespace Level

variable {x : Setting}

theorem exhausted_tracked : exhausted.Tracked x := by
  have hnone : ∀ q : Parser Expr, Parser.Moves x (Parser.failWith .tooManyLevels) q :=
    fun _ => .fails (by simp)
  exact ⟨exhausted_sound, hnone _, hnone _, hnone _, hnone _, fun _ _ => hnone _, fun _ => hnone _,
    fun _ => hnone _, fun _ => hnone _⟩

theorem Tracked.above {inner : Level} (h : inner.Tracked x) : (above inner).Tracked x where
  sound := h.sound.above
  test := Parser.tracks_test h
  notTest := Parser.tracks_notTest h
  factor := Parser.tracks_factor h
  power := Parser.tracks_power h
  link := Parser.tracks_link h
  paren := Parser.tracks_paren h
  list := Parser.tracks_list h
  brace := Parser.tracks_brace h

theorem ofBudget_tracked : ∀ n, (ofBudget n).Tracked x
  | 0 => exhausted_tracked
  | n + 1 => (ofBudget_tracked n).above

end Level

end WorkflowAudit.Script
