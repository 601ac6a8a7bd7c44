import WorkflowAudit.Proofs.Script.Parser.Statement
import WorkflowAudit.Proofs.Script.Parser.Transfer

/-!
# Simple statements and headers inside a longer script

What stands on one line is read in a longer script as it is in the script alone, further on.
The span of a simple statement is handed to the parsers of its parts, so those are followed in
both scripts with a span of their own.
-/

namespace WorkflowAudit.Script

namespace Parser

variable {x : Setting} {inner : Level}

/-- A statement read in both scripts, further on in the longer one. -/
abbrev MovesStmt (x : Setting) (p q : Parser Stmt) : Prop := Tracks x (Stmt.move x.place) p q

/-! ## Imports -/

theorem TracksAt.congr {P : Cursor → Prop} {f g : α → β} {p : Parser α} {q : Parser β}
    (h : TracksAt x P f p q) (hsame : f = g) : TracksAt x P g p q :=
  hsame ▸ h

theorem TracksAt.map {P : Cursor → Prop} {f : α → β} {g : γ → δ} {p : Parser α} {q : Parser β}
    {k : α → γ} {l : β → δ} (h : TracksAt x P f p q) (hsame : ∀ a, g (k a) = l (f a)) :
    TracksAt x P g (k <$> p) (l <$> q) := by
  change TracksAt x P g (p >>= fun a => Pure.pure (k a)) (q >>= fun b => Pure.pure (l b))
  exact h.bind fun a => .pure (hsame a)

theorem Tracks.sameItems {p : Parser α} {test : Cursor → Bool} (h : Tracks x id p p)
    (htest : Stable x test) : Tracks x id (Parser.loopItems test p) (Parser.loopItems test p) :=
  (h.loopItems htest).congr List.map_id_fun

theorem tracks_dottedName : Tracks x id dottedName dottedName :=
  tracks_identifier.after fun _ => (tracks_identifier.sameItems (stable_isOp ".")).after fun _ =>
    .pure rfl

theorem tracks_asName : Tracks x id asName asName :=
  (tracks_eat (stable_isName "as")).after fun _ =>
    .ite (tracks_identifier.after fun _ => .pure rfl) (.pure rfl)

theorem tracks_dottedAlias : Tracks x id dottedAlias dottedAlias :=
  tracks_dottedName.after fun _ => tracks_asName.after fun _ => .pure rfl

theorem tracks_plainAlias : Tracks x id plainAlias plainAlias :=
  tracks_identifier.after fun _ => tracks_asName.after fun _ => .pure rfl

theorem tracks_importLevel : Tracks x id importLevel importLevel := by
  refine .after (.congr (f := List.map id) (tracks_loop (stable_isAnyOp _) fun t u hmoved => ?_)
    List.map_id_fun) fun _ => .pure rfl
  rw [hmoved.text]
  exact .pure rfl

section

variable {span span' : Parser Span} (hspan : Tracks x (Span.move x.place) span span')

include hspan

/-- The last step of a simple statement. -/
theorem tracks_built {build build' : Span → Stmt}
    (h : ∀ s, (build s).move x.place = build' (s.move x.place)) :
    MovesStmt x (do return build (← span)) (do return build' (← span')) :=
  hspan.bind fun s => .pure (h s)

theorem tracks_importNames : MovesStmt x (importNames span) (importNames span') :=
  tracks_dottedAlias.after fun _ => (tracks_dottedAlias.sameItems (stable_isOp ",")).after fun _ =>
    tracks_built hspan fun _ => rfl

theorem tracks_importFrom : MovesStmt x (importFrom span) (importFrom span') := by
  have hnames : ∀ (source : Option String) (level : Nat) (inParens : Bool), MovesStmt x (do
        let first ← plainAlias
        let more ← separated "," (fun c => inParens && c.isOp ")") plainAlias
        if inParens then expectOp ")"
        return .importFrom (← span) source level (first :: more)) (do
        let first ← plainAlias
        let more ← separated "," (fun c => inParens && c.isOp ")") plainAlias
        if inParens then expectOp ")"
        return .importFrom (← span') source level (first :: more)) := by
    intro source level inParens
    refine tracks_plainAlias.after fun _ => ((tracks_plainAlias.separated ","
      ((stable_isOp ")").map (inParens && ·))).congr List.map_id_fun).after fun _ => .ite ?_ ?_
    · exact (tracks_expectOp ")").after fun _ => tracks_built hspan fun _ => rfl
    · exact tracks_built hspan fun _ => rfl
  have hend : ∀ (level : Nat) (source : Option String), MovesStmt x (do
        expectWord "import"
        if ← eatOp "*" then return .importFrom (← span) source level [⟨"*", none⟩]
        else
          let inParens ← eatOp "("
          let first ← plainAlias
          let more ← separated "," (fun c => inParens && c.isOp ")") plainAlias
          if inParens then expectOp ")"
          return .importFrom (← span) source level (first :: more)) (do
        expectWord "import"
        if ← eatOp "*" then return .importFrom (← span') source level [⟨"*", none⟩]
        else
          let inParens ← eatOp "("
          let first ← plainAlias
          let more ← separated "," (fun c => inParens && c.isOp ")") plainAlias
          if inParens then expectOp ")"
          return .importFrom (← span') source level (first :: more)) := fun level source =>
    (tracks_expectWord "import").after fun _ => (tracks_eat (stable_isOp "*")).after fun _ =>
      .ite (tracks_built hspan fun _ => rfl)
        ((tracks_eat (stable_isOp "(")).after fun inParens => hnames source level inParens)
  exact tracks_importLevel.after fun level => (tracks_ask (stable_isName "import")).after fun _ =>
    .ite (.after (.pure rfl) fun source => hend level source)
      (.after (tracks_dottedName.map fun _ => rfl) fun source => hend level source)

/-! ## Simple statements -/

theorem tracks_exprStatement (h : inner.Tracked x) :
    MovesStmt x (exprStatement inner span) (exprStatement inner span') := by
  refine (tracks_starExpressions h).bind fun first => (tracks_eat (stable_isOp ":")).after fun _ =>
    .ite ?_ ((tracks_eat (stable_isAnyOp _)).after fun _ => .ite ?_
      ((tracks_ask (stable_isOp "=")).after fun _ => .ite ?_ (tracks_built hspan fun _ => rfl)))
  · refine (tracks_test h).bind fun note => (tracks_eat (stable_isOp "=")).after fun _ =>
      .ite ?_ ?_
    · exact .bind (f := Option.map (Expr.move x.place))
        ((tracks_yieldOrStar h).map fun _ => rfl) fun _ => tracks_built hspan fun _ => rfl
    · exact .bind (f := Option.map (Expr.move x.place)) (.pure rfl) fun _ =>
        tracks_built hspan fun _ => rfl
  · exact (tracks_yieldOrStar h).bind fun _ => tracks_built hspan fun _ => rfl
  · have hassignment : Tracks x (Prod.map (List.map (Expr.move x.place)) (Expr.move x.place))
        (assignment inner first) (assignment inner (first.move x.place)) :=
      ((tracks_yieldOrStar h).loopItems (stable_isOp "=")).bind fun more => .pure <| by
        simp [List.map_dropLast, List.getLastD_eq_getLast?]
    exact hassignment.bind fun _ => tracks_built hspan fun _ => Stmt.move_assign ..

end

theorem tracks_keywordOperands (h : inner.Tracked x) (word : String) :
    Tracks x (List.map (Expr.move x.place)) (keywordOperands inner word)
      (keywordOperands inner word) := by
  have hone : ∀ {p : Parser Expr}, Moves x p p → Tracks x (List.map (Expr.move x.place))
      (p >>= fun e => Pure.pure [e]) (p >>= fun e => Pure.pure [e]) :=
    fun hp => hp.bind fun _ => .pure rfl
  have htwo : ∀ {p : Parser Expr} {test : Cursor → Bool}, Moves x p p → Stable x test →
      Tracks x (List.map (Expr.move x.place))
        (do let first ← p; if ← eat test then return [first, ← p] else return [first])
        (do let first ← p; if ← eat test then return [first, ← p] else return [first]) :=
    fun hp htest => hp.bind fun _ => (tracks_eat htest).after fun _ =>
      .ite (hp.bind fun _ => .pure rfl) (.pure rfl)
  have hnames : Tracks x (List.map (Expr.move x.place)) (do
      let _ ← identifier
      let _ ← loopItems (·.isOp ",") identifier
      Pure.pure []) (do
      let _ ← identifier
      let _ ← loopItems (·.isOp ",") identifier
      Pure.pure []) :=
    tracks_identifier.after fun _ => (tracks_identifier.sameItems (stable_isOp ",")).after fun _ =>
      .pure rfl
  have hend : Stable x atStatementEnd :=
    .or (.or (stable_isKind .newline) (stable_isKind .endMarker)) (stable_isOp ";")
  unfold keywordOperands
  split
  case h_1 =>
    exact (tracks_ask hend).after fun _ => .ite (.pure rfl) (hone (tracks_starExpressions h))
  case h_2 =>
    exact (tracks_ask hend).after fun _ => .ite (.pure rfl)
      (htwo (tracks_test h) (stable_isName "from"))
  case h_3 => exact hone (tracks_starExpressions h)
  case h_4 => exact htwo (tracks_test h) (stable_isOp ",")
  case h_5 => exact hnames
  case h_6 => exact hnames
  case h_7 => exact .pure rfl

theorem tracks_smallStatement (h : inner.Tracked x) :
    MovesStmt x (smallStatement inner) (smallStatement inner) := by
  refine .of_text (.peek fun t => ?_) fun c s d hrun => ?_
  · have hspan := tracks_spanFrom (x := x) t.span.start
    refine .ite ?_ (.ite ?_ (.ite ?_ (.ite ?_ ?_)))
    · exact .of_tracks (tracks_skip ((tracks_keywordOperands h _).bind fun _ =>
        tracks_built hspan fun _ => Stmt.move_other ..))
    · exact .of_tracks (tracks_skip (tracks_importNames hspan))
    · exact .of_tracks (tracks_skip (tracks_importFrom hspan))
    · exact (tracks_yieldExpr h).bind fun _ => tracks_built hspan fun _ => rfl
    · exact .of_tracks (tracks_exprStatement hspan h)
  · obtain ⟨ts, htook, ⟨t, us, rfl, ht⟩, -⟩ := spread_smallStatement h.sound hrun
    rwa [Cursor.AtText, htook.peek_eq]

/-! ## Headers -/

theorem takes_skipHeader {depth lambdas : Nat} {c d : Cursor} {u : Unit}
    (hrun : Runs (skipHeader depth lambdas) c u d) : d.rest.length < c.rest.length := by
  obtain ⟨hle, hrun⟩ := hrun
  induction hn : c.rest.length using Nat.strongRecOn generalizing c depth lambdas with
  | ind n ih =>
    unfold skipHeader at hrun
    split at hrun
    case h_1 => cases hrun
    case h_2 t ts hrest =>
      have hlt : c.advance.rest.length < n := by
        rw [Cursor.length_advance, ← hn, hrest, List.length_cons]
        omega
      dsimp only at hrun
      split at hrun
      case isTrue => cases hrun
      split at hrun
      case isTrue =>
        cases hrun
        exact hlt
      case isFalse =>
        split at hrun
        case h_1 => cases hrun
        case h_2 m hm hmore =>
          cases hrun
          exact Nat.lt_trans (ih _ hlt hm hmore rfl) hlt

theorem reaches_skipHeader (depth lambdas : Nat) :
    Reaches x id (skipHeader depth lambdas) (skipHeader depth lambdas) := by
  refine ⟨fun _ _ _ => takes_skipHeader, fun c c' u d hc hrun hd => ?_⟩
  have hbefore : c.Before x := Nat.lt_of_le_of_lt hd (takes_skipHeader hrun)
  obtain ⟨hle, hrun⟩ := hrun
  induction hn : c.rest.length using Nat.strongRecOn generalizing c c' depth lambdas with
  | ind n ih =>
    unfold skipHeader at hrun
    split at hrun
    case h_1 => cases hrun
    case h_2 t ts hrest =>
      obtain ⟨v, vs, hv, hmoved⟩ := hc.cons hbefore hrest
      have hadvance := hc.advance hbefore
      dsimp only at hrun
      split at hrun
      case isTrue => cases hrun
      case isFalse hline =>
        split at hrun
        case isTrue hcolon =>
          cases hrun
          refine ⟨c'.advance, ⟨by rw [Cursor.length_advance]; omega, ?_⟩, hadvance⟩
          unfold skipHeader
          split
          case h_1 hnil => simp [hv] at hnil
          case h_2 v' vs' hv' =>
            obtain ⟨rfl, rfl⟩ := List.cons.inj (hv.symm.trans hv')
            simp only [hmoved.kind, hmoved.text, if_neg hline, if_pos hcolon]
        case isFalse hcolon =>
          split at hrun
          case h_1 => cases hrun
          case h_2 m hm hmore =>
            cases hrun
            have hlt : c.advance.rest.length < n := by
              rw [Cursor.length_advance, ← hn, hrest, List.length_cons]
              omega
            obtain ⟨d', ⟨hle', hmore'⟩, hd⟩ := ih _ hlt _ _ _ _ hadvance
              (Nat.lt_of_le_of_lt hd (takes_skipHeader ⟨hm, hmore⟩)) hm hmore rfl
            refine ⟨d', ⟨by rw [Cursor.length_advance] at hle'; omega, ?_⟩, hd⟩
            unfold skipHeader
            split
            case h_1 hnil => simp [hv] at hnil
            case h_2 v' vs' hv' =>
              obtain ⟨rfl, rfl⟩ := List.cons.inj (hv.symm.trans hv')
              simp only [hmoved.kind, hmoved.text, if_neg hline, if_neg hcolon]
              rw [hmore']

/-- A header is the same in both scripts, whatever follows its colon. -/
theorem reaches_blockHeader (h : inner.Tracked x) (keyword : String) :
    Reaches x (Prod.map id (List.map (Expr.move x.place))) (blockHeader inner keyword)
      (blockHeader inner keyword) := by
  have hcondition : Reaches x (Prod.map id (List.map (Expr.move x.place))) (do
      let condition ← namedTest inner
      expectOp ":"
      Pure.pure ((none : Option String), [condition])) (do
      let condition ← namedTest inner
      expectOp ":"
      Pure.pure ((none : Option String), [condition])) :=
    .after (tracks_namedTest h) fun _ => (reaches_expectOp ":").map fun _ => rfl
  unfold blockHeader
  split
  case h_1 | h_2 | h_3 => exact hcondition
  case h_4 | h_5 | h_6 => exact (reaches_expectOp ":").map fun _ => rfl
  case h_7 | h_8 =>
    exact .after tracks_identifier fun _ => (reaches_skipHeader 0 0).map fun _ => rfl
  case h_9 | h_10 | h_11 | h_12 | h_13 => exact (reaches_skipHeader 0 0).map fun _ => rfl
  case h_14 => exact .fails (by simp)

theorem tracks_blockHeader (h : inner.Tracked x) (keyword : String) :
    Tracks x (Prod.map id (List.map (Expr.move x.place))) (blockHeader inner keyword)
      (blockHeader inner keyword) :=
  (reaches_blockHeader h keyword).tracks

end Parser

end WorkflowAudit.Script
