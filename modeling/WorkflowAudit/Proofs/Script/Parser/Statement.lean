import WorkflowAudit.Proofs.Script.Parser.Display

/-!
# Statements stand on the tokens they were read from

The tokens of a statement leave no bracket open. The statement covers them, and its expressions
and the statements inside it were read from parts of them. From this the same follows for a
whole script.
-/

namespace WorkflowAudit.Script

namespace Parser

variable {inner : Level}

/-- A parser takes tokens from which the nodes in what it gives were read. -/
def GivesNodes (nodes : α → List Node) (p : Parser α) : Prop :=
  ∀ ⦃c : Cursor⦄ ⦃a : α⦄ ⦃d : Cursor⦄, Runs p c a d → ∃ ts, Took c ts d ∧ Holds ts (nodes a)

/-- A parser that takes tokens of one line from which no expression was read. -/
def Barren (p : Parser α) : Prop := GivesAll (fun _ => []) p

theorem Barren.bare {p : Parser α} (h : Barren p) : GivesNodes (fun _ => []) p := by
  intro c a d hrun
  obtain ⟨ts, hts, hspread⟩ := h hrun
  exact ⟨ts, hts, hspread.toHolds⟩

/-- A first step that reads no node. -/
theorem GivesNodes.after {nodes : β → List Node} {p : Parser α} {f : α → Parser β}
    (h : GivesNodes (fun _ => []) p) (hf : ∀ a, GivesNodes nodes (f a)) :
    GivesNodes nodes (p >>= f) := by
  intro c b d hrun
  obtain ⟨a, m, hp, hrun⟩ := runs_bind.mp hrun
  obtain ⟨ts, hts, hbare⟩ := h hp
  obtain ⟨us, hus, hnodes⟩ := hf a hrun
  exact ⟨_, hts.trans hus, hbare.append hnodes⟩

theorem GivesNodes.skip {nodes : β → List Node} {p : Parser α} {f : α → Parser β} (h : Barren p)
    (hf : ∀ a, GivesNodes nodes (f a)) : GivesNodes nodes (p >>= f) :=
  .after h.bare hf

theorem GivesNodes.pure (nodes : α → List Node) {a : α} (h : nodes a = []) :
    GivesNodes nodes (Pure.pure a) := by
  intro c b d hrun
  obtain ⟨rfl, rfl⟩ := runs_pure.mp hrun
  exact ⟨[], .refl _, h ▸ .of_settled trivial⟩

theorem GivesNodes.bindPure {nodes : α → List Node} {nodes' : β → List Node} {p : Parser α}
    (h : GivesNodes nodes p) (f : α → β) (hf : ∀ a, nodes' (f a) = nodes a) :
    GivesNodes nodes' (p >>= fun a => Pure.pure (f a)) := by
  intro c b d hrun
  obtain ⟨a, hp, rfl⟩ := runs_bind_pure.mp hrun
  rw [hf]
  exact h hp

theorem GivesNodes.ite {nodes : α → List Node} {p₁ p₂ : Parser α} {q : Prop} [Decidable q]
    (h₁ : GivesNodes nodes p₁) (h₂ : GivesNodes nodes p₂) :
    GivesNodes nodes (if q then p₁ else p₂) := by
  split
  · exact h₁
  · exact h₂

/-! ## Spans of simple statements -/

/-- A parser gives statements without statements inside them, each from an offset to the end of
the last token taken. -/
def ReachesFrom (start : Nat) (p : Parser Stmt) : Prop :=
  ∀ ⦃c : Cursor⦄ ⦃s : Stmt⦄ ⦃d : Cursor⦄, Runs p c s d →
    s.inner = [] ∧ s.span = ⟨start, max d.lastEnd start⟩

namespace ReachesFrom

variable {start : Nat}

theorem after {p : Parser α} {f : α → Parser Stmt} (h : ∀ a, ReachesFrom start (f a)) :
    ReachesFrom start (p >>= f) := by
  intro c s d hrun
  obtain ⟨a, m, -, hrun⟩ := runs_bind.mp hrun
  exact h a hrun

theorem ite {p₁ p₂ : Parser Stmt} {q : Prop} [Decidable q] (h₁ : ReachesFrom start p₁)
    (h₂ : ReachesFrom start p₂) : ReachesFrom start (if q then p₁ else p₂) := by
  split
  · exact h₁
  · exact h₂

theorem built {build : Span → Stmt} (hinner : ∀ s, (build s).inner = [])
    (hspan : ∀ s, (build s).span = s) :
    ReachesFrom start (spanFrom start >>= fun s => Pure.pure (build s)) := by
  intro c s d hrun
  obtain ⟨rfl, rfl⟩ := runs_spanFrom_pure.mp hrun
  exact ⟨hinner _, hspan _⟩

end ReachesFrom

theorem reachesFrom_importNames (start : Nat) :
    ReachesFrom start (importNames (spanFrom start)) :=
  .after fun _ => .after fun _ => .built (fun _ => rfl) fun _ => rfl

theorem reachesFrom_importFrom (start : Nat) : ReachesFrom start (importFrom (spanFrom start)) := by
  have hnames : ∀ (inParens : Bool) source level, ReachesFrom start (do
      let first ← plainAlias
      let more ← separated "," (fun c => inParens && c.isOp ")") plainAlias
      if inParens then expectOp ")"
      return .importFrom (← spanFrom start) source level (first :: more)) := fun _ _ _ =>
    .after fun _ => .after fun _ => .ite
      (.after fun _ => .built (fun _ => rfl) fun _ => rfl) (.built (fun _ => rfl) fun _ => rfl)
  have hend : ∀ source level, ReachesFrom start (do
      expectWord "import"
      if ← eatOp "*" then return .importFrom (← spanFrom start) source level [⟨"*", none⟩]
      else
        let inParens ← eatOp "("
        let first ← plainAlias
        let more ← separated "," (fun c => inParens && c.isOp ")") plainAlias
        if inParens then expectOp ")"
        return .importFrom (← spanFrom start) source level (first :: more)) := fun _ _ =>
    .after fun _ => .after fun _ => .ite (.built (fun _ => rfl) fun _ => rfl)
      (.after fun inParens => hnames inParens _ _)
  exact .after fun _ => .after fun _ => .ite (.after fun _ => hend _ _) (.after fun _ => hend _ _)

theorem reachesFrom_exprStatement (start : Nat) :
    ReachesFrom start (exprStatement inner (spanFrom start)) := by
  have hbuilt : ∀ {build : Span → Stmt}, (∀ s, (build s).inner = []) → (∀ s, (build s).span = s) →
      ReachesFrom start (spanFrom start >>= fun s => Pure.pure (build s)) := .built
  refine .after fun _ => .after fun _ => .ite ?_ (.after fun _ => .ite ?_ ?_)
  · exact .after fun _ => .after fun _ => .ite
      (.after fun _ => hbuilt (fun _ => rfl) fun _ => rfl)
      (.after fun _ => hbuilt (fun _ => rfl) fun _ => rfl)
  · exact .after fun _ => hbuilt (fun _ => rfl) fun _ => rfl
  · exact .after fun _ => .ite (.after fun _ => hbuilt (fun _ => rfl) fun _ => rfl)
      (hbuilt (fun _ => rfl) fun _ => rfl)

theorem reaches_of_smallStatement {c d : Cursor} {s : Stmt}
    (h : Runs (smallStatement inner) c s d) :
    s.inner = [] ∧ s.span = ⟨c.peek.span.start, max d.lastEnd c.peek.span.start⟩ := by
  rw [smallStatement, runs_ask_bind] at h
  refine ReachesFrom.ite (.after fun _ => .after fun _ => .built (fun _ => rfl) fun _ => rfl)
    (.ite (.after fun _ => reachesFrom_importNames _) (.ite
      (.after fun _ => reachesFrom_importFrom _) (.ite
        (.after fun _ => .built (fun _ => rfl) fun _ => rfl) (reachesFrom_exprStatement _)))) h

/-- A simple statement over all tokens since a place. -/
theorem holds_simple {c d : Cursor} {ts : List Token} {s : Stmt} (htook : Took c ts d)
    (hopens : Opens ts) (h : Spread ts s.exprs)
    (hreaches : s.inner = [] ∧ s.span = ⟨c.peek.span.start, max d.lastEnd c.peek.span.start⟩) :
    Holds ts [.statement s] := by
  have hchildren : (Node.statement s).children = s.exprs.map .expression := by
    rw [Node.children, hreaches.1, List.map_nil, List.append_nil]
  exact .wrap (hchildren ▸ h.toHolds) (covers_of_took htook hopens hreaches.2) (by rintro v ⟨⟩)

/-! ## Imports -/

theorem barren_identifier : Barren identifier := by
  intro c name d hrun
  obtain ⟨⟨hname, -⟩, -, rfl⟩ := runs_identifier.mp hrun
  obtain ⟨ts, hts, -, hname⟩ := Took.name hname
  exact ⟨ts, hts, hname⟩

theorem barren_spanFrom (start : Nat) : Barren (spanFrom start) := gives_ask

theorem barren_expectOp {text : String} (h : text ∉ ["(", "[", "\x7b"]) :
    Barren (expectOp text) := by
  intro c u d hrun
  obtain ⟨hop, rfl⟩ := runs_expectOp.mp hrun
  obtain ⟨ts, hts, -, hop⟩ := Took.op hop h
  exact ⟨ts, hts, hop⟩

theorem barren_expectWord (text : String) : Barren (expectWord text) := by
  intro c u d hrun
  obtain ⟨hword, rfl⟩ := runs_expectWord.mp hrun
  obtain ⟨ts, hts, -, hword⟩ := Took.word hword
  exact ⟨ts, hts, hword⟩

theorem barren_pure (a : α) : Barren (Pure.pure a : Parser α) := GivesAll.pure _ rfl

theorem Barren.loopItems {item : Parser α} (h : Barren item) {test : Cursor → Bool}
    (htest : Plain test) : Barren (loopItems test item) := by
  intro c as d hrun
  have hnil : as.flatMap (fun _ => ([] : List Expr)) = [] := List.flatMap_eq_nil_iff.mpr (by simp)
  exact hnil ▸ GivesAll.loopItems h htest hrun

theorem Barren.separated {item : Parser α} (h : Barren item) {separator : String}
    (hseparator : separator ∉ ["(", "[", "\x7b"]) (closing : Cursor → Bool) :
    Barren (separated separator closing item) := by
  intro c as d hrun
  have hnil : as.flatMap (fun _ => ([] : List Expr)) = [] := List.flatMap_eq_nil_iff.mpr (by simp)
  exact hnil ▸ GivesAll.separated h hseparator closing hrun

theorem barren_dottedName : Barren dottedName :=
  .skip barren_identifier fun _ =>
    .skip (barren_identifier.loopItems (plain_isOp (by decide))) fun _ => barren_pure _

theorem barren_asName : Barren asName :=
  .skip (gives_eat (plain_isName "as")) fun _ =>
    .ite (.skip barren_identifier fun _ => barren_pure _) (barren_pure _)

theorem barren_dottedAlias : Barren dottedAlias :=
  .skip barren_dottedName fun _ => .skip barren_asName fun _ => barren_pure _

theorem barren_plainAlias : Barren plainAlias :=
  .skip barren_identifier fun _ => .skip barren_asName fun _ => barren_pure _

theorem barren_importLevel : Barren importLevel := by
  refine .skip (fun c dots d hrun => ?_) fun _ => barren_pure _
  have hnil : dots.flatMap (fun _ => ([] : List Expr)) = [] := List.flatMap_eq_nil_iff.mpr (by simp)
  refine hnil ▸ GivesAll.loop (plain_isAnyOp (by decide)) (fun _ _ hturn => ?_) hrun
  obtain ⟨rfl, rfl⟩ := runs_pure.mp hturn
  exact ⟨[], .refl _, .nil⟩

theorem gives_importNames {span : Parser Span} (hspan : Barren span) :
    GivesAll Stmt.exprs (importNames span) :=
  .skip barren_dottedAlias fun _ =>
    .skip (barren_dottedAlias.loopItems (plain_isOp (by decide))) fun _ =>
      .skip hspan fun _ => .pure _ rfl

/-- The names of an import, with or without parentheses around them. -/
theorem gives_importedNames {span : Parser Span} (hspan : Barren span)
    (build : Span → List Alias → Stmt) (hbuild : ∀ s as, (build s as).exprs = []) :
    GivesAll Stmt.exprs (do
        let inParens ← eatOp "("
        let first ← plainAlias
        let more ← separated "," (fun c => inParens && c.isOp ")") plainAlias
        if inParens then expectOp ")"
        return build (← span) (first :: more)) := by
  have hbuilt : ∀ names, GivesAll Stmt.exprs (span >>= fun s => Pure.pure (build s names)) :=
    fun names => .skip hspan fun s => .pure _ (hbuild s names)
  intro c s d hrun
  rw [eatOp, runs_eat_bind] at hrun
  rcases hrun with ⟨hopen, hrun⟩ | ⟨-, hrun⟩
  · rw [runs_bind] at hrun
    obtain ⟨first, m₁, hfirst, hrun⟩ := hrun
    rw [runs_bind] at hrun
    obtain ⟨more, m₂, hmore, hrun⟩ := hrun
    rw [if_pos rfl, runs_expectOp_bind] at hrun
    obtain ⟨hclose, hrun⟩ := hrun
    obtain ⟨l, lrest, hlrest, hl, hltext⟩ := Cursor.isOp_iff.mp hopen
    obtain ⟨r, rrest, hrrest, hr, hrtext⟩ := Cursor.isOp_iff.mp hclose
    obtain ⟨ts, hts, hfirst⟩ := barren_plainAlias hfirst
    obtain ⟨us, hus, hmore⟩ := barren_plainAlias.separated (by decide) _ hmore
    obtain ⟨vs, hvs, hnodes⟩ := hbuilt _ hrun
    have hparens : Spread (l :: ((ts ++ us) ++ [r])) [] := (hfirst.append hmore).bracketed
      (weight_opening hl (by simp [hltext])) (weight_closing hr (by simp [hrtext]))
    refine ⟨_, (Took.advance hlrest).trans ((hts.trans hus).trans
      ((Took.advance hrrest).trans hvs)), ?_⟩
    simpa using hparens.append hnodes
  · exact GivesAll.skip barren_plainAlias (fun _ =>
      .skip (barren_plainAlias.separated (by decide) _) fun _ => hbuilt _) hrun

theorem gives_importFrom {span : Parser Span} (hspan : Barren span) :
    GivesAll Stmt.exprs (importFrom span) := by
  have hend : ∀ source level, GivesAll Stmt.exprs (do
      expectWord "import"
      if ← eatOp "*" then return .importFrom (← span) source level [⟨"*", none⟩]
      else
        let inParens ← eatOp "("
        let first ← plainAlias
        let more ← separated "," (fun c => inParens && c.isOp ")") plainAlias
        if inParens then expectOp ")"
        return .importFrom (← span) source level (first :: more)) := fun source level =>
    .skip (barren_expectWord "import") fun _ => .skip (gives_eat (plain_isOp (by decide))) fun _ =>
      .ite (.skip hspan fun _ => .pure _ rfl)
        (gives_importedNames hspan (.importFrom · source level ·) fun _ _ => rfl)
  refine .skip barren_importLevel fun level => .skip gives_ask fun _ => .ite ?_ ?_
  · exact .skip (barren_pure _) fun source => hend source level
  · exact .skip (barren_dottedName.bindPure some fun _ => rfl) fun source => hend source level

/-! ## Simple statements -/

/-- The last step of a simple statement. -/
theorem spread_of_span {span : Parser Span} (hspan : Barren span) {build : Span → Stmt}
    {es : List Expr} {c m d : Cursor} {s : Stmt} {ts : List Token} (htook : Took c ts m)
    (hts : Spread ts es) (hexprs : ∀ s, (build s).exprs = es)
    (hrun : Runs (span >>= fun s => Pure.pure (build s)) m s d) :
    ∃ us, Took c (ts ++ us) d ∧ Spread (ts ++ us) s.exprs := by
  obtain ⟨place, hspan', rfl⟩ := runs_bind_pure.mp hrun
  obtain ⟨us, hus, hbarren⟩ := hspan hspan'
  refine ⟨us, htook.trans hus, ?_⟩
  rw [hexprs]
  simpa using hts.append hbarren

theorem dropLast_append_getLastD (a : α) (as : List α) :
    (a :: as).dropLast ++ [as.getLastD a] = a :: as := by
  rw [← List.getLastD_cons (a := a) (b := a), List.getLastD_eq_getLast?, List.getLast?_eq_some_getLast
    (List.cons_ne_nil a as), Option.getD_some]
  exact List.dropLast_append_getLast _

theorem gives_exprStatement (h : inner.Sound) {span : Parser Span} (hspan : Barren span)
    {c d : Cursor} {s : Stmt} (hrun : Runs (exprStatement inner span) c s d) :
    ∃ ts, Took c ts d ∧ Opens ts ∧ Spread ts s.exprs := by
  rw [exprStatement, runs_bind] at hrun
  obtain ⟨first, m, hfirst, hrun⟩ := hrun
  obtain ⟨ts, hts, hfirst⟩ := gives_starExpressions h hfirst
  have hbuilt : ∀ (build : Span → Stmt) (es : List Expr) {m d : Cursor} {s : Stmt}
      {us : List Token}, Took c (ts ++ us) m → Spread (ts ++ us) es → (∀ s, (build s).exprs = es) →
      Runs (span >>= fun s => Pure.pure (build s)) m s d →
        ∃ ts, Took c ts d ∧ Opens ts ∧ Spread ts s.exprs := by
    intro build es m d s us htook hes hexprs hrun
    obtain ⟨vs, hvs, hspread⟩ := spread_of_span hspan htook hes hexprs hrun
    exact ⟨_, hvs, (hfirst.opens.append us).append vs, hspread⟩
  rw [eatOp, runs_eat_bind] at hrun
  rcases hrun with ⟨hcolon, hrun⟩ | ⟨-, hrun⟩
  · rw [if_pos rfl, runs_bind] at hrun
    obtain ⟨note, m', hnote, hrun⟩ := hrun
    obtain ⟨us, hus, -, hcolon⟩ := Took.op hcolon (by decide)
    obtain ⟨vs, hvs, hnote⟩ := gives_test h hnote
    have hall := hts.trans (hus.trans hvs)
    have hspread := hfirst.spread.append (hcolon.append hnote.spread)
    rw [eatOp, runs_eat_bind] at hrun
    rcases hrun with ⟨hequals, hrun⟩ | ⟨-, hrun⟩
    · rw [if_pos rfl, runs_bind] at hrun
      obtain ⟨value, m'', hvalue, hrun⟩ := hrun
      obtain ⟨e, he, rfl⟩ := runs_map.mp hvalue
      obtain ⟨ws, hws, -, hequals⟩ := Took.op hequals (by decide)
      obtain ⟨xs, hxs, he⟩ := gives_yieldOrStar h he
      refine hbuilt _ [first, note, e] (hts.trans ((hus.trans hvs).trans (hws.trans hxs))) ?_
        (fun _ => rfl) hrun
      simpa using hspread.append (hequals.append he.spread)
    · rw [if_neg Bool.false_ne_true, runs_pure_bind] at hrun
      exact hbuilt _ _ hall hspread (fun _ => rfl) hrun
  rw [if_neg Bool.false_ne_true, runs_eat_bind] at hrun
  rcases hrun with ⟨hop, hrun⟩ | ⟨-, hrun⟩
  · rw [if_pos rfl, runs_bind] at hrun
    obtain ⟨value, m', hvalue, hrun⟩ := hrun
    obtain ⟨us, hus, -, hop⟩ := Took.anyOp hop (by decide)
    obtain ⟨vs, hvs, hvalue⟩ := gives_yieldOrStar h hvalue
    exact hbuilt _ _ (hts.trans (hus.trans hvs)) (hfirst.spread.append (hop.append hvalue.spread))
      (fun _ => rfl) hrun
  rw [if_neg Bool.false_ne_true, runs_ask_bind, runs_ite] at hrun
  rcases hrun with ⟨-, hrun⟩ | ⟨-, hrun⟩
  · rw [runs_bind] at hrun
    obtain ⟨⟨targets, value⟩, m', hassign, hrun⟩ := hrun
    obtain ⟨more, hmore, hparts⟩ := runs_bind_pure.mp hassign
    obtain ⟨us, hus, hmore⟩ := (gives_yieldOrStar h).loopItems (plain_isOp (by decide)) hmore
    have hchain : targets ++ [value] = first :: more := by
      obtain ⟨rfl, rfl⟩ := Prod.mk.inj hparts
      exact dropLast_append_getLastD first more
    exact hbuilt (fun span => .assign span targets value) (first :: more) (hts.trans hus)
      (hfirst.spread.append hmore) (fun _ => hchain) hrun
  · exact hbuilt _ _ (hts.trans (.refl _)) (hfirst.spread.append .nil) (fun _ => rfl) hrun

/-- An operand with a second one after a word. -/
theorem gives_optional {p : Parser Expr} (h : Gives p) {test : Cursor → Bool}
    (htest : Plain test) : GivesAll id (do
      let first ← p
      if ← eat test then return [first, ← p] else return [first]) := by
  intro c es d hrun
  rw [runs_bind] at hrun
  obtain ⟨first, m, hfirst, hrun⟩ := hrun
  obtain ⟨ts, hts, hfirst⟩ := h hfirst
  rw [runs_bind] at hrun
  obtain ⟨taken, m', htaken, hrun⟩ := hrun
  obtain ⟨us, hus, hbarren⟩ := gives_eat htest htaken
  rw [runs_ite] at hrun
  rcases hrun with ⟨-, hrun⟩ | ⟨-, hrun⟩
  · obtain ⟨second, hsecond, rfl⟩ := runs_bind_pure.mp hrun
    obtain ⟨vs, hvs, hsecond⟩ := h hsecond
    exact ⟨_, hts.trans (hus.trans hvs), hfirst.spread.append (hbarren.append hsecond.spread)⟩
  · obtain ⟨rfl, rfl⟩ := runs_pure.mp hrun
    exact ⟨_, hts.trans hus, hfirst.spread.append hbarren⟩

/-- The expressions after a keyword. -/
theorem gives_keywordOperands (h : inner.Sound) (word : String) :
    GivesAll id (keywordOperands inner word) := by
  have hone : ∀ {p : Parser Expr}, Gives p → GivesAll id (p >>= fun e => Pure.pure [e]) :=
    fun hp => hp.all.bindPure (fun e => [e]) fun _ => rfl
  have hnone : GivesAll id (Pure.pure ([] : List Expr)) := GivesAll.pure id rfl
  have hnames : GivesAll id (do
      let _ ← identifier
      let _ ← loopItems (·.isOp ",") identifier
      Pure.pure ([] : List Expr)) :=
    .skip barren_identifier fun _ =>
      .skip (barren_identifier.loopItems (plain_isOp (by decide))) fun _ => hnone
  unfold keywordOperands
  split
  case h_1 => exact .skip gives_ask fun _ => .ite hnone (hone (gives_starExpressions h))
  case h_2 =>
    exact .skip gives_ask fun _ => .ite hnone (gives_optional (gives_test h) (plain_isName "from"))
  case h_3 => exact hone (gives_starExpressions h)
  case h_4 => exact gives_optional (gives_test h) (plain_isOp (by decide))
  case h_5 => exact hnames
  case h_6 => exact hnames
  case h_7 => exact hnone

/-- The tokens of a simple statement, which stand on one line. -/
theorem spread_smallStatement (h : inner.Sound) {c d : Cursor} {s : Stmt}
    (hrun : Runs (smallStatement inner) c s d) :
    ∃ ts, Took c ts d ∧ Opens ts ∧ Spread ts s.exprs := by
  rw [smallStatement, runs_ask_bind] at hrun
  have hspan := barren_spanFrom c.peek.span.start
  have hname : (if c.peek.kind = .name then c.peek.text else "") ≠ "" → c.peek.kind = .name := by
    intro hne
    by_contra hkind
    exact hne (if_neg hkind)
  dsimp only at hrun
  generalize hword : (if c.peek.kind = .name then c.peek.text else "") = word at hrun hname
  rw [runs_ite] at hrun
  rcases hrun with ⟨hsimple, hrun⟩ | ⟨-, hrun⟩
  · rw [runs_bump_bind, runs_bind] at hrun
    obtain ⟨operands, m, hoperands, hrun⟩ := hrun
    obtain ⟨ts, hts, hopens, hstart⟩ :=
      Took.name (hname (by rintro rfl; exact absurd hsimple (by decide)))
    obtain ⟨us, hus, hoperands⟩ := gives_keywordOperands h word hoperands
    obtain ⟨vs, hvs, hspread⟩ := spread_of_span hspan (hts.trans hus) (hstart.append hoperands)
      (fun _ => rfl) hrun
    exact ⟨_, hvs, (hopens.append us).append vs, hspread⟩
  rw [runs_ite] at hrun
  rcases hrun with ⟨rfl, hrun⟩ | ⟨-, hrun⟩
  · rw [runs_bump_bind] at hrun
    obtain ⟨ts, hts, hopens, hstart⟩ := Took.name (hname (by decide))
    obtain ⟨us, hus, hspread⟩ := gives_importNames hspan hrun
    exact ⟨_, hts.trans hus, hopens.append us, hstart.append hspread⟩
  rw [runs_ite] at hrun
  rcases hrun with ⟨rfl, hrun⟩ | ⟨-, hrun⟩
  · rw [runs_bump_bind] at hrun
    obtain ⟨ts, hts, hopens, hstart⟩ := Took.name (hname (by decide))
    obtain ⟨us, hus, hspread⟩ := gives_importFrom hspan hrun
    exact ⟨_, hts.trans hus, hopens.append us, hstart.append hspread⟩
  rw [runs_ite] at hrun
  rcases hrun with ⟨rfl, hrun⟩ | ⟨-, hrun⟩
  · rw [runs_bind] at hrun
    obtain ⟨value, m, hvalue, hrun⟩ := hrun
    have hyield : c.isName "yield" = true := by
      have hkind := hname (by decide)
      rw [if_pos hkind] at hword
      simp [Cursor.isName, hkind, hword]
    obtain ⟨ts, parts, hts, hopens, hparts, rfl⟩ := gives_yieldExpr h hyield hvalue
    have hstands := stands_of_took (e := .compound _ parts) hts hopens hparts rfl trivial rfl
    obtain ⟨vs, hvs, hspread⟩ := spread_of_span hspan hts hstands.spread (fun _ => rfl) hrun
    exact ⟨_, hvs, hopens.append vs, hspread⟩
  · exact gives_exprStatement h hspan hrun

theorem gives_smallStatement (h : inner.Sound) :
    GivesNodes (fun s => [.statement s]) (smallStatement inner) := by
  intro c s d hrun
  obtain ⟨ts, hts, hopens, hspread⟩ := spread_smallStatement h hrun
  exact ⟨ts, hts, holds_simple hts hopens hspread (reaches_of_smallStatement hrun)⟩

/-- A token of line structure. -/
theorem bare_eatKind {kind : TokenKind} (hop : kind ≠ .op) (hend : kind ≠ .endMarker) :
    GivesNodes (fun _ => []) (eat (·.isKind kind)) := by
  intro c taken d hrun
  rcases runs_eat.mp hrun with ⟨htest, -, rfl⟩ | ⟨-, -, rfl⟩
  · obtain ⟨t, ts, hrest, hkind⟩ := (Cursor.isKind_iff hend).mp htest
    exact ⟨[t], .advance hrest,
      .of_settled (.singleton (Int.le_of_eq (Token.weight_of_ne_op (hkind ▸ hop))))⟩
  · exact ⟨[], .refl _, .of_settled trivial⟩

theorem bare_expectKind {kind : TokenKind} {fault : SyntaxFault} (hop : kind ≠ .op)
    (hend : kind ≠ .endMarker) : GivesNodes (fun _ => []) (expectKind kind fault) := by
  intro c u d hrun
  obtain ⟨htest, rfl⟩ := runs_expectKind.mp hrun
  exact bare_eatKind hop hend (runs_eat.mpr (.inl ⟨htest, rfl, rfl⟩))

theorem bare_lineEnd {fault : SyntaxFault} : GivesNodes (fun _ => []) (expectKind .newline fault) :=
  bare_expectKind nofun nofun

theorem gives_simpleStatements (h : inner.Sound) :
    GivesNodes (·.map .statement) (simpleStatements inner) := by
  intro c ss d hrun
  rw [simpleStatements, runs_bind] at hrun
  obtain ⟨first, m, hfirst, hrun⟩ := hrun
  rw [runs_bind] at hrun
  obtain ⟨more, m', hmore, hrun⟩ := hrun
  obtain ⟨ts, hts, hfirst⟩ := gives_smallStatement h hfirst
  have hlist : ∃ us, Took m us m' ∧ Holds us (more.map .statement) := by
    refine Took.of_separated (P := fun ts ss => Holds ts (ss.map .statement)) ?_ ?_ ?_
      (fun hitem => gives_smallStatement h hitem) hmore
    · exact .of_settled trivial
    · intro ts us ss rs hts hus
      rw [List.map_append]
      exact hts.append hus
    · intro t hkind htext
      exact .of_settled (.singleton (weight_le_of_text (by rw [htext]; decide)))
  obtain ⟨us, hus, hmore⟩ := hlist
  have hend : ∃ vs, Took m' vs d ∧ Holds vs [] ∧ ss = first :: more := by
    rw [runs_ask_bind] at hrun
    dsimp only at hrun
    rw [runs_ite] at hrun
    rcases hrun with ⟨-, hrun⟩ | ⟨-, hrun⟩
    · obtain ⟨rfl, rfl⟩ := runs_pure.mp hrun
      exact ⟨[], .refl _, .of_settled trivial, rfl⟩
    · obtain ⟨_, hline, rfl⟩ := runs_bind_pure.mp hrun
      obtain ⟨vs, hvs, hbare⟩ := bare_lineEnd hline
      exact ⟨vs, hvs, hbare, rfl⟩
  obtain ⟨vs, hvs, hbare, rfl⟩ := hend
  exact ⟨_, hts.trans (hus.trans hvs), by simpa using hfirst.append (hmore.append hbare)⟩

/-! ## Compound statements -/

/-- A header stands on one line and leaves no bracket open that it opens. -/
theorem settled_of_skipHeader {depth lambdas : Nat} {c d : Cursor} {u : Unit}
    (h : Runs (skipHeader depth lambdas) c u d) :
    ∃ ts, Took c ts d ∧ (∀ t ∈ ts, t.kind ≠ .newline) ∧ Settled ts ∧ balance ts + depth ≤ 0 := by
  obtain ⟨hle, hrun⟩ := h
  induction hn : c.rest.length using Nat.strongRecOn generalizing c depth lambdas with
  | ind n ih =>
    unfold skipHeader at hrun
    split at hrun
    case h_1 => cases hrun
    case h_2 t ts hrest =>
      dsimp only at hrun
      split at hrun
      case isTrue => cases hrun
      case isFalse hline =>
        split at hrun
        case isTrue hcolon =>
          cases hrun
          simp only [Bool.and_eq_true, decide_eq_true_eq] at hcolon
          have hweight : t.weight ≤ 0 := weight_le_of_text (by rw [hcolon.1.1.2]; decide)
          exact ⟨[t], .advance hrest, by simpa using hline, .singleton hweight,
            by simpa [hcolon.1.2] using hweight⟩
        case isFalse =>
          split at hrun
          case h_1 => cases hrun
          case h_2 m hm hmore =>
            cases hrun
            have hlt : c.advance.rest.length < n := by
              rw [Cursor.length_advance, ← hn, hrest, List.length_cons]
              omega
            obtain ⟨us, htook, honLine, hsettled, hbalance⟩ := ih _ hlt hm hmore rfl
            have hdepth := weight_le_depth t depth
            have hall : balance (t :: us) + depth ≤ 0 := by
              rw [balance_cons]
              omega
            exact ⟨t :: us, (Took.advance hrest).trans htook,
              List.forall_mem_cons.mpr ⟨hline, honLine⟩, ⟨by omega, hsettled⟩, hall⟩

theorem barren_skipHeader : Barren (skipHeader 0 0) := by
  intro c u d hrun
  obtain ⟨ts, hts, honLine, hsettled, -⟩ := settled_of_skipHeader hrun
  exact ⟨ts, hts, .of_settled hsettled honLine⟩

theorem gives_blockHeader (h : inner.Sound) (keyword : String) :
    GivesAll (fun header => header.2) (blockHeader inner keyword) := by
  have hnone : ∀ name : Option String, GivesAll (fun header => header.2)
      (Pure.pure (name, ([] : List Expr))) := fun _ => .pure _ rfl
  have hcondition : GivesAll (fun header => header.2) (do
      let condition ← namedTest inner
      expectOp ":"
      Pure.pure ((none : Option String), [condition])) := by
    intro c header d hrun
    rw [runs_bind] at hrun
    obtain ⟨condition, m, hcondition, hrun⟩ := hrun
    rw [runs_expectOp_bind] at hrun
    obtain ⟨hcolon, hrun⟩ := hrun
    obtain ⟨rfl, rfl⟩ := runs_pure.mp hrun
    obtain ⟨ts, hts, hcondition⟩ := gives_namedTest h hcondition
    obtain ⟨us, hus, -, hcolon⟩ := Took.op hcolon (by decide)
    exact ⟨_, hts.trans hus, hcondition.spread.append hcolon⟩
  unfold blockHeader
  split
  case h_1 | h_2 | h_3 => exact hcondition
  case h_4 | h_5 | h_6 => exact .skip (barren_expectOp (by decide)) fun _ => hnone none
  case h_7 | h_8 =>
    exact .skip barren_identifier fun name => .skip barren_skipHeader fun _ => hnone (some name)
  case h_9 | h_10 | h_11 | h_12 | h_13 => exact .skip barren_skipHeader fun _ => hnone none
  case h_14 =>
    intro c a d hrun
    simp at hrun

/-- A keyword whose header was read is the text of no bracket. -/
theorem keyword_of_blockHeader {keyword : String} {header : Option String × List Expr}
    {c d : Cursor} (hrun : Runs (blockHeader inner keyword) c header d) :
    keyword ∉ ["(", "[", "\x7b"] := by
  unfold blockHeader at hrun
  split at hrun
  case h_14 => simp at hrun
  all_goals decide

/-- Whatever the next token is, if its text is that of no bracket. -/
theorem holds_bump {c : Cursor} (h : c.peek.text ∉ ["(", "[", "\x7b"]) :
    ∃ ts, Took c ts c.advance ∧ Holds ts [] := by
  cases hrest : c.rest with
  | nil => exact ⟨[], by rw [Cursor.advance, hrest]; exact .refl c, .of_settled trivial⟩
  | cons t ts =>
    rw [Cursor.peek_of_rest hrest] at h
    exact ⟨[t], .advance hrest, .of_settled (.singleton (weight_le_of_text h))⟩

/-- The header and the statements of a clause, after its keyword. -/
theorem gives_blockClause (h : inner.Sound) (hsuite : GivesNodes (·.map .statement) inner.suite)
    {keyword : String} {start : Nat} {m d : Cursor} {s : Stmt} (hrun : Runs (do
      let (name, header) ← blockHeader inner keyword
      let body ← nested inner.suite
      return .block (← spanFrom start) keyword name header body) m s d) :
    keyword ∉ ["(", "[", "\x7b"] ∧ s.span = ⟨start, max d.lastEnd start⟩ ∧
      ∃ us, Took m us d ∧ Holds us (Node.statement s).children := by
  rw [runs_bind] at hrun
  obtain ⟨⟨name, header⟩, m₁, hheader, hrun⟩ := hrun
  dsimp only at hrun
  rw [runs_bind] at hrun
  obtain ⟨body, m₂, hbody, hrun⟩ := hrun
  obtain ⟨rfl, rfl⟩ := runs_spanFrom_pure.mp hrun
  obtain ⟨-, m₃, hinner, rfl⟩ := runs_nested.mp hbody
  obtain ⟨us, hus, hnodes⟩ := gives_blockHeader h keyword hheader
  obtain ⟨vs, hvs, hstatements⟩ := hsuite hinner
  exact ⟨keyword_of_blockHeader hheader, rfl, _, hus.trans hvs.deeper,
    hnodes.toHolds.append hstatements⟩

theorem gives_block (h : inner.Sound) (hsuite : GivesNodes (·.map .statement) inner.suite)
    {c d : Cursor} {s : Stmt} (hword : c.peek.kind = .name) (hrun : Runs (block inner) c s d) :
    ∃ ts, Took c ts d ∧ Holds ts [.statement s] := by
  obtain ⟨ts, hts, hopens, hstart⟩ := Took.name hword
  have hwrap : ∀ {us : List Token}, Took c (ts ++ us) d → Holds us (Node.statement s).children →
      s.span = ⟨c.peek.span.start, max d.lastEnd c.peek.span.start⟩ →
      ∃ ts, Took c ts d ∧ Holds ts [.statement s] := fun htook hinside hspan =>
    ⟨_, htook, .wrap (hstart.toHolds.append hinside)
      (covers_of_took htook (hopens.append _) hspan) (by rintro v ⟨⟩)⟩
  rw [block, runs_bump_bind] at hrun
  dsimp only at hrun
  rw [runs_ite] at hrun
  rcases hrun with ⟨-, hrun⟩ | ⟨-, hrun⟩
  · rw [runs_bind] at hrun
    obtain ⟨keyword, m, hkeyword, hrun⟩ := hrun
    obtain ⟨t, ht, rfl⟩ := runs_map.mp hkeyword
    obtain ⟨rfl, rfl⟩ := runs_bump.mp ht
    obtain ⟨hplain, hspan, us, hus, hinside⟩ := gives_blockClause h hsuite hrun
    obtain ⟨vs, hvs, hbare⟩ := holds_bump hplain
    exact hwrap (hts.trans (hvs.trans hus)) (hbare.append hinside) hspan
  · rw [runs_pure_bind] at hrun
    obtain ⟨-, hspan, us, hus, hinside⟩ := gives_blockClause h hsuite hrun
    exact hwrap (hts.trans hus) hinside hspan

theorem gives_decorator (h : inner.Sound) {c d : Cursor} {s : Stmt} (hsign : c.isOp "@" = true)
    (hrun : Runs (decorator inner) c s d) : ∃ ts, Took c ts d ∧ Holds ts [.statement s] := by
  rw [decorator, runs_bump_bind, runs_bind] at hrun
  obtain ⟨value, m, hvalue, hrun⟩ := hrun
  rw [runs_bind] at hrun
  obtain ⟨_, m', hline, hrun⟩ := hrun
  obtain ⟨rfl, rfl⟩ := runs_spanFrom_pure.mp hrun
  obtain ⟨ts, hts, hopens, hsign⟩ := Took.op hsign (by decide)
  obtain ⟨us, hus, hvalue⟩ := gives_namedTest h hvalue
  obtain ⟨vs, hvs, hbare⟩ := bare_lineEnd hline
  have hall := hts.trans (hus.trans hvs)
  exact ⟨_, hall, .wrap (hsign.toHolds.append (hvalue.spread.toHolds.append hbare))
    (covers_of_took hall (hopens.append _) rfl) (by rintro v ⟨⟩)⟩

theorem gives_statement (h : inner.Sound) (hsuite : GivesNodes (·.map .statement) inner.suite) :
    GivesNodes (·.map .statement) (statement inner) := by
  intro c ss d hrun
  rw [statement, runs_ask_bind, runs_ite] at hrun
  rcases hrun with ⟨hsign, hrun⟩ | ⟨-, hrun⟩
  · obtain ⟨s, hs, rfl⟩ := runs_bind_pure.mp hrun
    exact gives_decorator h hsign hs
  rw [runs_ask_bind, runs_ite] at hrun
  rcases hrun with ⟨hblock, hrun⟩ | ⟨-, hrun⟩
  · obtain ⟨s, hs, rfl⟩ := runs_bind_pure.mp hrun
    exact gives_block h hsuite (by simp [atBlock, Cursor.isKind] at hblock; exact hblock.1) hs
  · exact gives_simpleStatements h hrun

theorem GivesNodes.many {nodes : α → List Node} {item : Parser α} (h : GivesNodes nodes item)
    (test : Cursor → Bool) : GivesNodes (·.flatMap nodes) (many test item) := by
  intro c as d hrun
  rw [runs_many] at hrun
  induction hrun with
  | done => exact ⟨[], .refl _, .of_settled trivial⟩
  | last _ hitem =>
    obtain ⟨ts, hts, hnodes⟩ := h hitem
    exact ⟨ts, hts, by simpa using hnodes⟩
  | item _ hitem _ _ ih =>
    obtain ⟨ts, hts, hnodes⟩ := h hitem
    obtain ⟨us, hus, hmore⟩ := ih
    exact ⟨_, hts.trans hus, hnodes.append hmore⟩

theorem gives_suite (h : inner.Sound) (hsuite : GivesNodes (·.map .statement) inner.suite) :
    GivesNodes (·.map .statement) (suite inner) := by
  intro c ss d hrun
  rw [suite, runs_bind] at hrun
  obtain ⟨taken, m, htaken, hrun⟩ := hrun
  obtain ⟨ts, hts, hline⟩ := bare_eatKind (by decide) (by decide) htaken
  rw [runs_ite] at hrun
  rcases hrun with ⟨-, hrun⟩ | ⟨-, hrun⟩
  · rw [runs_bind] at hrun
    obtain ⟨_, m₁, hindent, hrun⟩ := hrun
    rw [runs_bind] at hrun
    obtain ⟨body, m₂, hbody, hrun⟩ := hrun
    obtain ⟨taken, hdedent, rfl⟩ := runs_bind_pure.mp hrun
    obtain ⟨us, hus, hindent⟩ := bare_expectKind (by decide) (by decide) hindent
    obtain ⟨vs, hvs, hbody⟩ := (gives_statement h hsuite).many _ hbody
    obtain ⟨ws, hws, hdedent⟩ := bare_eatKind (by decide) (by decide) hdedent
    refine ⟨_, hts.trans (hus.trans (hvs.trans hws)), ?_⟩
    simpa [List.flatMap_def, List.map_flatten] using hline.append (hindent.append (hbody.append hdedent))
  · obtain ⟨us, hus, hnodes⟩ := gives_simpleStatements h hrun
    exact ⟨_, hts.trans hus, hline.append hnodes⟩

theorem gives_statements (h : inner.Sound) (hsuite : GivesNodes (·.map .statement) inner.suite) :
    GivesNodes (·.map .statement) (statements inner) := by
  have htop : GivesNodes (·.map .statement) (topLevel inner) :=
    .after (bare_eatKind nofun nofun) fun _ => .ite (.pure _ rfl)
      (.skip gives_ask fun _ => .ite (fun _ _ _ hrun => by simp at hrun)
        (gives_statement h hsuite))
  exact (htop.many _).bindPure List.flatten fun sss => by rw [List.map_flatten, List.flatMap_def]

end Parser

theorem Level.suite_ofBudget : ∀ n, Parser.GivesNodes (·.map .statement) (ofBudget n).suite
  | 0 => fun c a d hrun => by simp [ofBudget, exhausted] at hrun
  | n + 1 => Parser.gives_suite (ofBudget_sound n) (suite_ofBudget n)

end WorkflowAudit.Script
