import WorkflowAudit.Proofs.Script.Inline
import WorkflowAudit.Proofs.Script.Parser.Outline

/-!
# Lines that assign a lambda

A line that begins with a name and `=` goes on with a value, more targets and more statements, up to
its end. Where the value is a lambda, nothing of its parameters is left in the tree: what comes after
their colon alone decides how the line goes on.
-/

namespace WorkflowAudit.Script

namespace Parser

variable {inner : Level} {x : Setting}

/-- A parser gives one value at one place. -/
theorem Runs.unique {p : Parser α} {c d e : Cursor} {a b : α} (h : Runs p c a d) (h' : Runs p c b e) :
    b = a ∧ e = d := by
  obtain ⟨hle, hrun⟩ := h
  obtain ⟨hle', hrun'⟩ := h'
  have hsame := Except.ok.inj (hrun'.symm.trans hrun)
  exact ⟨congrArg Parsed.value hsame, congrArg Parsed.cursor hsame⟩

/-- After a step of which it is known what it gives. -/
theorem Runs.bind_iff {p : Parser α} {f : α → Parser β} {c m d : Cursor} {a : α} {b : β}
    (h : Runs p c a m) : Runs (p >>= f) c b d ↔ Runs (f a) m b d := by
  rw [runs_bind]
  constructor
  · rintro ⟨a', m', h', hrun⟩
    obtain ⟨rfl, rfl⟩ := h.unique h'
    exact hrun
  · exact fun hrun => ⟨a, m, h, hrun⟩

/-- A test that the next token does not pass. -/
theorem runs_eat_of_not {test : Cursor → Bool} {c : Cursor} (h : test c = false) :
    Runs (eat test) c false c := runs_eat.mpr (.inr ⟨h, rfl, rfl⟩)

/-- The first item of a repetition, where its mark comes next. -/
theorem runs_loopItems_of_test {test : Cursor → Bool} {p : Parser α} {c d : Cursor} {as : List α}
    {t : Token} {ts : List Token} (hrest : c.rest = t :: ts) (htest : test c = true) :
    Runs (loopItems test p) c as d ↔ ∃ a m more, Runs p c.advance a m ∧
      Runs (loopItems test p) m more d ∧ as = a :: more := by
  constructor
  · intro hrun
    cases runs_loop.mp hrun with
    | done hdone => cases htest.symm.trans (hdone (by simp [hrest]))
    | stop _ _ hturn =>
      obtain ⟨_, -, hstop⟩ := runs_map.mp hturn
      cases hstop
    | item _ _ hturn hmore =>
      obtain ⟨a, hitem, hsame⟩ := runs_map.mp hturn
      cases hsame
      exact ⟨_, _, _, hitem, runs_loop.mpr hmore, rfl⟩
  · rintro ⟨a, m, more, hitem, hmore, rfl⟩
    exact runs_loop.mpr (.item hrest htest (runs_map.mpr ⟨a, hitem, rfl⟩) (runs_loop.mp hmore))

/-! ## Assignments -/

/-- An assignment whose first target and the value behind it have been read. -/
def assignFrom (inner : Level) (start : Nat) (target value : Expr) : Parser Stmt := do
  let more ← loopItems (·.isOp "=") (yieldOrStar inner)
  return .assign (← spanFrom start) (target :: value :: more).dropLast ((value :: more).getLastD target)

/-- A statement whose first expression an `=` follows. -/
theorem runs_exprStatement_of_assignment {c m d : Cursor} {target : Expr} {s : Stmt} {start : Nat}
    (htarget : Runs (starExpressions inner) c target m) (hequals : m.isOp "=" = true) :
    Runs (exprStatement inner (spanFrom start)) c s d ↔
      ∃ value m', Runs (yieldOrStar inner) m.advance value m' ∧
        Runs (assignFrom inner start target value) m' s d := by
  obtain ⟨t, ts, hrest, hkind, htext⟩ := Cursor.isOp_iff.mp hequals
  have hpeek := Cursor.peek_of_rest hrest
  have hcolon : m.isOp ":" = false := by simp [Cursor.isOp, hpeek, htext]
  have haugmented : m.isAnyOp augmentedOps = false := by
    simp [Cursor.isAnyOp, hpeek, htext, augmentedOps]
  refine htarget.bind_iff.trans ((runs_eat_of_not hcolon).bind_iff.trans ?_)
  rw [if_neg Bool.false_ne_true, (runs_eat_of_not haugmented).bind_iff, if_neg Bool.false_ne_true,
    runs_ask_bind, if_pos hequals]
  constructor
  · intro hrun
    obtain ⟨_, m', hassign, hrun⟩ := runs_bind.mp hrun
    obtain ⟨all, hloop, rfl⟩ := runs_bind_pure.mp hassign
    obtain ⟨value, n, more, hvalue, hmore, rfl⟩ := (runs_loopItems_of_test hrest hequals).mp hloop
    exact ⟨value, n, hvalue, runs_bind.mpr ⟨more, m', hmore, hrun⟩⟩
  · rintro ⟨value, n, hvalue, hrun⟩
    obtain ⟨more, m', hmore, hrun⟩ := runs_bind.mp hrun
    have hloop := (runs_loopItems_of_test hrest hequals).mpr ⟨value, n, more, hvalue, hmore, rfl⟩
    exact runs_bind.mpr ⟨_, m', runs_bind_pure.mpr ⟨_, hloop, rfl⟩, hrun⟩

/-- A line that begins with a word that is no keyword and goes on with an `=`. -/
theorem runs_simpleStatements_of_assignment {c m d : Cursor} {target : Expr} {ss : List Stmt}
    (hname : c.peek.kind = .name)
    (hword : c.peek.text ∉ simpleKeywords ++ ["import", "from", "yield"])
    (htarget : Runs (starExpressions inner) c target m) (hequals : m.isOp "=" = true) :
    Runs (simpleStatements inner) c ss d ↔ ∃ value m', Runs (yieldOrStar inner) m.advance value m' ∧
      Runs (assignFrom inner c.peek.span.start target value >>= lineFrom inner) m' ss d := by
  have hsmall : ∀ {s e}, Runs (smallStatement inner) c s e ↔
      Runs (exprStatement inner (spanFrom c.peek.span.start)) c s e := by
    intro s e
    simp only [List.mem_append, not_or] at hword
    simp only [List.mem_cons, List.not_mem_nil, or_false, not_or] at hword
    rw [smallStatement, runs_ask_bind]
    simp [hname, hword]
  have hline : simpleStatements inner = smallStatement inner >>= lineFrom inner := rfl
  simp only [hline, runs_bind, hsmall, runs_exprStatement_of_assignment htarget hequals]
  constructor
  · rintro ⟨s, e, ⟨value, m', hvalue, hassign⟩, hrun⟩
    exact ⟨value, m', hvalue, s, e, hassign, hrun⟩
  · rintro ⟨value, m', hvalue, s, e, hassign, hrun⟩
    exact ⟨s, e, ⟨value, m', hvalue, hassign⟩, hrun⟩

/-! ## Lambdas as values -/

/-- A lambda whose parameters have been skipped. -/
def lambdaFrom (inner : Level) (start : Nat) : Parser Expr := do
  let body ← nested inner.test
  return .closure (← spanFrom start) [body]

/-- One expression that has been read, or several separated by commas. -/
def tupleFrom (inner : Level) (start : Nat) (first : Expr) : Parser Expr := do
  if ← ask (·.isOp ",") then
    let more ← separated "," (fun c => !canStartExpr c) (starOrTest inner)
    return .tuple (← spanFrom start) (first :: more)
  else return first

/-- A lambda is read from its body on, wherever the colon of its parameters is found. -/
theorem runs_lambda_of_skip {c d : Cursor} {e : Expr} {l r : Token} {hs more : List Token}
    (hrest : c.rest = l :: (hs ++ r :: more)) (hskip : hs.foldlM skip? 0 = some 0)
    (hcolon : r.isAnyOp [":"] = true) : Runs (lambda inner) c e d ↔
      Runs (lambdaFrom inner l.span.start) ⟨more, c.endAt, r.span.stop, c.depth⟩ e d := by
  have hskipped : Runs (skipParameters 0) c.advance () _ :=
    runs_skipParameters.mpr ⟨hs, r, more, Cursor.rest_advance hrest, hskip, hcolon, rfl⟩
  have hop : r.kind = .op := of_decide_eq_true (Bool.and_eq_true_iff.mp hcolon).1
  have hend : Cursor.advance ⟨r :: more, c.advance.endAt, stopAfter c.advance.lastEnd hs,
      c.advance.depth⟩ = ⟨more, c.endAt, r.span.stop, c.depth⟩ := by
    simp [Cursor.advance, hrest, hop, TokenKind.isLexical]
  rw [lambda, runs_bump_bind, hskipped.bind_iff, runs_bump_bind, hend, Cursor.peek_of_rest hrest]
  rfl

/-- A value that begins with a lambda. -/
theorem runs_yieldOrStar_of_lambda {c d : Cursor} {e : Expr} {l r : Token} {hs more : List Token}
    (hrest : c.rest = l :: (hs ++ r :: more)) (hword : l.isWord "lambda" = true)
    (hskip : hs.foldlM skip? 0 = some 0) (hcolon : r.isAnyOp [":"] = true) :
    Runs (yieldOrStar inner) c e d ↔
      Runs (lambdaFrom inner l.span.start >>= tupleFrom inner l.span.start)
        ⟨more, c.endAt, r.span.stop, c.depth⟩ e d := by
  have hpeek := Cursor.peek_of_rest hrest
  obtain ⟨hkind, htext⟩ : l.kind = .name ∧ l.text = "lambda" := by simpa [Token.isWord] using hword
  have hyield : c.isName "yield" = false := by simp [Cursor.isName, hpeek, htext]
  have hstar : c.isOp "*" = false := by simp [Cursor.isOp, hpeek, hkind]
  have hlambda : c.isName "lambda" = true := by simp [Cursor.isName, hpeek, hkind, htext]
  have hfirst : ∀ {first m}, Runs (starOrTest inner) c first m ↔
      Runs (lambdaFrom inner l.span.start) ⟨more, c.endAt, r.span.stop, c.depth⟩ first m := by
    intro first m
    rw [starOrTest, runs_ask_bind, hstar, if_neg Bool.false_ne_true, test, runs_ask_bind,
      if_pos hlambda, runs_lambda_of_skip hrest hskip hcolon]
  have hstart : starExpressions inner = here >>= fun start => starOrTest inner >>= tupleFrom inner start :=
    rfl
  rw [yieldOrStar, runs_ask_bind, hyield, if_neg Bool.false_ne_true, hstart, runs_here_bind, hpeek]
  simp only [runs_bind, hfirst]

theorem outlines_lambdaFrom (h : inner.Outlined) (start : Nat) : Outlines (lambdaFrom inner start) :=
  h.test.nested.bind fun _ => .bind .spanFrom fun _ => .pure

theorem outlines_tupleFrom (h : inner.Outlined) (start : Nat) (first : Expr) :
    Outlines (tupleFrom inner start first) :=
  Outlines.ask.bind fun _ => .ite
    (((outlines_starOrTest h).separated (joins_isOp (by decide))).bind fun _ =>
      .bind .spanFrom fun _ => .pure) .pure

theorem tracks_lambdaFrom (h : inner.Tracked x) (start : Nat) :
    Moves x (lambdaFrom inner start) (lambdaFrom inner (x.place start)) :=
  h.test.nested.bind fun _ => tracks_node fun _ => Expr.move_closure ..

theorem tracks_tupleFrom (h : inner.Tracked x) (start : Nat) (first : Expr) :
    Moves x (tupleFrom inner start first)
      (tupleFrom inner (x.place start) (first.move x.place)) :=
  (tracks_ask (stable_isOp ",")).after fun _ => .ite
    (((tracks_starOrTest h).separated "," (stable_canStartExpr.map not)).bind fun _ =>
      tracks_node fun _ => Expr.move_tuple ..) (.pure rfl)

theorem tracks_assignFrom (h : inner.Tracked x) (start : Nat) (target value : Expr) :
    Tracks x (Stmt.move x.place) (assignFrom inner start target value)
      (assignFrom inner (x.place start) (target.move x.place) (value.move x.place)) :=
  ((tracks_yieldOrStar h).loopItems (stable_isOp "=")).bind fun more => tracks_node fun _ => by
    rw [Stmt.move_assign]
    simp [List.map_dropLast, List.getLastD_eq_getLast?, List.getLast?_cons]

theorem Outlines.oneLine {p : Parser α} (h : Outlines p) : OneLine p := by
  intro c a d hrun
  obtain ⟨ts, htook, hts⟩ := h hrun
  exact ⟨ts, htook, hts.onLine⟩

theorem oneLine_assignFrom (h : inner.Sound) (start : Nat) (target value : Expr) :
    OneLine (assignFrom inner start target value) := by
  intro c s d hrun
  obtain ⟨more, m, hmore, hrun⟩ := runs_bind.mp hrun
  obtain ⟨rfl, rfl⟩ := runs_spanFrom_pure.mp hrun
  obtain ⟨ts, htook, hts⟩ := (gives_yieldOrStar h).loopItems (plain_isOp (by decide)) hmore
  exact ⟨ts, htook, hts.onLine⟩

/-- What comes behind an assigned value: another target, another statement or the end of the line. -/
theorem next_of_assignFrom {start : Nat} {target value : Expr} {c d : Cursor} {line : List Stmt}
    (hrun : Runs (assignFrom inner start target value >>= lineFrom inner) c line d)
    (hkinds : ∀ t ∈ c.rest, t.kind ≠ .endMarker) :
    ∀ t ∈ c.rest.head?, t.kind = .newline ∨ t.isAnyOp ["=", ";"] = true := by
  intro t ht
  obtain ⟨ts, hrest⟩ := List.head?_eq_some_iff.mp ht
  have hpeek := Cursor.peek_of_rest hrest
  have hop : ∀ {text : String}, text ∈ ["=", ";"] → c.isOp text = true →
      t.isAnyOp ["=", ";"] = true := by
    intro text htext hop
    obtain ⟨hkind, rfl⟩ := by simpa [Cursor.isOp, hpeek] using hop
    simpa [Token.isAnyOp, hkind] using htext
  have hloop : ∀ {test : Cursor → Bool} {α : Type} {turn : Token → Parser (Turn α)} {as m},
      Runs (loop test turn) c as m → test c = true ∨ m = c := by
    intro test α turn as m hrun
    cases runs_loop.mp hrun with
    | done => exact .inr rfl
    | stop _ hpass | item _ hpass => exact .inl hpass
  obtain ⟨s, m, hassign, hline⟩ := runs_bind.mp hrun
  obtain ⟨more, m', hmore, hnode⟩ := runs_bind.mp hassign
  obtain ⟨-, rfl⟩ := runs_spanFrom_pure.mp hnode
  rcases hloop hmore with hequals | rfl
  · exact .inr (hop (by simp) hequals)
  obtain ⟨others, m', hothers, hend⟩ := runs_bind.mp hline
  rcases hloop hothers with hsemicolon | rfl
  · exact .inr (hop (by simp) hsemicolon)
  rw [runs_ask_bind, runs_ite] at hend
  rcases hend with ⟨hmarker, -⟩ | ⟨-, hend⟩
  · rw [Cursor.isKind, hpeek] at hmarker
    exact absurd (of_decide_eq_true hmarker) (hkinds t (by simp [hrest]))
  · obtain ⟨_, _, hfeed, -⟩ := runs_bind.mp hend
    have hline := (runs_expectKind.mp hfeed).1
    rw [Cursor.isKind, hpeek] at hline
    exact .inl (of_decide_eq_true hline)

/-- A line that assigns a lambda, from the body of the lambda on. -/
def lambdaLine (inner : Level) (start word : Nat) (target : Expr) : Parser (List Stmt) := do
  let first ← lambdaFrom inner word
  let value ← tupleFrom inner word first
  let s ← assignFrom inner start target value
  lineFrom inner s

theorem carries_lambdaLine (h : inner.Tracked x) (h' : inner.Outlined) (start word : Nat)
    (target : Expr) : Carries x Cursor.OnLine Cursor.Anywhere (List.map (Stmt.move x.place))
      (lambdaLine inner start word target)
      (lambdaLine inner (x.place start) (x.place word) (target.move x.place)) :=
  (Carries.of_tracks (tracks_lambdaFrom h word) (outlines_lambdaFrom h' word).oneLine).bind
    fun first => (Carries.of_tracks (tracks_tupleFrom h word first)
      (outlines_tupleFrom h' word first).oneLine).bind fun value =>
        (Carries.of_tracks (tracks_assignFrom h start target value)
          (oneLine_assignFrom h.sound start target value)).bind fun s => carries_lineFrom h s

/-! ## The first target -/

/-- The first two tokens of a text that assigns to `x`. -/
def targetTokens : List Token := [⟨.name, ⟨0, 1⟩, "x"⟩, ⟨.op, ⟨2, 3⟩, "="⟩]

/-- The first target is read in the same way whatever is assigned to it. -/
theorem exists_runs_target {c : Cursor} {more : List Token} (hrest : c.rest = targetTokens ++ more)
    (hlast : c.lastEnd = 0) (hdepth : c.depth = 0) :
    ∃ d, Runs (starExpressions (Level.ofBudget levelLimit)) c (.name ⟨0, 1⟩ "x") d ∧
      d.rest = targetTokens.tail ++ more ∧ d.lastEnd = 1 ∧ d.depth = 0 := by
  let feed : Token := ⟨.newline, ⟨3, 4⟩, "\n"⟩
  have halone : Runs (starExpressions (Level.ofBudget levelLimit))
      ⟨targetTokens ++ [feed], 4, 0, 0⟩ (.name ⟨0, 1⟩ "x") ⟨targetTokens.tail ++ [feed], 4, 1, 0⟩ :=
    ⟨by decide, rfl⟩
  have hembeds : Cursor.Embeds ⟨id, monotone_id, [feed], more⟩ ⟨targetTokens ++ [feed], 4, 0, 0⟩ c := by
    refine ⟨⟨targetTokens, targetTokens, rfl, ?_, hrest, by decide⟩, by simp [hlast], hdepth, ?_⟩
    · exact List.forall₂_same.mpr fun t _ => ⟨rfl, rfl, fun _ => rfl⟩
    · simp [Lined, Continues, targetTokens, feed, TokenKind.isLexical]
  obtain ⟨d, hrun, hd⟩ := tracks_starExpressions (Level.ofBudget_tracked levelLimit) trivial hembeds
    halone (Nat.lt_succ_self 1)
  refine ⟨d, hrun, ?_, by simpa using hd.lastEnd, hd.depth⟩
  obtain ⟨ts, htook, -⟩ := gives_starExpressions (Level.ofBudget_sound levelLimit) hrun
  have hsplit : ts ++ d.rest = [⟨.name, ⟨0, 1⟩, "x"⟩] ++ (targetTokens.tail ++ more) :=
    htook.rest.symm.trans hrest
  have hlength : d.rest.length + 1 = 2 + more.length := hd.length_rest
  exact List.append_inj_right' hsplit (by simp [targetTokens]; omega)

/-! ## Whole scripts -/

/-- A script that begins with an assignment to `x`. -/
theorem runs_statements_of_target {c : Cursor} {more : List Token}
    (hrest : c.rest = targetTokens ++ more) (hlast : c.lastEnd = 0) (hdepth : c.depth = 0) :
    ∃ n, ∀ ss d, Runs (statements (Level.ofBudget levelLimit)) c ss d ↔ ∃ value m line e rest,
      Runs (yieldOrStar (Level.ofBudget levelLimit)) ⟨more, n, 3, 0⟩ value m ∧
      Runs (assignFrom (Level.ofBudget levelLimit) 0 (.name ⟨0, 1⟩ "x") value >>=
        lineFrom (Level.ofBudget levelLimit)) m line e ∧
      Runs (statements (Level.ofBudget levelLimit)) e rest d ∧ ss = line ++ rest := by
  obtain ⟨m, htarget, hm, -, hdepth'⟩ := exists_runs_target hrest hlast hdepth
  have hpeek : c.peek = ⟨.name, ⟨0, 1⟩, "x"⟩ := Cursor.peek_of_rest hrest
  have hequals : m.isOp "=" = true := Cursor.isOp_iff.mpr ⟨_, _, hm, rfl, rfl⟩
  have hadvance : m.advance = ⟨more, m.endAt, 3, 0⟩ := by
    rw [← hdepth', Cursor.advance, hm]
    rfl
  have htext : c.AtText := by rw [Cursor.AtText, hpeek]; rfl
  have hstatement : ∀ {line e}, Runs (statement (Level.ofBudget levelLimit)) c line e ↔
      Runs (simpleStatements (Level.ofBudget levelLimit)) c line e := by
    intro line e
    have hop : c.isOp "@" = false := by simp [Cursor.isOp, hpeek]
    have hblock : atBlock c = false := by simp [atBlock, hpeek, blockKeywords]
    simp [statement, hop, hblock]
  refine ⟨m.endAt, fun ss d => ?_⟩
  simp only [runs_statements_of_text (Level.ofBudget_sound levelLimit) htext, hstatement,
    runs_simpleStatements_of_assignment (by rw [hpeek]) (by rw [hpeek]; decide) htarget hequals,
    hadvance, hpeek]
  constructor
  · rintro ⟨line, e, rest, ⟨value, k, hvalue, hline⟩, hmore, rfl⟩
    exact ⟨value, k, line, e, rest, hvalue, hline, hmore, rfl⟩
  · rintro ⟨value, k, line, e, rest, hvalue, hline, hmore, rfl⟩
    exact ⟨line, e, rest, ⟨value, k, hvalue, hline⟩, hmore, rfl⟩

/-- A script that begins with a lambda assigned to `x`, from the body of the lambda on. -/
theorem runs_statements_of_lambda {c : Cursor} {l r : Token} {hs more : List Token}
    (hrest : c.rest = targetTokens ++ l :: (hs ++ r :: more)) (hlast : c.lastEnd = 0)
    (hdepth : c.depth = 0) (hword : l.isWord "lambda" = true) (hskip : hs.foldlM skip? 0 = some 0)
    (hcolon : r.isAnyOp [":"] = true) :
    ∃ n, ∀ ss d, Runs (statements (Level.ofBudget levelLimit)) c ss d ↔ ∃ line e rest,
      Runs (lambdaLine (Level.ofBudget levelLimit) 0 l.span.start (.name ⟨0, 1⟩ "x"))
        ⟨more, n, r.span.stop, 0⟩ line e ∧
      Runs (statements (Level.ofBudget levelLimit)) e rest d ∧ ss = line ++ rest := by
  obtain ⟨n, hall⟩ := runs_statements_of_target hrest hlast hdepth
  refine ⟨n, fun ss d => (hall ss d).trans ?_⟩
  simp only [runs_yieldOrStar_of_lambda (c := ⟨l :: (hs ++ r :: more), n, 3, 0⟩) rfl hword hskip hcolon]
  constructor
  · rintro ⟨value, m, line, e, rest, hvalue, hline, hmore, rfl⟩
    obtain ⟨first, m', hfirst, hvalue⟩ := runs_bind.mp hvalue
    refine ⟨line, e, rest, runs_bind.mpr ⟨first, m', hfirst, ?_⟩, hmore, rfl⟩
    exact runs_bind.mpr ⟨value, m, hvalue, hline⟩
  · rintro ⟨line, e, rest, hwhole, hmore, rfl⟩
    obtain ⟨first, m', hfirst, hline⟩ := runs_bind.mp hwhole
    obtain ⟨value, m, hvalue, hline⟩ := runs_bind.mp hline
    exact ⟨value, m, line, e, rest, runs_bind.mpr ⟨first, m', hfirst, hvalue⟩, hline, hmore, rfl⟩

/-! ## Statements that are expressions -/

/-- A statement that is an expression and no more. -/
theorem runs_exprStatement_of_expr {c d : Cursor} {s : Span} {e : Expr} {start : Nat}
    (hrun : Runs (exprStatement inner (spanFrom start)) c (.expr s e) d) :
    Runs (starExpressions inner) c e d ∧ s = ⟨start, max d.lastEnd start⟩ := by
  obtain ⟨first, m, hfirst, hrun⟩ := runs_bind.mp hrun
  rw [eatOp, runs_eat_bind] at hrun
  rcases hrun with ⟨-, hrun⟩ | ⟨-, hrun⟩
  · simp at hrun
  rw [if_neg Bool.false_ne_true, runs_eat_bind] at hrun
  rcases hrun with ⟨-, hrun⟩ | ⟨-, hrun⟩
  · simp at hrun
  rw [if_neg Bool.false_ne_true, runs_ask_bind, runs_ite] at hrun
  rcases hrun with ⟨-, hrun⟩ | ⟨-, hrun⟩
  · simp at hrun
  · obtain ⟨hsame, rfl⟩ := runs_spanFrom_pure.mp hrun
    cases hsame
    exact ⟨hfirst, rfl⟩

theorem runs_smallStatement_of_expr {c d : Cursor} {s : Span} {e : Expr}
    (hrun : Runs (smallStatement inner) c (.expr s e) d) :
    Runs (yieldOrStar inner) c e d ∧ s = ⟨c.peek.span.start, max d.lastEnd c.peek.span.start⟩ := by
  rw [smallStatement, runs_ask_bind] at hrun
  simp only [runs_ite] at hrun
  obtain ⟨-, hrun⟩ | ⟨-, ⟨-, hrun⟩ | ⟨-, ⟨-, hrun⟩ | ⟨-, ⟨hword, hrun⟩ | ⟨hword, hrun⟩⟩⟩⟩ := hrun
  · simp at hrun
  · simp [importNames] at hrun
  · simp [importFrom] at hrun
  · have hyield : c.isName "yield" = true := by
      by_cases hname : c.peek.kind = .name
      · simpa [Cursor.isName, hname] using hword
      · simp [hname] at hword
    obtain ⟨value, m, hvalue, hrun⟩ := runs_bind.mp hrun
    obtain ⟨hsame, rfl⟩ := runs_spanFrom_pure.mp hrun
    cases hsame
    exact ⟨by simpa [yieldOrStar, hyield] using hvalue, rfl⟩
  · have hyield : c.isName "yield" = false := by
      rw [Bool.eq_false_iff]
      intro hyield
      obtain ⟨hname, htext⟩ := Bool.and_eq_true_iff.mp hyield
      simp [of_decide_eq_true hname, of_decide_eq_true htext] at hword
    obtain ⟨hvalue, hspan⟩ := runs_exprStatement_of_expr hrun
    exact ⟨by simpa [yieldOrStar, hyield] using hvalue, hspan⟩

/-- A script that is one expression is read from its first token on. -/
theorem exists_of_expr {c d : Cursor} {s : Span} {e : Expr} (h : inner.Sound) (htext : c.AtText)
    (hrun : Runs (statements inner) c [.expr s e] d) : ∃ m, Runs (yieldOrStar inner) c e m ∧
      s = ⟨c.peek.span.start, max m.lastEnd c.peek.span.start⟩ := by
  obtain ⟨line, m, more, hline, -, hsame⟩ := (runs_statements_of_text h htext).mp hrun
  rw [statement, runs_ask_bind, runs_ite, runs_ask_bind, runs_ite] at hline
  obtain ⟨-, hline⟩ | ⟨-, ⟨-, hline⟩ | ⟨-, hline⟩⟩ := hline
  · obtain ⟨s', hs, rfl⟩ := runs_bind_pure.mp hline
    obtain ⟨rfl, -⟩ := List.cons.inj hsame
    simp [decorator] at hs
  · obtain ⟨s', hs, rfl⟩ := runs_bind_pure.mp hline
    obtain ⟨rfl, -⟩ := List.cons.inj hsame
    obtain ⟨_, _, _, -, -, hblock⟩ := runs_block.mp hs
    cases hblock
  · obtain ⟨first, m', hfirst, hline⟩ := runs_bind.mp hline
    obtain ⟨others, m'', -, hline⟩ := runs_bind.mp hline
    have hcons : line = first :: others := by
      rw [runs_ask_bind, runs_ite] at hline
      rcases hline with ⟨-, hline⟩ | ⟨-, hline⟩
      · exact (runs_pure.mp hline).1
      · obtain ⟨_, _, -, hline⟩ := runs_bind.mp hline
        exact (runs_pure.mp hline).1
    obtain ⟨rfl, -⟩ := List.cons.inj (hsame.trans (congrArg (· ++ more) hcons))
    exact ⟨m', runs_smallStatement_of_expr hfirst⟩

end Parser

end WorkflowAudit.Script
