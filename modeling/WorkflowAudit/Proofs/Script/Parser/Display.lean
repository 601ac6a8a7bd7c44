import WorkflowAudit.Proofs.Script.Parser.Utterance

/-!
# Displays, calls and subscripts stand on the tokens they were read from

What stands between brackets, and with it the expressions of every level.
-/

namespace WorkflowAudit.Script

namespace Parser

variable {inner : Level}

/-! ## Displays -/

theorem gives_comprehensionTarget (h : inner.Sound) :
    Gives (comprehensionTarget inner) :=
  .askIte (gives_starOrTest h) (gives_binary h)

theorem plain_atComprehension : Plain atComprehension :=
  .or (plain_isName "for") (.and (plain_isName "async") _)

/-- One clause of a comprehension, after its first word. -/
theorem gives_clause (h : inner.Sound) {turn : Turn (List Expr)} {c d : Cursor}
    (hrun : Runs (do
      let first ← comprehensionTarget inner
      let targets ← separated "," (·.isName "in") (comprehensionTarget inner)
      expectWord "in"
      let source ← orTest inner
      let conditions ← loopItems (·.isName "if") (orTest inner)
      return .item (first :: targets ++ source :: conditions)) c turn d) :
    ∃ ts, Took c ts d ∧ Spread ts (turnParts id turn) := by
  rw [runs_bind] at hrun
  obtain ⟨first, m₁, hfirst, hrun⟩ := hrun
  rw [runs_bind] at hrun
  obtain ⟨targets, m₂, htargets, hrun⟩ := hrun
  rw [runs_bind] at hrun
  obtain ⟨_, m₃, hword, hrun⟩ := hrun
  obtain ⟨hin, rfl⟩ := runs_expectWord.mp hword
  rw [runs_bind] at hrun
  obtain ⟨source, m₄, hsource, hrun⟩ := hrun
  obtain ⟨conditions, hconditions, rfl⟩ := runs_bind_pure.mp hrun
  obtain ⟨ts, hts, hfirst⟩ := gives_comprehensionTarget h hfirst
  obtain ⟨us, hus, htargets⟩ := (gives_comprehensionTarget h).separated (by decide) _ htargets
  obtain ⟨vs, hvs, -, hin⟩ := Took.word hin
  obtain ⟨ws, hws, hsource⟩ := gives_orTest h hsource
  obtain ⟨xs, hxs, hconditions⟩ := (gives_orTest h).loopItems (plain_isName "if") hconditions
  refine ⟨_, hts.trans (hus.trans (hvs.trans (hws.trans hxs))), ?_⟩
  have hall := hfirst.spread.append (htargets.append (hin.append
    (hsource.spread.append hconditions)))
  simpa [turnParts] using hall

theorem gives_comprehension (h : inner.Sound) :
    GivesAll id (comprehension inner) := by
  intro c clauses d hrun
  obtain ⟨turns, hloop, rfl⟩ := runs_bind_pure.mp hrun
  rw [id, ← List.flatMap_id]
  refine GivesAll.loop plain_atComprehension (fun {c t ts turn d} hrest htest hturn => ?_) hloop
  by_cases hasync : t.text = "async"
  · rw [if_pos hasync, runs_bump_bind] at hturn
    obtain ⟨vs, hvs, -, hfor⟩ := Took.word (second_atComprehension hrest htest hasync)
    obtain ⟨ws, hws, hclause⟩ := gives_clause h hturn
    exact ⟨_, hvs.trans hws, hfor.append hclause⟩
  · rw [if_neg hasync] at hturn
    exact gives_clause h hturn

/-- A node from an opening bracket to the closing one that comes next. -/
theorem stands_closed {start m : Cursor} {l : Token} {ts : List Token} {closing : String}
    {e : Expr} (hl : l.kind = .op) (hweight : l.weight = 1) (htook : Took start (l :: ts) m)
    (hts : Spread ts e.children) (hclose : m.isOp closing = true)
    (hclosing : closing ∈ [")", "]", "\x7d"])
    (hspan : e.span = ⟨start.peek.span.start, max m.advance.lastEnd start.peek.span.start⟩)
    (hfits : ∀ ts, Fits ts e) (hplain : e.asCall? = none) :
    ∃ us, Took m us m.advance ∧ Stands (l :: (ts ++ us)) e := by
  obtain ⟨r, rs, hrest, hkind, htext⟩ := Cursor.isOp_iff.mp hclose
  have hr := Took.advance hrest
  exact ⟨[r], hr, stands_of_took (htook.trans hr) (opens_cons (by rw [hl]; rfl) _)
    (hts.bracketed hweight (weight_closing hkind (htext ▸ hclosing))) hspan (hfits _) hplain⟩

/-- The items of a display after its first one, and its closing bracket. -/
theorem gives_display (h : inner.Sound) {closing : String}
    (hclosing : closing ∈ [")", "]", "\x7d"]) {build : Span → List Expr → Expr}
    (hbuild : Builds build) {start c d : Cursor} {l : Token} {ts : List Token} {first e : Expr}
    (hl : l.kind = .op) (hweight : l.weight = 1) (htook : Took start (l :: ts) c)
    (hts : Spread ts [first])
    (hrun : Runs (display inner closing start.peek.span.start first build) c e d) :
    ∃ us, Took c us d ∧ Stands (l :: (ts ++ us)) e := by
  rw [display, runs_ask_bind, runs_ite] at hrun
  rcases hrun with ⟨-, hrun⟩ | ⟨-, hrun⟩
  · rw [runs_bind] at hrun
    obtain ⟨clauses, m, hclauses, hrun⟩ := hrun
    rw [runs_expectOp_bind] at hrun
    obtain ⟨hclose, hrun⟩ := hrun
    obtain ⟨rfl, rfl⟩ := runs_spanFrom_pure.mp hrun
    obtain ⟨us, hus, hclauses⟩ := gives_comprehension h hclauses
    obtain ⟨vs, hvs, hstands⟩ := stands_closed (e := .closure _ _) hl hweight (htook.trans hus)
      (hts.append hclauses) hclose hclosing rfl (fun _ => trivial) rfl
    exact ⟨_, hus.trans hvs, by simpa using hstands⟩
  · rw [runs_bind] at hrun
    obtain ⟨more, m, hmore, hrun⟩ := hrun
    rw [runs_expectOp_bind] at hrun
    obtain ⟨hclose, hrun⟩ := hrun
    obtain ⟨rfl, rfl⟩ := runs_spanFrom_pure.mp hrun
    obtain ⟨us, hus, hmore⟩ := (gives_starOrNamed h).separated (by decide) _ hmore
    obtain ⟨vs, hvs, hstands⟩ := stands_closed (e := build _ _) hl hweight (htook.trans hus)
      (by rw [hbuild.children]; exact hts.append hmore) hclose hclosing (hbuild.span _ _)
      (hbuild.fits _ _) (hbuild.plain _ _)
    exact ⟨_, hus.trans hvs, by simpa using hstands⟩

theorem gives_paren (h : inner.Sound) : GivesBracketed (paren inner) := by
  intro start c l e d htook hl hweight hrun
  rw [paren, eatOp, runs_eat_bind] at hrun
  rcases hrun with ⟨hclose, hrun⟩ | ⟨-, hrun⟩
  · rw [if_pos rfl] at hrun
    obtain ⟨rfl, rfl⟩ := runs_spanFrom_pure.mp hrun
    exact stands_closed (e := .tuple _ []) hl hweight htook .nil hclose (by simp) rfl
      (fun _ => trivial) rfl
  rw [if_neg Bool.false_ne_true, runs_ask_bind, runs_ite] at hrun
  rcases hrun with ⟨hyield, hrun⟩ | ⟨-, hrun⟩
  · rw [runs_bind] at hrun
    obtain ⟨value, m, hvalue, hrun⟩ := hrun
    rw [runs_expectOp_bind] at hrun
    obtain ⟨hclose, hrun⟩ := hrun
    obtain ⟨rfl, rfl⟩ := runs_spanFrom_pure.mp hrun
    obtain ⟨ts, parts, hts, -, hparts, rfl⟩ := gives_yieldExpr h hyield hvalue
    obtain ⟨us, hus, hstands⟩ := stands_closed (e := .compound _ parts) hl hweight
      (htook.trans hts) hparts hclose (by simp) rfl (fun _ => trivial) rfl
    exact ⟨_, hts.trans hus, hstands⟩
  · rw [runs_bind] at hrun
    obtain ⟨first, m, hfirst, hrun⟩ := hrun
    obtain ⟨ts, hts, hfirst⟩ := gives_starOrNamed h hfirst
    rw [runs_ask_bind, runs_ite] at hrun
    rcases hrun with ⟨-, hrun⟩ | ⟨-, hrun⟩
    · obtain ⟨us, hus, hstands⟩ := gives_display h (by simp)
        builds_tuple hl hweight (htook.trans hts) hfirst.spread hrun
      exact ⟨_, hts.trans hus, hstands⟩
    · rw [runs_expectOp_bind] at hrun
      obtain ⟨hclose, hrun⟩ := hrun
      obtain ⟨rfl, rfl⟩ := runs_pure.mp hrun
      obtain ⟨r, rs, hrest, hkind, htext⟩ := Cursor.isOp_iff.mp hclose
      exact ⟨_, hts.trans (.advance hrest),
        hfirst.parens hweight (weight_closing hkind (by simp [htext])) hl hkind⟩

theorem gives_list (h : inner.Sound) : GivesBracketed (list inner) := by
  intro start c l e d htook hl hweight hrun
  rw [list, eatOp, runs_eat_bind] at hrun
  rcases hrun with ⟨hclose, hrun⟩ | ⟨-, hrun⟩
  · rw [if_pos rfl] at hrun
    obtain ⟨rfl, rfl⟩ := runs_spanFrom_pure.mp hrun
    exact stands_closed (e := .list _ []) hl hweight htook .nil hclose (by simp) rfl
      (fun _ => trivial) rfl
  · rw [if_neg Bool.false_ne_true, runs_bind] at hrun
    obtain ⟨first, m, hfirst, hrun⟩ := hrun
    obtain ⟨ts, hts, hfirst⟩ := gives_starOrNamed h hfirst
    obtain ⟨us, hus, hstands⟩ := gives_display h (by simp)
      builds_list hl hweight (htook.trans hts)
      hfirst.spread hrun
    exact ⟨_, hts.trans hus, hstands⟩

/-- The value of an entry whose key has been read. -/
theorem gives_dictValue (h : inner.Sound) {key : Option Expr}
    {item : DictItem Expr} {c d : Cursor} (hrun : Runs (dictValue inner key) c item d) :
    ∃ ts, Took c ts d ∧ item.key = key ∧ Spread ts [item.value] := by
  cases key with
  | some k =>
    rw [dictValue, runs_expectOp_bind] at hrun
    obtain ⟨hcolon, hrun⟩ := hrun
    obtain ⟨value, hvalue, rfl⟩ := runs_bind_pure.mp hrun
    obtain ⟨ts, hts, -, hcolon⟩ := Took.op hcolon (by decide)
    obtain ⟨us, hus, hvalue⟩ := gives_test h hvalue
    exact ⟨_, hts.trans hus, rfl, hcolon.append hvalue.spread⟩
  | none =>
    obtain ⟨value, hvalue, rfl⟩ := runs_bind_pure.mp hrun
    obtain ⟨ts, hts, hvalue⟩ := gives_binary h hvalue
    exact ⟨ts, hts, rfl, hvalue.spread⟩

theorem gives_dictItem (h : inner.Sound) :
    GivesAll DictItem.parts (dictItem inner) := by
  intro c item d hrun
  rw [dictItem, eatOp, runs_eat_bind] at hrun
  rcases hrun with ⟨hstars, hrun⟩ | ⟨-, hrun⟩
  · rw [if_pos rfl] at hrun
    obtain ⟨ts, hts, -, hstars⟩ := Took.op hstars (by decide)
    obtain ⟨us, hus, hkey, hvalue⟩ := gives_dictValue h hrun
    exact ⟨_, hts.trans hus, by simpa [DictItem.parts, hkey] using hstars.append hvalue⟩
  · rw [if_neg Bool.false_ne_true, runs_bind] at hrun
    obtain ⟨key, m, hkey, hrun⟩ := hrun
    obtain ⟨ts, hts, hkey⟩ := gives_test h hkey
    obtain ⟨us, hus, hsome, hvalue⟩ := gives_dictValue h hrun
    exact ⟨_, hts.trans hus, by simpa [DictItem.parts, hsome] using hkey.spread.append hvalue⟩

theorem gives_dictFrom (h : inner.Sound) {start c d : Cursor} {l : Token}
    {ts : List Token} {first : DictItem Expr} {e : Expr} (hl : l.kind = .op) (hweight : l.weight = 1)
    (htook : Took start (l :: ts) c) (hts : Spread ts first.parts)
    (hrun : Runs (dictFrom inner start.peek.span.start first) c e d) :
    ∃ us, Took c us d ∧ Stands (l :: (ts ++ us)) e := by
  rw [dictFrom, runs_ask_bind, runs_ite] at hrun
  rcases hrun with ⟨-, hrun⟩ | ⟨-, hrun⟩
  · rw [runs_bind] at hrun
    obtain ⟨clauses, m, hclauses, hrun⟩ := hrun
    rw [runs_expectOp_bind] at hrun
    obtain ⟨hclose, hrun⟩ := hrun
    obtain ⟨rfl, rfl⟩ := runs_spanFrom_pure.mp hrun
    obtain ⟨us, hus, hclauses⟩ := gives_comprehension h hclauses
    have hparts : Spread (ts ++ us) (first.key.toList ++ first.value :: clauses) := by
      simpa [DictItem.parts] using hts.append hclauses
    obtain ⟨vs, hvs, hstands⟩ := stands_closed (e := .closure _ _) hl hweight (htook.trans hus)
      hparts hclose (by simp) rfl (fun _ => trivial) rfl
    exact ⟨_, hus.trans hvs, by simpa using hstands⟩
  · rw [runs_bind] at hrun
    obtain ⟨more, m, hmore, hrun⟩ := hrun
    rw [runs_expectOp_bind] at hrun
    obtain ⟨hclose, hrun⟩ := hrun
    obtain ⟨rfl, rfl⟩ := runs_spanFrom_pure.mp hrun
    obtain ⟨us, hus, hmore⟩ := (gives_dictItem h).separated (by decide) _ hmore
    obtain ⟨vs, hvs, hstands⟩ := stands_closed (e := .dict _ (first :: more)) hl hweight
      (htook.trans hus) (hts.append hmore) hclose (by simp) rfl (fun _ => trivial) rfl
    exact ⟨_, hus.trans hvs, by simpa using hstands⟩

theorem gives_brace (h : inner.Sound) : GivesBracketed (brace inner) := by
  intro start c l e d htook hl hweight hrun
  rw [brace, eatOp, runs_eat_bind] at hrun
  rcases hrun with ⟨hclose, hrun⟩ | ⟨-, hrun⟩
  · rw [if_pos rfl] at hrun
    obtain ⟨rfl, rfl⟩ := runs_spanFrom_pure.mp hrun
    exact stands_closed (e := .dict _ []) hl hweight htook .nil hclose (by simp) rfl
      (fun _ => trivial) rfl
  rw [if_neg Bool.false_ne_true, eatOp, runs_eat_bind] at hrun
  rcases hrun with ⟨hstars, hrun⟩ | ⟨-, hrun⟩
  · rw [if_pos rfl, runs_bind] at hrun
    obtain ⟨first, m, hfirst, hrun⟩ := hrun
    obtain ⟨ts, hts, -, hstars⟩ := Took.op hstars (by decide)
    obtain ⟨us, hus, hkey, hfirst⟩ := gives_dictValue h hfirst
    have hall := hts.trans hus
    obtain ⟨vs, hvs, hstands⟩ := gives_dictFrom h hl hweight (htook.trans hall)
      (by simpa [DictItem.parts, hkey] using hstars.append hfirst) hrun
    exact ⟨_, hall.trans hvs, hstands⟩
  rw [if_neg Bool.false_ne_true, runs_bind] at hrun
  obtain ⟨first, m, hfirst, hrun⟩ := hrun
  obtain ⟨ts, hts, hfirst⟩ := gives_starOrNamed h hfirst
  rw [runs_ask_bind, runs_ite] at hrun
  rcases hrun with ⟨-, hrun⟩ | ⟨-, hrun⟩
  · rw [runs_bind] at hrun
    obtain ⟨item, m', hitem, hrun⟩ := hrun
    obtain ⟨us, hus, hkey, hvalue⟩ := gives_dictValue h hitem
    have hall := hts.trans hus
    obtain ⟨vs, hvs, hstands⟩ := gives_dictFrom h hl hweight (htook.trans hall)
      (by simpa [DictItem.parts, hkey] using hfirst.spread.append hvalue) hrun
    exact ⟨_, hall.trans hvs, hstands⟩
  · obtain ⟨us, hus, hstands⟩ := gives_display h (by simp) builds_set hl hweight
      (htook.trans hts) hfirst.spread hrun
    exact ⟨_, hts.trans hus, hstands⟩

/-! ## Calls and subscripts -/

/-- The node of an argument. -/
def argumentNode : Expr ⊕ Keyword Expr → Node
  | .inl e => .expression e
  | .inr k => .argument k

/-- Tokens from which arguments were read, the keyword arguments among them after operators. -/
structure GivenOn (ts : List Token) (given : List (Expr ⊕ Keyword Expr)) : Prop
    extends Row ts (given.map argumentNode) where
  keywords : ∀ k, .inr k ∈ given → HoldsArgument ts k.value

theorem GivenOn.nil : GivenOn [] [] := ⟨.nil, by simp⟩

theorem GivenOn.append {ts us : List Token} {given given' : List (Expr ⊕ Keyword Expr)}
    (h : GivenOn ts given) (h' : GivenOn us given') : GivenOn (ts ++ us) (given ++ given') := by
  refine ⟨by simpa using h.toRow.append h'.toRow, fun k hk => ?_⟩
  rcases List.mem_append.mp hk with hk | hk
  · exact (h.keywords k hk).append [] us
  · simpa using (h'.keywords k hk).append ts []

theorem GivenOn.positional {ts : List Token} {e : Expr} (h : Spread ts [e]) :
    GivenOn ts [.inl e] :=
  ⟨h, by simp⟩

/-- A keyword argument covers the tokens of its value and those before it. -/
theorem GivenOn.keyword {ts : List Token} {k : Keyword Expr} (h : Spread ts [k.value])
    (hcovers : Covers ts k.span) (hvalue : HoldsArgument ts k.value) : GivenOn ts [.inr k] := by
  refine ⟨⟨h.toHolds.wrap hcovers (by rintro v ⟨⟩), h.onLine⟩, fun k' hk => ?_⟩
  obtain rfl : k' = k := Sum.inr.inj (List.mem_singleton.mp hk)
  exact hvalue

theorem filter_argumentNode (given : List (Expr ⊕ Keyword Expr)) :
    (given.map argumentNode).filter Node.isArgument =
        (given.filterMap Sum.getRight?).map Node.argument ∧
      (given.map argumentNode).filter (!·.isArgument) =
        (given.filterMap Sum.getLeft?).map Node.expression := by
  induction given with
  | nil => exact ⟨rfl, rfl⟩
  | cons a given ih =>
    cases a with
    | inl e => exact ⟨ih.1, congrArg (Node.expression e :: ·) ih.2⟩
    | inr k => exact ⟨congrArg (Node.argument k :: ·) ih.1, ih.2⟩

/-- A call lists its arguments by position before those by keyword. -/
theorem arguments_perm (base : Expr) (given : List (Expr ⊕ Keyword Expr)) :
    Rearranged (.expression base :: given.map argumentNode)
      (.expression base :: ((given.filterMap Sum.getLeft?).map Node.expression ++
        (given.filterMap Sum.getRight?).map Node.argument)) := by
  have hsame : (given.map argumentNode).Perm ((given.filterMap Sum.getLeft?).map Node.expression ++
      (given.filterMap Sum.getRight?).map Node.argument) := by
    induction given with
    | nil => exact .nil
    | cons a given ih =>
      cases a with
      | inl e => exact ih.cons _
      | inr k => exact (ih.cons _).trans List.perm_middle.symm
  obtain ⟨harguments, hothers⟩ := filter_argumentNode given
  refine ⟨hsame.cons _, rfl, ?_, ?_⟩
  · rw [List.filter_cons_of_neg (by simp [Node.isArgument]), harguments]
    simp [List.filter_map, Node.isArgument, Function.comp_def]
  · rw [List.filter_cons_of_pos (by simp [Node.isArgument]), hothers]
    simp [List.filter_map, Node.isArgument, Function.comp_def]

/-- The value of a keyword argument is a phrase of the tokens on which it stands. -/
theorem gives_value (h : inner.Sound) {c d : Cursor} {value : Expr}
    (hrun : Runs (test inner) c value d) :
    ∃ ts, Took c ts d ∧ Stands ts value ∧
      ∀ l : Token, l.kind = .op → HoldsArgument (l :: ts) value := by
  obtain ⟨ts, hts, hstands⟩ := gives_test h hrun
  obtain ⟨us, hus, henclosed⟩ := (utters_test h.phrased hrun).exists_enclosed
  obtain rfl : us = ts := List.append_cancel_right (hus.rest.symm.trans hts.rest)
  exact ⟨us, hts, hstands, fun l => henclosed.holdsArgument⟩

theorem gives_argument (h : inner.Sound) {c d : Cursor}
    {a : Expr ⊕ Keyword Expr} (hrun : Runs (argument inner) c a d) :
    ∃ ts, Took c ts d ∧ GivenOn ts [a] := by
  rw [argument, runs_here_bind, eatOp, runs_eat_bind] at hrun
  rcases hrun with ⟨hstars, hrun⟩ | ⟨-, hrun⟩
  · rw [if_pos rfl, runs_bind] at hrun
    obtain ⟨value, m, hvalue, hrun⟩ := hrun
    obtain ⟨rfl, rfl⟩ := runs_spanFrom_pure.mp hrun
    obtain ⟨l, rest, hrest, hkind, htext⟩ := Cursor.isOp_iff.mp hstars
    obtain ⟨ts, hts, hvalue, hholds⟩ := gives_value h hvalue
    have hall := (Took.advance hrest).trans hts
    exact ⟨_, hall, .keyword (k := ⟨none, value, _⟩)
      (hvalue.spread.cons (by rw [hkind]; decide) (weight_le_of_text (by rw [htext]; decide)))
      (covers_of_took hall (opens_cons (by rw [hkind]; rfl) _) rfl) (hholds l hkind)⟩
  rw [if_neg Bool.false_ne_true, runs_ask_bind, runs_ite] at hrun
  rcases hrun with ⟨-, hrun⟩ | ⟨-, hrun⟩
  · obtain ⟨e, he, rfl⟩ := runs_bind_pure.mp hrun
    obtain ⟨ts, hts, he⟩ := gives_starOrTest h he
    exact ⟨ts, hts, .positional he.spread⟩
  rw [runs_ask_bind, runs_ite] at hrun
  rcases hrun with ⟨hkeyword, hrun⟩ | ⟨-, hrun⟩
  · obtain ⟨t, l, rest, hrest, ht, hl, hlt⟩ := atKeywordArgument_iff.mp hkeyword
    rw [runs_bind] at hrun
    obtain ⟨arg, m, harg, hrun⟩ := hrun
    obtain ⟨-, rfl, rfl⟩ := runs_identifier.mp harg
    rw [runs_bump_bind, runs_bind] at hrun
    obtain ⟨value, m, hvalue, hrun⟩ := hrun
    obtain ⟨rfl, rfl⟩ := runs_spanFrom_pure.mp hrun
    obtain ⟨ts, hts, hvalue, hholds⟩ := gives_value h hvalue
    have hnext := Cursor.rest_advance hrest
    have hall := (Took.advance hrest).trans ((Took.advance hnext).trans hts)
    refine ⟨_, hall, .keyword (k := ⟨some _, value, _⟩) ?_
      (covers_of_took hall (opens_cons (by rw [ht]; rfl) _) rfl) ?_⟩
    · exact .cons (by rw [ht]; decide) (Int.le_of_eq (weight_of_name ht))
        (hvalue.spread.cons (by rw [hl]; decide) (weight_le_of_text (by rw [hlt]; decide)))
    · simpa using (hholds l hl).append [t] []
  · rw [runs_bind] at hrun
    obtain ⟨value, m, hvalue, hrun⟩ := hrun
    obtain ⟨ts, hts, hstands⟩ := gives_namedTest h hvalue
    rw [runs_ask_bind, runs_ite] at hrun
    rcases hrun with ⟨-, hrun⟩ | ⟨-, hrun⟩
    · rw [runs_bind] at hrun
      obtain ⟨clauses, m', hclauses, hrun⟩ := hrun
      obtain ⟨rfl, rfl⟩ := runs_spanFrom_pure.mp hrun
      obtain ⟨us, hus, hclauses⟩ := gives_comprehension h hclauses
      have hall := hts.trans hus
      exact ⟨_, hall, .positional (stands_of_took (e := .closure _ _) hall
        (hstands.opens.append us) (hstands.spread.append hclauses) rfl trivial rfl).spread⟩
    · obtain ⟨rfl, rfl⟩ := runs_pure.mp hrun
      exact ⟨ts, hts, .positional hstands.spread⟩

theorem gives_arguments (h : inner.Sound) {c d : Cursor}
    {given : List (Expr ⊕ Keyword Expr)} (hrun : Runs (arguments inner) c given d) :
    ∃ ts, Took c ts d ∧ GivenOn ts given := by
  rw [arguments, runs_ask_bind, runs_ite] at hrun
  rcases hrun with ⟨-, hrun⟩ | ⟨-, hrun⟩
  · obtain ⟨rfl, rfl⟩ := runs_pure.mp hrun
    exact ⟨[], .refl _, .nil⟩
  rw [runs_bind] at hrun
  obtain ⟨first, m, hfirst, hrun⟩ := hrun
  obtain ⟨more, hmore, rfl⟩ := runs_bind_pure.mp hrun
  obtain ⟨ts, hts, hfirst⟩ := gives_argument h hfirst
  obtain ⟨us, hus, hmore⟩ := Took.of_separated (P := GivenOn) .nil GivenOn.append
    (fun hkind htext => ⟨.token (by rw [hkind]; decide)
      (weight_le_of_text (by rw [htext]; decide)), by simp⟩) (gives_argument h) hmore
  exact ⟨_, hts.trans hus, hfirst.append hmore⟩

theorem gives_slice (h : inner.Sound) : GivesAll id (slice inner) := by
  have hbounds : GivesAll (fun bounds : List (List Expr) => bounds.flatMap id)
      (loop (·.isOp ":") fun _ => do
        if ← ask (·.isAnyOp [":", "]", ","]) then return .item []
        else return .item [← test inner]) := by
    refine .loop (plain_isOp (by decide)) fun hrest htest hturn => ?_
    rw [runs_ask_bind, runs_ite] at hturn
    rcases hturn with ⟨-, hturn⟩ | ⟨-, hturn⟩
    · obtain ⟨rfl, rfl⟩ := runs_pure.mp hturn
      exact ⟨[], .refl _, .nil⟩
    · obtain ⟨e, he, rfl⟩ := runs_bind_pure.mp hturn
      obtain ⟨ts, hts, he⟩ := gives_test h he
      exact ⟨ts, hts, he.spread⟩
  intro c es d hrun
  rw [slice, runs_ask_bind, runs_ite] at hrun
  rcases hrun with ⟨-, hrun⟩ | ⟨-, hrun⟩
  · rw [runs_pure_bind] at hrun
    obtain ⟨bounds, hloop, rfl⟩ := runs_bind_pure.mp hrun
    simpa using hbounds hloop
  · rw [runs_bind] at hrun
    obtain ⟨lower, m, hlower, hrun⟩ := hrun
    rw [runs_pure_bind] at hrun
    obtain ⟨bounds, hloop, rfl⟩ := runs_bind_pure.mp hrun
    obtain ⟨ts, hts, hlower⟩ := gives_starOrNamed h hlower
    obtain ⟨us, hus, hbounds⟩ := hbounds hloop
    exact ⟨_, hts.trans hus, by simpa using hlower.spread.append hbounds⟩

theorem gives_subscript (h : inner.Sound) : GivesAll id (subscript inner) := by
  intro c es d hrun
  rw [subscript, runs_bind] at hrun
  obtain ⟨first, m, hfirst, hrun⟩ := hrun
  obtain ⟨more, hmore, rfl⟩ := runs_bind_pure.mp hrun
  obtain ⟨ts, hts, hfirst⟩ := gives_slice h hfirst
  obtain ⟨us, hus, hmore⟩ := (gives_slice h).separated (by decide) _ hmore
  rw [← List.flatMap_id]
  exact ⟨_, hts.trans hus, hfirst.append hmore⟩

theorem gives_link (h : inner.Sound) : GivesLink (link inner) := by
  intro start c before base e d htook hbase hrun
  rw [link, eatOp, runs_eat_bind] at hrun
  rcases hrun with ⟨hopen, hrun⟩ | ⟨-, hrun⟩
  · rw [if_pos rfl, runs_bind] at hrun
    obtain ⟨given, m, hgiven, hrun⟩ := hrun
    rw [runs_expectOp_bind] at hrun
    obtain ⟨hclose, hrun⟩ := hrun
    obtain ⟨l, lrest, hlrest, hl, hltext⟩ := Cursor.isOp_iff.mp hopen
    obtain ⟨r, rrest, hrrest, hr, hrtext⟩ := Cursor.isOp_iff.mp hclose
    obtain ⟨ts, hts, hgiven⟩ := gives_arguments h hgiven
    rw [runs_bind] at hrun
    obtain ⟨s, _, hs, hrun⟩ := hrun
    obtain ⟨rfl, rfl⟩ := runs_spanFrom.mp hs
    have hcall := (Took.advance hlrest).trans (hts.trans (.advance hrrest))
    have hstands : Stands (before ++ (l :: (ts ++ [r]))) (.call ⟨start.peek.span.start,
        max m.advance.lastEnd start.peek.span.start⟩ base (given.filterMap Sum.getLeft?)
          (given.filterMap Sum.getRight?)) := by
      refine .node ?_ (covers_of_took (htook.trans hcall) (hbase.opens.append _) rfl) ?_
      · exact (Row.append hbase.spread (hgiven.toRow.bracketed (weight_opening hl (by simp [hltext]))
          (weight_closing hr (by simp [hrtext])))).of_perm (arguments_perm base given)
      · intro k hk
        obtain ⟨a, ha, hright⟩ := List.mem_filterMap.mp hk
        obtain rfl := Sum.getRight?_eq_some_iff.mp hright
        exact ⟨before ++ (l :: ts), r, by simp, by
          simpa using (hgiven.keywords k ha).append (before ++ [l]) []⟩
    obtain ⟨us, hus, hlinks⟩ := gives_links h (htook.trans hcall) hstands hrun
    exact ⟨_, hcall.trans hus, by simpa using hlinks⟩
  rw [if_neg Bool.false_ne_true, eatOp, runs_eat_bind] at hrun
  rcases hrun with ⟨hopen, hrun⟩ | ⟨-, hrun⟩
  · rw [if_pos rfl, runs_bind] at hrun
    obtain ⟨parts, m, hparts, hrun⟩ := hrun
    rw [runs_expectOp_bind] at hrun
    obtain ⟨hclose, hrun⟩ := hrun
    obtain ⟨l, lrest, hlrest, hl, hltext⟩ := Cursor.isOp_iff.mp hopen
    obtain ⟨r, rrest, hrrest, hr, hrtext⟩ := Cursor.isOp_iff.mp hclose
    obtain ⟨ts, hts, hparts⟩ := gives_subscript h hparts
    rw [runs_bind] at hrun
    obtain ⟨s, _, hs, hrun⟩ := hrun
    obtain ⟨rfl, rfl⟩ := runs_spanFrom.mp hs
    have hall := (Took.advance hlrest).trans (hts.trans (.advance hrrest))
    have hstands := stands_of_took (e := .compound _ (base :: parts)) (htook.trans hall)
      (hbase.opens.append _) (hbase.spread.append (hparts.bracketed
        (weight_opening hl (by simp [hltext])) (weight_closing hr (by simp [hrtext])))) rfl trivial rfl
    obtain ⟨us, hus, hlinks⟩ := gives_links h (htook.trans hall) hstands hrun
    exact ⟨_, hall.trans hus, by simpa using hlinks⟩
  · rw [if_neg Bool.false_ne_true, runs_expectOp_bind] at hrun
    obtain ⟨hdot, hrun⟩ := hrun
    rw [runs_bind] at hrun
    obtain ⟨attr, m, hattr, hrun⟩ := hrun
    obtain ⟨⟨hname, -⟩, rfl, rfl⟩ := runs_identifier.mp hattr
    rw [runs_bind] at hrun
    obtain ⟨s, _, hs, hrun⟩ := hrun
    obtain ⟨rfl, rfl⟩ := runs_spanFrom.mp hs
    obtain ⟨ts, hts, -, hdot⟩ := Took.op hdot (by decide)
    obtain ⟨us, hus, -, hname⟩ := Took.name hname
    have hall := hts.trans hus
    have hstands := stands_of_took (e := .member _ base c.advance.peek.text) (htook.trans hall)
      (hbase.opens.append _) (hbase.spread.append (hdot.append hname)) rfl trivial rfl
    obtain ⟨vs, hvs, hlinks⟩ := gives_links h (htook.trans hall) hstands hrun
    exact ⟨_, hall.trans hvs, by simpa using hlinks⟩

end Parser

namespace Level

theorem exhausted_sound : exhausted.Sound := by
  refine ⟨exhausted_phrased, ?_, ?_, ?_, ?_, ?_, ?_, ?_, ?_⟩ <;> intro <;> simp [exhausted]

theorem Sound.above {inner : Level} (h : inner.Sound) : (above inner).Sound where
  phrased := h.phrased.above
  test := Parser.gives_test h
  notTest := Parser.gives_notTest h
  factor := Parser.gives_factor h
  power := Parser.gives_power h
  link := Parser.gives_link h
  paren := Parser.gives_paren h
  list := Parser.gives_list h
  brace := Parser.gives_brace h

/-- The expressions of each level stand on the tokens they were read from. -/
theorem ofBudget_sound : ∀ n, (ofBudget n).Sound
  | 0 => exhausted_sound
  | n + 1 => (ofBudget_sound n).above

end Level

end WorkflowAudit.Script
