import WorkflowAudit.Proofs.Script.Visit

/-!
# The order of a tree and of its text

The nodes inside a node are listed in the order of the text, with one exception: a call lists its
arguments by position before those by keyword, also where the text has them the other way round,
as in `f(a=1, *b)`. So a walk over a script meets the expressions in the order of the text, but
for those inside two such arguments.
-/

namespace WorkflowAudit.Script

variable {fits : Span → Prop}

/-! ## Nodes that were read from tokens in order -/

namespace Node

/-- Whether a node ends before another one begins. -/
def Before (n m : Node) : Prop := n.span.stop ≤ m.span.start

theorem narrows_before : Narrows Before := by
  intro n m v w h hv hw
  simp only [Before, Span.contains, Bool.and_eq_true, decide_eq_true_eq] at h hv hw ⊢
  omega

/-- Whether nodes stand in the order of the text, where keyword arguments and other nodes behind
the first node are compared only among themselves. -/
structure InOrder (ns : List Node) : Prop where
  first : ∀ n ∈ ns.head?, ∀ m ∈ ns.tail, n.Before m
  arguments : (ns.filter isArgument).Pairwise Before
  others : (ns.filter (!·.isArgument)).Pairwise Before

theorem InOrder.cons {n : Node} {ns : List Node} (hfirst : ∀ m ∈ ns, n.Before m)
    (h : InOrder ns) : InOrder (n :: ns) := by
  refine ⟨by simpa using hfirst, ?_, ?_⟩ <;> rw [List.filter_cons]
  all_goals split
  · exact List.pairwise_cons.mpr ⟨fun m hm => hfirst m (List.mem_of_mem_filter hm), h.arguments⟩
  · exact h.arguments
  · exact List.pairwise_cons.mpr ⟨fun m hm => hfirst m (List.mem_of_mem_filter hm), h.others⟩
  · exact h.others

theorem InOrder.rearranged {ns ms : List Node} (h : InOrder ns) (same : Rearranged ns ms) :
    InOrder ms := by
  refine ⟨fun n hn m hm => ?_, same.arguments ▸ h.arguments, same.others ▸ h.others⟩
  obtain ⟨ms, rfl⟩ := List.head?_eq_some_iff.mp hn
  obtain ⟨ns, rfl⟩ := List.head?_eq_some_iff.mp (same.first.trans hn)
  exact h.first n rfl m ((List.perm_cons n).mp same.same |>.symm.subset hm)

/-- Without keyword arguments all nodes are in order. -/
theorem InOrder.pairwise {ns : List Node} (h : InOrder ns)
    (plain : ∀ n ∈ ns, n.isArgument = false) : ns.Pairwise Before := by
  have hothers := h.others
  rwa [List.filter_eq_self.mpr fun n hn => by rw [plain n hn]; rfl] at hothers

end Node

theorem Parts.inOrder {ts : List Token} {ns : List Node} (h : Parts ts ns)
    (hordered : Ordered ts) : Node.InOrder ns := by
  induction h with
  | nil => exact ⟨by simp, by simp, by simp⟩
  | token t _ ih => exact ih hordered.of_cons
  | node covers _ more _ ih =>
    exact (ih hordered.of_append.2).cons (covers.stop_le_start more hordered)
  | perm _ same ih => exact (ih hordered).rearranged same

/-- The nodes inside any node were read from tokens too. -/
theorem Parts.inOrder_of_reached {ts : List Token} {ns : List Node} {v : Node} (h : Parts ts ns)
    (hordered : Ordered ts) (hv : Node.Reached ns v) : Node.InOrder v.children := by
  induction h with
  | nil => simp at hv
  | token t _ ih => exact ih hordered.of_cons hv
  | @node us ts n ns covers inside _ ihInside ihMore =>
    obtain ⟨hus, hts⟩ := hordered.of_append
    rw [← List.singleton_append, Node.Reached.append_iff, Node.reached_singleton] at hv
    rcases hv with (rfl | hv) | hv
    · exact inside.inOrder hus
    · exact ihInside hus hv
    · exact ihMore hts hv
  | perm _ same ih => exact ih hordered (hv.mono same.same.symm.subset)

/-! ## The parts of an expression -/

/-- A keyword argument of a call that stands before an argument by position. -/
structure Call.Displaced (c : Call) (a : Expr) (k : Keyword Expr) : Prop where
  positional : a ∈ c.args
  keyword : k ∈ c.keywords
  later : k.value.span.start < a.span.start

/-- Whether an expression ends before another one begins. -/
def Expr.Before (e f : Expr) : Prop := e.span.stop ≤ f.span.start

theorem Node.Tidy.fit {n : Node} (h : n.Tidy fits) : fits n.span := by
  cases h with
  | intro fit => exact fit

/-- An expression that was read from tokens in order, like all that is inside it. -/
structure Expr.Laid (fits : Span → Prop) (e : Expr) : Prop where
  tidy : (Node.expression e).Tidy fits
  inOrder : Node.InOrder (Node.expression e).children

/-- The function and the arguments by position of a call stand in the order of the text, and so do
the function and the values of the arguments by keyword. -/
theorem Expr.Laid.groups {span : Span} {func : Expr} {args : List Expr}
    {keywords : List (Keyword Expr)} (h : (Expr.call span func args keywords).Laid fits) :
    (func :: args).Pairwise Expr.Before ∧
      (func :: Keyword.valuesOf keywords).Pairwise Expr.Before := by
  obtain ⟨⟨-, -, -, below⟩, hfirst, harguments, hothers⟩ := h
  have held : ∀ k ∈ keywords,
      (Node.argument k).span.contains (Node.expression k.value).span = true := fun k hk =>
    ((below (.argument k) (by simp [Node.children, hk])).held rfl).2
  have hargs : (args.map Node.expression ++ keywords.map Node.argument).filter
      (!·.isArgument) = args.map Node.expression := by
    simp [List.filter_map, Node.isArgument, Function.comp_def]
  have hkeywords : (args.map Node.expression ++ keywords.map Node.argument).filter
      Node.isArgument = keywords.map Node.argument := by
    simp [List.filter_map, Node.isArgument, Function.comp_def]
  simp only [Node.children] at hfirst harguments hothers
  rw [List.filter_cons_of_pos (by rfl), hargs, ← List.map_cons, List.pairwise_map] at hothers
  rw [List.filter_cons_of_neg (by simp [Node.isArgument]), hkeywords,
    List.pairwise_map] at harguments
  refine ⟨hothers, List.pairwise_cons.mpr ⟨?_, ?_⟩⟩
  · refine List.forall_mem_map.mpr fun k hk => ?_
    exact Node.narrows_before (hfirst _ rfl (.argument k) (by simp [hk])) (Node.contains_self _)
      (held k hk)
  · rw [Keyword.valuesOf, List.pairwise_map]
    exact harguments.imp_of_mem fun hk hk' h => Node.narrows_before h (held _ hk) (held _ hk')

theorem Expr.eq_call {e : Expr} {c : Call} (h : e.asCall? = some c) :
    e = .call c.span c.func c.args c.keywords := by
  cases e with
  | call => cases h; rfl
  | _ => cases h

theorem Expr.Laid.start_lt_stop {e x : Expr} (h : e.Laid fits)
    (filled : ∀ s, fits s → s.start < s.stop) (hx : x ∈ e.children) : x.span.start < x.span.stop :=
  filled _ ((TidyRow.children h.tidy).1.tidy x hx).fit

/-- Of an argument by position and one by keyword, one ends before the other one begins. -/
theorem Expr.Laid.before_or_before {e a : Expr} {c : Call} {k : Keyword Expr} (h : e.Laid fits)
    (hcall : e.asCall? = some c) (ha : a ∈ c.args) (hk : k ∈ c.keywords) :
    a.Before k.value ∨ k.value.Before a := by
  have hapart := (TidyRow.children h.tidy).1.apart
  rw [eq_call hcall] at hapart
  have hpair := (List.pairwise_append.mp hapart).2.2 a (List.mem_cons_of_mem _ ha)
    k.value (List.mem_map_of_mem hk)
  rw [Node.Apart, Span.overlaps, Bool.and_eq_false_iff, decide_eq_false_iff_not,
    decide_eq_false_iff_not, Nat.not_lt, Nat.not_lt] at hpair
  exact hpair.symm

/-- Of two parts of an expression the first one ends before the second one begins, or the
expression is a call and they are arguments that stand the other way round. -/
theorem Expr.Laid.children {e : Expr} (h : e.Laid fits)
    (filled : ∀ s, fits s → s.start < s.stop) :
    e.children.Pairwise fun x y => x.Before y ∨
      ∃ c k, e.asCall? = some c ∧ c.Displaced x k ∧ y = k.value := by
  cases hcall : e.asCall? with
  | none =>
    have hinOrder := h.inOrder
    rw [Node.children_of_plain hcall] at hinOrder
    exact (List.pairwise_map.mp (hinOrder.pairwise (by simp [Node.isArgument]))).imp .inl
  | some c =>
    obtain rfl := eq_call hcall
    obtain ⟨hargs, hvalues⟩ := h.groups
    obtain ⟨hfunc, hvalues⟩ := List.pairwise_cons.mp hvalues
    refine List.pairwise_append.mpr ⟨hargs.imp .inl, hvalues.imp .inl, ?_⟩
    refine List.forall_mem_cons.mpr ⟨fun y hy => .inl (hfunc y hy), fun a ha => ?_⟩
    refine List.forall_mem_map.mpr fun k hk =>
      (h.before_or_before hcall ha hk).imp id fun hlater => ?_
    have hvalue := h.start_lt_stop filled (List.mem_append_right _ (List.mem_map_of_mem hk))
    exact ⟨c, k, rfl, ⟨ha, hk, Nat.lt_of_lt_of_le hvalue hlater⟩, rfl⟩

/-- The parts of an expression are in order exactly when no arguments are displaced. -/
theorem Expr.Laid.children_iff {e : Expr} (h : e.Laid fits)
    (filled : ∀ s, fits s → s.start < s.stop) :
    (e.children.Pairwise fun x y => x.span.start < y.span.start) ↔
      ∀ c, e.asCall? = some c → ∀ a k, ¬c.Displaced a k := by
  constructor
  · intro hpairs c hcall a k hdisplaced
    rw [eq_call hcall] at hpairs
    have := (List.pairwise_append.mp hpairs).2.2 a (List.mem_cons_of_mem _ hdisplaced.positional)
      k.value (List.mem_map_of_mem hdisplaced.keyword)
    have := hdisplaced.later
    omega
  · intro hnone
    refine (h.children filled).imp_of_mem fun {x y} hx _ hxy => ?_
    rcases hxy with hbefore | ⟨c, k, hcall, hdisplaced, -⟩
    · exact Nat.lt_of_lt_of_le (h.start_lt_stop filled hx) hbefore
    · exact absurd hdisplaced (hnone c hcall x k)

/-! ## Walks -/

/-- The calls in an expression, itself among them. -/
def Expr.calls (e : Expr) : List Call := e.walk.filterMap asCall?

theorem Expr.walk_eq (e : Expr) : e.walk = e :: e.children.flatMap walk := by
  rw [walk, visit, List.append_nil, flatMap_walk]

theorem Expr.mem_walk_self (e : Expr) : e ∈ e.walk := by
  rw [e.walk_eq]
  exact List.mem_cons_self

theorem Expr.mem_visit_iff {es : List Expr} {v : Expr} : v ∈ visit es ↔ ∃ e ∈ es, v ∈ e.walk := by
  rw [← flatMap_walk, List.mem_flatMap]

/-- The walk over an expression is a part of every walk that meets it. -/
theorem Expr.walk_sublist {es : List Expr} {e : Expr} (h : e ∈ visit es) :
    e.walk.Sublist (visit es) := by
  induction es using visit.induct with
  | case1 => simp [visit] at h
  | case2 f es ih =>
    rw [visit] at h ⊢
    rcases List.mem_cons.mp h with rfl | h
    · rw [walk_eq, flatMap_walk, visit_append]
      exact (List.sublist_append_left _ _).cons_cons e
    · exact (ih h).cons f

/-- Whether an expression begins before another one, or the two are inside arguments of a call that
stand the other way round. -/
def Expr.Precedes (calls : List Call) (v w : Expr) : Prop :=
  v.span.start ≤ w.span.start ∨
    ∃ c ∈ calls, ∃ a k, c.Displaced a k ∧ v ∈ a.walk ∧ w ∈ k.value.walk

theorem Expr.Laid.contains_of_mem_walk {e v : Expr} (h : e.Laid fits) (hv : v ∈ e.walk) :
    e.span.contains v.span = true :=
  (h.tidy.reached (Node.reached_of_mem_visit hv)).2

theorem Expr.mem_walk_of_child {e c v : Expr} (hc : c ∈ e.children) (hv : v ∈ c.walk) :
    v ∈ e.walk := by
  rw [e.walk_eq]
  exact List.mem_cons_of_mem e (List.mem_flatMap.mpr ⟨c, hc, hv⟩)

/-- What is inside an expression begins before what is inside a later one. -/
theorem Expr.Before.start_lt {x y v w : Expr} (h : x.Before y)
    (filled : ∀ s, fits s → s.start < s.stop) (hx : x.Laid fits) (hy : y.Laid fits)
    (hv : v ∈ x.walk) (hw : w ∈ y.walk) : v.span.start < w.span.start := by
  have hfilled : v.span.start < v.span.stop :=
    filled _ (hx.tidy.reached (Node.reached_of_mem_visit hv)).1.fit
  have hleft := hx.contains_of_mem_walk hv
  have hright := hy.contains_of_mem_walk hw
  simp only [Span.contains, Bool.and_eq_true, decide_eq_true_eq] at hleft hright
  rw [Before] at h
  omega

/-- The parts of an expression, each with all that is inside it. -/
theorem Expr.Laid.children_precede {calls : List Call} {e : Expr}
    (filled : ∀ s, fits s → s.start < s.stop) (laid : ∀ v ∈ e.walk, v.Laid fits)
    (known : ∀ c, e.asCall? = some c → c ∈ calls) :
    e.children.Pairwise fun x y => ∀ v ∈ x.walk, ∀ w ∈ y.walk, v.Precedes calls w := by
  have hchild : ∀ c ∈ e.children, c.Laid fits := fun c hc =>
    laid c (mem_walk_of_child hc c.mem_walk_self)
  refine ((laid e e.mem_walk_self).children filled).imp_of_mem fun {x y} hx hy h v hv w hw => ?_
  rcases h with hbefore | ⟨c, k, hcall, hdisplaced, rfl⟩
  · exact .inl (hbefore.start_lt filled (hchild x hx) (hchild y hy) hv hw).le
  · exact .inr ⟨c, known c hcall, x, k, hdisplaced, hv, hw⟩

/-- Of two expressions that a walk meets, the first one precedes the second one. -/
theorem pairwise_precedes {calls : List Call} {es : List Expr}
    (filled : ∀ s, fits s → s.start < s.stop)
    (laid : ∀ v ∈ Expr.visit es, v.Laid fits)
    (known : ∀ v ∈ Expr.visit es, ∀ c, v.asCall? = some c → c ∈ calls)
    (row : es.Pairwise fun e f => ∀ v ∈ e.walk, ∀ w ∈ f.walk, v.Precedes calls w) :
    (Expr.visit es).Pairwise (Expr.Precedes calls) := by
  induction es using Expr.visit.induct with
  | case1 => simp [Expr.visit]
  | case2 e es ih =>
    obtain ⟨hfirst, hothers⟩ := List.pairwise_cons.mp row
    have hwalk : e.walk ⊆ Expr.visit (e :: es) :=
      fun v hv => Expr.mem_visit_iff.mpr ⟨e, List.mem_cons_self, hv⟩
    rw [Expr.visit] at laid known hwalk ⊢
    refine List.pairwise_cons.mpr ⟨fun w hw => ?_, ih
      (fun v hv => laid v (List.mem_cons_of_mem e hv))
      (fun v hv => known v (List.mem_cons_of_mem e hv)) ?_⟩
    · rw [Expr.visit_append, List.mem_append, ← Expr.flatMap_walk] at hw
      rcases hw with hw | hw
      · have hcontains := (laid e List.mem_cons_self).contains_of_mem_walk
          (by rw [e.walk_eq]; exact List.mem_cons_of_mem e hw)
        rw [Span.contains, Bool.and_eq_true, decide_eq_true_eq] at hcontains
        exact .inl hcontains.1
      · obtain ⟨f, hf, hw⟩ := Expr.mem_visit_iff.mp hw
        exact hfirst f hf e e.mem_walk_self w hw
    · refine List.pairwise_append.mpr ⟨?_, hothers, fun c hc f hf v hv w hw =>
        hfirst f hf v (Expr.mem_walk_of_child hc hv) w hw⟩
      exact Expr.Laid.children_precede filled (fun v hv => laid v (hwalk hv))
        (known e List.mem_cons_self)

/-! ## Scripts -/

namespace Node

/-- An expression among or inside statements is inside an expression of one that a walk meets. -/
theorem exists_statement_of_reached {ss : List (Stmt × Nat)} {e : Expr}
    (h : Reached (ss.map fun p => statement p.1) (expression e)) :
    ∃ p ∈ Stmt.visit ss, e ∈ Expr.visit p.1.exprs := by
  induction ss using Stmt.visit.induct with
  | case1 => simp at h
  | case2 s n ss ih =>
    rw [Stmt.visit]
    have hlater : Reached (s.inner.map statement) (expression e) ∨
        Reached (ss.map fun p => statement p.1) (expression e) →
        ∃ p ∈ (s, n) :: Stmt.visit (s.inner.map (·, n + 1) ++ ss), e ∈ Expr.visit p.1.exprs := by
      intro h
      obtain ⟨p, hp, he⟩ := ih (by
        rw [List.map_append, List.map_map, Reached.append_iff]
        exact h)
      exact ⟨p, List.mem_cons_of_mem _ hp, he⟩
    rw [List.map_cons, ← List.singleton_append, Reached.append_iff, reached_singleton] at h
    rcases h with (hself | hinside) | hpending
    · cases hself
    · rcases Reached.append_iff.mp hinside with hexpr | hinner
      · exact ⟨_, List.mem_cons_self, mem_visit_of_reached hexpr⟩
      · exact hlater (.inl hinner)
    · exact hlater (.inr hpending)

end Node

/-- A walk over a script meets the expressions at all paths. -/
theorem Module.mem_expressions_iff {m : Module} {e : Expr} :
    e ∈ m.expressions ↔ ∃ path, m.at? path = some (.expression e) := by
  refine ⟨exists_path_of_mem_expressions, fun h => ?_⟩
  have reached : Node.Reached ((m.body.map (·, 0)).map fun p => .statement p.1)
      (.expression e) := by
    rw [List.map_map]
    exact h
  obtain ⟨p, hp, he⟩ := Node.exists_statement_of_reached reached
  rw [← Expr.flatMap_walk] at he
  exact List.mem_flatMap.mpr ⟨p, hp, he⟩

/-- What is listed in the order of the text. -/
structure SourceOrder (m : Module) : Prop where
  /-- Every expression of the script is listed. -/
  listed : ∀ e, e ∈ m.expressions ↔ ∃ path, m.at? path = some (.expression e)
  /-- The parts of an expression are, unless it is a call with displaced arguments. -/
  children : ∀ e ∈ m.expressions,
    (e.children.Pairwise fun x y => x.span.start < y.span.start) ↔
      ∀ c, e.asCall? = some c → ∀ a k, ¬c.Displaced a k
  /-- Of a call the function and the arguments of either kind are. -/
  groups : ∀ c ∈ m.calls,
    ((c.func :: c.args).Pairwise fun x y => x.span.start < y.span.start) ∧
      (c.func :: Keyword.valuesOf c.keywords).Pairwise fun x y => x.span.start < y.span.start
  /-- The calls of a script are, unless two displaced arguments both have calls in them. -/
  calls : (m.calls.Pairwise fun c d => c.span.start ≤ d.span.start) ↔
    ∀ c ∈ m.calls, ∀ a k, c.Displaced a k → a.calls = [] ∨ k.value.calls = []

/-- The nodes of a script were read from tokens in order. -/
theorem exists_laid_of_parse {text : String} {m : Module} (h : parse text = .ok m) :
    ∃ tokens, Ordered tokens ∧ (∀ n ∈ m.body.map Node.statement, n.Tidy (Bounds tokens)) ∧
      (m.body.map Node.statement).Pairwise Node.Before ∧
      ∀ v, Node.Reached (m.body.map .statement) v →
        v.Tidy (Bounds tokens) ∧ Node.InOrder v.children := by
  obtain ⟨ts, more, -, hordered, hholds⟩ := exists_holds_of_parse h
  have hts := hordered.of_append.1
  have htidy : ∀ n ∈ m.body.map Node.statement, n.Tidy (Bounds ts) :=
    (hholds.parts.tidy hts fun s hs => hs).1
  refine ⟨ts, hts, htidy, (hholds.parts.inOrder hts).pairwise (by simp [Node.isArgument]),
    fun v hv => ⟨?_, hholds.parts.inOrder_of_reached hts hv⟩⟩
  obtain ⟨path, hpath⟩ := hv
  exact Node.tidy_of_among? htidy hpath

/-- Of two expressions that the walk over a script meets, the first one precedes the second one. -/
theorem pairwise_expressions_precede {m : Module} (filled : ∀ s, fits s → s.start < s.stop)
    (tidy : ∀ n ∈ m.body.map Node.statement, n.Tidy fits)
    (row : (m.body.map Node.statement).Pairwise Node.Before)
    (inOrder : ∀ v, Node.Reached (m.body.map .statement) v → Node.InOrder v.children)
    (laid : ∀ e ∈ m.expressions, e.Laid fits) :
    m.expressions.Pairwise (Expr.Precedes m.calls) := by
  have related : ∀ s, Node.Reached (m.body.map .statement) (.statement s) →
      (Node.statement s).children.Pairwise Node.Before := fun s hs => by
    refine (inOrder _ hs).pairwise fun n hn => ?_
    rcases List.mem_append.mp hn with hn | hn <;> obtain ⟨_, -, rfl⟩ := List.mem_map.mp hn <;> rfl
  refine pairwise_expressions_of Node.narrows_before tidy row (fun s hs => ?_)
    (fun s hs _ => ?_) fun e he f hf hbefore => ?_
  · obtain ⟨-, hinner, hbetween⟩ := List.pairwise_append.mp (related s hs)
    exact ⟨fun e he r hr => hbetween _ (List.mem_map_of_mem he) _ (List.mem_map_of_mem hr),
      List.pairwise_map.mp hinner⟩
  · have listed : ∀ v ∈ Expr.visit s.exprs, v ∈ m.expressions := fun v hv =>
      Module.mem_expressions_iff.mpr (hs.below (Node.Reached.append_iff.mpr
        (.inl (Node.reached_of_mem_visit hv))))
    have root : ∀ e ∈ s.exprs, e.Laid fits := fun e he =>
      laid e (listed e (Expr.mem_visit_iff.mpr ⟨e, he, e.mem_walk_self⟩))
    have hexprs := List.pairwise_map.mp (List.pairwise_append.mp (related s hs)).1
    refine pairwise_precedes filled (fun v hv => laid v (listed v hv))
      (fun v hv c hc => List.mem_filterMap.mpr ⟨v, listed v hv, hc⟩)
      (hexprs.imp_of_mem fun he hf hbefore v hv w hw => .inl ?_)
    exact (Expr.Before.start_lt hbefore filled (root _ he) (root _ hf) hv hw).le
  · exact .inl (Expr.Before.start_lt hbefore filled (laid e he) (laid f hf) e.mem_walk_self
      f.mem_walk_self).le

theorem Module.expressions_eq (m : Module) :
    m.expressions = Expr.visit (m.statements.flatMap (·.1.exprs)) := by
  rw [← Expr.flatMap_walk, List.flatMap_assoc]
  rfl

/-- Where the calls of a script are listed in the order of the text, no displaced arguments both
have calls in them. -/
theorem calls_eq_nil_of_pairwise {m : Module} {e a : Expr} {c : Call} {k : Keyword Expr}
    (filled : ∀ s, fits s → s.start < s.stop) (laid : ∀ e ∈ m.expressions, e.Laid fits)
    (inOrder : m.expressions.Pairwise fun v w => ∀ c, v.asCall? = some c → ∀ d, w.asCall? = some d →
      c.span.start ≤ d.span.start)
    (he : e ∈ m.expressions) (hcall : e.asCall? = some c) (hdisplaced : c.Displaced a k) :
    a.calls = [] ∨ k.value.calls = [] := by
  by_contra hboth
  rw [not_or] at hboth
  obtain ⟨d, hd⟩ := List.exists_mem_of_ne_nil _ hboth.1
  obtain ⟨d', hd'⟩ := List.exists_mem_of_ne_nil _ hboth.2
  obtain ⟨v, hv, hvd⟩ := List.mem_filterMap.mp hd
  obtain ⟨w, hw, hwd⟩ := List.mem_filterMap.mp hd'
  have hsub : e.walk.Sublist m.expressions :=
    m.expressions_eq ▸ Expr.walk_sublist (m.expressions_eq ▸ he)
  have hchild : ∀ x ∈ e.children, x.Laid fits := fun x hx =>
    laid x (hsub.subset (Expr.mem_walk_of_child hx x.mem_walk_self))
  -- the walk lists the argument by position first
  have hpairs := inOrder.sublist hsub
  rw [e.walk_eq] at hpairs
  have hparts := (List.pairwise_flatMap.mp (List.pairwise_cons.mp hpairs).2).2
  have hmem : a ∈ e.children ∧ k.value ∈ e.children := by
    rw [Expr.eq_call hcall]
    exact ⟨List.mem_append_left _ (List.mem_cons_of_mem _ hdisplaced.positional),
      List.mem_append_right _ (List.mem_map_of_mem hdisplaced.keyword)⟩
  rw [Expr.eq_call hcall] at hparts
  have hle := (List.pairwise_append.mp hparts).2.2 a
    (List.mem_cons_of_mem _ hdisplaced.positional) k.value (List.mem_map_of_mem hdisplaced.keyword)
    v hv w hw d hvd d' hwd
  have hbefore : k.value.Before a := by
    refine ((laid e he).before_or_before hcall hdisplaced.positional
      hdisplaced.keyword).resolve_left fun h => ?_
    have := Nat.lt_of_lt_of_le (filled _ (hchild a hmem.1).tidy.fit) h
    exact absurd hdisplaced.later (Nat.not_lt.mpr this.le)
  have hlt := hbefore.start_lt filled (hchild _ hmem.2) (hchild _ hmem.1) hw hv
  rw [Expr.eq_call hvd, Expr.eq_call hwd] at hlt
  exact absurd hlt (Nat.not_lt.mpr hle)

theorem sourceOrder_of_parse {text : String} {m : Module} (h : parse text = .ok m) :
    SourceOrder m := by
  obtain ⟨tokens, hordered, htidy, hrow, hnodes⟩ := exists_laid_of_parse h
  have filled : ∀ s, Bounds tokens s → s.start < s.stop := fun s hs => hs.start_lt_stop hordered
  have laid : ∀ e ∈ m.expressions, e.Laid (Bounds tokens) := fun e he => by
    obtain ⟨htidy, hinOrder⟩ := hnodes _ (Module.mem_expressions_iff.mp he)
    exact ⟨htidy, hinOrder⟩
  have hprecede := pairwise_expressions_precede filled htidy hrow (fun v hv => (hnodes v hv).2) laid
  refine ⟨fun e => Module.mem_expressions_iff, fun e he => (laid e he).children_iff filled,
    fun c hc => ?_,
    List.pairwise_filterMap.trans ⟨fun hpairs c hc a k hdisplaced => ?_, fun hnone => ?_⟩⟩
  · obtain ⟨e, he, hcall⟩ := List.mem_filterMap.mp hc
    obtain rfl := Expr.eq_call hcall
    obtain ⟨hargs, hvalues⟩ := (laid _ he).groups
    have hlt : ∀ {es : List Expr}, es ⊆ (Expr.call c.span c.func c.args c.keywords).children →
        es.Pairwise Expr.Before → es.Pairwise fun x y => x.span.start < y.span.start := by
      intro es hes h
      exact h.imp_of_mem fun hx _ hbefore =>
        Nat.lt_of_lt_of_le ((laid _ he).start_lt_stop filled (hes hx)) hbefore
    exact ⟨hlt (List.subset_append_left _ _) hargs, hlt (by simp [Expr.children]) hvalues⟩
  · obtain ⟨e, he, hcall⟩ := List.mem_filterMap.mp hc
    exact calls_eq_nil_of_pairwise filled laid hpairs he hcall hdisplaced
  · refine hprecede.imp fun {v w} hvw c hc d hd => ?_
    rcases hvw with hle | ⟨b, hb, a, k, hdisplaced, hv, hw⟩
    · rwa [Expr.eq_call hc, Expr.eq_call hd] at hle
    · rcases hnone b hb a k hdisplaced with hnil | hnil
      · exact absurd (show c ∈ a.calls from List.mem_filterMap.mpr ⟨v, hv, hc⟩)
          (hnil ▸ List.not_mem_nil)
      · exact absurd (show d ∈ k.value.calls from List.mem_filterMap.mpr ⟨w, hw, hd⟩)
          (hnil ▸ List.not_mem_nil)

/-- A script with arguments of both kinds in either order. -/
def mixedText : String := "if f(a, *b, k=g(h)):\n    f(a=1, *g())(c=h())\n"

theorem sourceOrder_mixedText : ∃ m, parse mixedText = .ok m ∧ SourceOrder m ∧
    m.calls.map (·.span.start) = [3, 14, 25, 25, 33, 40] := by
  have hparses : (parse mixedText).isOk = true := by decide +kernel
  have hcalls : (parse mixedText).toOption.map (·.calls.map (·.span.start)) =
      some [3, 14, 25, 25, 33, 40] := by decide +kernel
  obtain ⟨m, hparse⟩ := exists_parse_of_isOk hparses
  rw [hparse] at hcalls
  exact ⟨m, hparse, sourceOrder_of_parse hparse, Option.some.inj hcalls⟩

/-- The call in the keyword argument is listed last. -/
example : (parse "f(a=g(), *h())\n").toOption.map (·.calls.map (·.span.start)) =
    some [0, 10, 4] := by decide +kernel

end WorkflowAudit.Script
