import Mathlib.Data.List.Pairwise
import WorkflowAudit.Proofs.Script.Laminar
import WorkflowAudit.Proofs.Script.Walk

/-!
# The order of a visit

A walk visits an expression before what is inside it. So of two expressions that it visits, the
second one is inside the first one or apart from it.
-/

namespace WorkflowAudit.Script

/-! ## Expressions -/

theorem Expr.visit_append (es fs : List Expr) : visit (es ++ fs) = visit es ++ visit fs := by
  induction es using visit.induct with
  | case1 => simp [visit]
  | case2 e es ih =>
    rw [List.cons_append, visit, visit, ← List.append_assoc, ih]
    rfl

/-- The expression that a node holds. -/
def Node.held : Node → Expr
  | .expression e => e
  | .argument k => k.value
  | .statement _ => default

theorem children_eq_map_held (e : Expr) :
    e.children = (Node.expression e).children.map Node.held := by
  cases e with
  | call => simp [Expr.children, Node.children, Node.held, Keyword.valuesOf, Function.comp_def]
  | _ => simp [Expr.children, Node.children, Node.held, Function.comp_def]

variable {fits : Span → Prop}

/-- Whether expressions are tidy and apart from each other. -/
structure TidyRow (fits : Span → Prop) (es : List Expr) : Prop where
  tidy : ∀ e ∈ es, (Node.expression e).Tidy fits
  apart : es.Pairwise fun e f => (Node.expression e).Apart (.expression f)

theorem Node.Tidy.held {n : Node} (h : n.Tidy fits) (plain : n.asStatement? = none) :
    (expression n.held).Tidy fits ∧ n.span.contains n.held.span = true := by
  cases n with
  | statement s => cases plain
  | expression e => exact ⟨h, contains_self _⟩
  | argument k =>
    cases h with
    | intro fit within apart below =>
      exact ⟨below _ (List.mem_singleton_self _), within _ (List.mem_singleton_self _)⟩

/-- The direct parts of a tidy expression lie in it, tidy and apart. -/
theorem TidyRow.children {e : Expr} (h : (Node.expression e).Tidy fits) :
    TidyRow fits e.children ∧ ∀ c ∈ e.children, e.span.contains c.span = true := by
  cases h with
  | intro fit within apart below =>
    have held : ∀ n ∈ (Node.expression e).children, (Node.expression n.held).Tidy fits ∧
        n.span.contains n.held.span = true := fun n member =>
      (below n member).held (Node.asStatement?_of_mem_children rfl member)
    rw [children_eq_map_held]
    refine ⟨⟨List.forall_mem_map.mpr fun n member => (held n member).1, ?_⟩,
      List.forall_mem_map.mpr fun n member =>
        Node.contains_trans (within n member) (held n member).2⟩
    rw [List.pairwise_map]
    exact apart.imp_of_mem fun member member' apart =>
      apart.mono (held _ member).2 (held _ member').2

theorem Node.Tidy.reached {n v : Node} (h : n.Tidy fits) (inside : Reached [n] v) :
    v.Tidy fits ∧ n.span.contains v.span = true := by
  obtain ⟨path, found⟩ := inside
  cases path with
  | nil => cases found
  | cons i path =>
    obtain ⟨n', first, below⟩ := Node.among?_cons.mp found
    obtain rfl := List.mem_singleton.mp (List.mem_of_getElem? first)
    exact h.at? below

theorem TidyRow.reached {es : List Expr} {v : Node} (h : TidyRow fits es)
    (inside : Node.Reached (es.map .expression) v) : v.Tidy fits := by
  obtain ⟨n, member, inside⟩ := Node.reached_iff.mp inside
  obtain ⟨e, he, rfl⟩ := List.mem_map.mp member
  exact ((h.tidy e he).reached (Node.reached_singleton.mpr inside)).1

/-- The expressions of a tidy statement. -/
theorem TidyRow.exprs {s : Stmt} (h : (Node.statement s).Tidy fits) : TidyRow fits s.exprs := by
  cases h with
  | intro fit within apart below =>
    refine ⟨fun e he => below _ (List.mem_append_left _ (List.mem_map_of_mem he)), ?_⟩
    exact List.pairwise_map.mp (List.pairwise_append.mp apart).1

theorem Expr.visitScoped_append (pending more : List (Expr × Bool)) :
    visitScoped (pending ++ more) = visitScoped pending ++ visitScoped more := by
  induction pending using visitScoped.induct with
  | case1 => simp [visitScoped]
  | case2 e inside pending within ih =>
    rw [List.cons_append, visitScoped, visitScoped, ← List.append_assoc, ih]
    rfl

/-- Of two visited expressions, the second one is inside the first one or apart from it. -/
theorem pairwise_visitScoped {pending : List (Expr × Bool)}
    (h : TidyRow fits (pending.map Prod.fst)) :
    (Expr.visitScoped pending).Pairwise (fun a b =>
      Node.Reached (Node.expression a.1).children (.expression b.1) ∨
        (Node.expression a.1).Apart (.expression b.1)) ∧
    ∀ v ∈ Expr.visitScoped pending,
      Node.Reached (pending.map fun e => .expression e.1) (.expression v.1) := by
  induction pending using Expr.visitScoped.induct with
  | case1 => simp [Expr.visitScoped]
  | case2 e inside pending within ih =>
    rw [Expr.visitScoped]
    have first := h.tidy e (by simp)
    obtain ⟨parts, among⟩ := TidyRow.children first
    obtain ⟨before, others⟩ := List.pairwise_cons.mp h.apart
    have row : TidyRow fits ((e.children.map (·, within) ++ pending).map Prod.fst) := by
      rw [List.map_append, List.map_map, show Prod.fst ∘ (·, within) = id from rfl, List.map_id]
      refine ⟨fun f hf => (List.mem_append.mp hf).elim (parts.tidy f) fun hf =>
        h.tidy f (List.mem_cons_of_mem e hf), List.pairwise_append.mpr ⟨parts.apart, others, ?_⟩⟩
      exact fun c hc f hf => (before f hf).mono (among c hc) (Node.contains_self _)
    obtain ⟨inTurn, reached⟩ := ih row
    have below : ∀ v ∈ Expr.visitScoped (e.children.map (·, within) ++ pending),
        Node.Reached (Node.expression e).children (.expression v.1) ∨
          Node.Reached (pending.map fun e => .expression e.1) (.expression v.1) := by
      intro v hv
      have found := reached v hv
      rw [List.map_append, Node.Reached.append_iff, List.map_map] at found
      exact found.imp_left Node.reached_children
    refine ⟨List.pairwise_cons.mpr ⟨fun v hv => (below v hv).imp_right fun found => ?_, inTurn⟩, ?_⟩
    · obtain ⟨n, hn, inside⟩ := Node.reached_iff.mp found
      obtain ⟨f, hf, rfl⟩ := List.mem_map.mp hn
      refine (before f.1 (List.mem_map_of_mem hf)).mono (Node.contains_self _) ?_
      exact ((h.tidy f.1 (List.mem_cons_of_mem e (List.mem_map_of_mem hf))).reached
        (Node.reached_singleton.mpr inside)).2
    · intro v hv
      rw [List.map_cons, ← List.singleton_append, Node.Reached.append_iff, Node.reached_singleton]
      rcases List.mem_cons.mp hv with rfl | hv
      · exact .inl (.inl rfl)
      · exact (below v hv).imp_left .inr

/-! ## Scripts -/

/-- Whether an expression is inside another one or apart from it. -/
def Expr.Follows (e f : Expr) : Prop :=
  Node.Reached (Node.expression e).children (.expression f) ∨
    (Node.expression e).Apart (.expression f)

theorem Expr.map_visitScoped (pending : List (Expr × Bool)) :
    (visitScoped pending).map Prod.fst = visit (pending.map Prod.fst) := by
  induction pending using visitScoped.induct with
  | case1 => simp [visitScoped, visit]
  | case2 e inside pending within ih =>
    rw [visitScoped, List.map_cons, ih, List.map_cons, visit]
    simp [Function.comp_def]

theorem Expr.flatMap_walk (es : List Expr) : es.flatMap walk = visit es := by
  induction es with
  | nil => simp [visit]
  | cons e es ih => rw [List.flatMap_cons, ih, walk, ← visit_append, List.singleton_append]

theorem pairwise_visit {es : List Expr} (h : TidyRow fits es) :
    (Expr.visit es).Pairwise Expr.Follows := by
  have unscoped : (es.map (·, false)).map Prod.fst = es := by simp [Function.comp_def]
  rw [← unscoped, ← Expr.map_visitScoped, List.pairwise_map]
  exact (pairwise_visitScoped (unscoped.symm ▸ h)).1

/-- The expressions of a statement are inside it and apart from the statements inside it. -/
theorem Node.Tidy.ofStatement {s : Stmt} (h : (Node.statement s).Tidy fits) :
    (∀ e ∈ s.exprs, s.span.contains e.span = true) ∧
      (∀ e ∈ s.exprs, ∀ r ∈ s.inner, (expression e).Apart (statement r)) ∧
      (∀ r ∈ s.inner, (statement r).Tidy fits ∧ s.span.contains r.span = true) ∧
      s.inner.Pairwise fun r t => (statement r).Apart (statement t) := by
  cases h with
  | intro fit within apart below =>
    have expression : ∀ e ∈ s.exprs, Node.expression e ∈ (Node.statement s).children :=
      fun e he => List.mem_append_left _ (List.mem_map_of_mem he)
    have statement : ∀ r ∈ s.inner, Node.statement r ∈ (Node.statement s).children :=
      fun r hr => List.mem_append_right _ (List.mem_map_of_mem hr)
    obtain ⟨-, inner, between⟩ := List.pairwise_append.mp apart
    exact ⟨fun e he => within _ (expression e he),
      fun e he r hr => between _ (List.mem_map_of_mem he) _ (List.mem_map_of_mem hr),
      fun r hr => ⟨below _ (statement r hr), within _ (statement r hr)⟩, List.pairwise_map.mp inner⟩

/-- What lies inside related nodes is related. -/
def Node.Narrows (R : Node → Node → Prop) : Prop :=
  ∀ {n m v w : Node}, R n m → n.span.contains v.span = true → m.span.contains w.span = true → R v w

/-- Whether the header and the statements of a block are related, each to those after it. -/
structure Stmt.Related (R : Node → Node → Prop) (s : Stmt) : Prop where
  header : ∀ e ∈ s.exprs, ∀ r ∈ s.inner, R (.expression e) (.statement r)
  inner : s.inner.Pairwise fun r t => R (.statement r) (.statement t)

variable {R : Node → Node → Prop}

/-- Of two statements that a walk meets, the expressions of the one are related to those of the
other. -/
theorem pairwise_visitStatements (narrows : Node.Narrows R) (ss : List (Stmt × Nat))
    (tidy : ∀ p ∈ ss, (Node.statement p.1).Tidy fits)
    (row : ss.Pairwise fun p q => R (.statement p.1) (.statement q.1))
    (related : ∀ s, Node.Reached (ss.map fun p => .statement p.1) (.statement s) → s.Related R) :
    (Stmt.visit ss).Pairwise (fun p q => ∀ e ∈ p.1.exprs, ∀ f ∈ q.1.exprs,
      R (.expression e) (.expression f)) ∧
    ∀ v ∈ Stmt.visit ss, (Node.statement v.1).Tidy fits ∧
      ∃ p ∈ ss, p.1.span.contains v.1.span = true := by
  induction ss using Stmt.visit.induct with
  | case1 => simp [Stmt.visit]
  | case2 s depth pending ih =>
    rw [Stmt.visit]
    obtain ⟨first, others⟩ := List.forall_mem_cons.mp tidy
    obtain ⟨before, later⟩ := List.pairwise_cons.mp row
    obtain ⟨exprs, -, inner, -⟩ := first.ofStatement
    obtain ⟨between, inTurn⟩ := related s (Node.reached_iff.mpr ⟨_, List.mem_cons_self, .inl rfl⟩)
    have neat : ∀ p ∈ s.inner.map (·, depth + 1) ++ pending, (Node.statement p.1).Tidy fits :=
      List.forall_mem_append.mpr
        ⟨List.forall_mem_map.mpr fun r hr => (inner r hr).1, others⟩
    have row' : (s.inner.map (·, depth + 1) ++ pending).Pairwise fun p q =>
        R (.statement p.1) (.statement q.1) := by
      refine List.pairwise_append.mpr ⟨List.pairwise_map.mpr inTurn, later, ?_⟩
      exact List.forall_mem_map.mpr fun r hr q hq =>
        narrows (before q hq) (inner r hr).2 (Node.contains_self _)
    obtain ⟨visited, found⟩ := ih neat row' fun r hr => related r (by
      rw [List.map_append, List.map_map, Node.Reached.append_iff] at hr
      rw [List.map_cons, ← List.singleton_append, Node.Reached.append_iff, Node.reached_singleton]
      exact hr.imp_left fun inside => .inr (Node.Reached.append_iff.mpr (.inr inside)))
    refine ⟨List.pairwise_cons.mpr ⟨fun v hv e he f hf => ?_, visited⟩, ?_⟩
    · obtain ⟨neat, p, hp, within⟩ := found v hv
      have reach := Node.contains_trans within (neat.ofStatement.1 f hf)
      rcases List.mem_append.mp hp with hp | hp
      · obtain ⟨r, hr, rfl⟩ := List.mem_map.mp hp
        exact narrows (between e he r hr) (Node.contains_self _) reach
      · exact narrows (before p hp) (exprs e he) reach
    · intro v hv
      rcases List.mem_cons.mp hv with rfl | hv
      · exact ⟨first, _, List.mem_cons_self, Node.contains_self (.statement s)⟩
      · obtain ⟨neat, p, hp, within⟩ := found v hv
        refine ⟨neat, ?_⟩
        rcases List.mem_append.mp hp with hp | hp
        · obtain ⟨r, hr, rfl⟩ := List.mem_map.mp hp
          exact ⟨_, List.mem_cons_self, Node.contains_trans (inner r hr).2 within⟩
        · exact ⟨p, List.mem_cons_of_mem _ hp, within⟩

/-- Of two expressions that the walk over a script meets in different statements, the first one is
related to the second one. -/
theorem pairwise_expressions_of {m : Module} {S : Expr → Expr → Prop} (narrows : Node.Narrows R)
    (tidy : ∀ n ∈ m.body.map Node.statement, n.Tidy fits)
    (row : (m.body.map Node.statement).Pairwise R)
    (related : ∀ s, Node.Reached (m.body.map .statement) (.statement s) → s.Related R)
    (within : ∀ s, Node.Reached (m.body.map .statement) (.statement s) →
      (Node.statement s).Tidy fits → (Expr.visit s.exprs).Pairwise S)
    (across : ∀ e ∈ m.expressions, ∀ f ∈ m.expressions, R (.expression e) (.expression f) → S e f) :
    m.expressions.Pairwise S := by
  have unnumbered : (m.body.map (·, 0)).map (fun p : Stmt × Nat => Node.statement p.1) =
      m.body.map .statement := by simp [Function.comp_def]
  obtain ⟨inTurn, found⟩ := pairwise_visitStatements narrows (m.body.map (·, 0))
    (List.forall_mem_map.mpr fun s hs => tidy _ (List.mem_map_of_mem hs))
    (List.pairwise_map.mpr (List.pairwise_map.mp row)) (unnumbered ▸ related)
  have visits : m.expressions = m.statements.flatMap fun p => Expr.visit p.1.exprs := by
    simp only [Module.expressions, Expr.flatMap_walk]
  have below : ∀ {s : Stmt} {v : Expr}, (Node.statement s).Tidy fits → v ∈ Expr.visit s.exprs →
      ∃ root ∈ s.exprs, root.span.contains v.span = true := by
    intro s v tidy visited
    obtain ⟨n, hn, inside⟩ := Node.reached_iff.mp (Node.reached_of_mem_visit visited)
    obtain ⟨root, hroot, rfl⟩ := List.mem_map.mp hn
    exact ⟨root, hroot, (((TidyRow.exprs tidy).tidy root hroot).reached
      (Node.reached_singleton.mpr inside)).2⟩
  have reached : ∀ p ∈ m.statements, Node.Reached (m.body.map .statement) (.statement p.1) :=
    fun p hp => Module.exists_path_of_mem_statements hp
  rw [visits] at across ⊢
  refine List.pairwise_flatMap.mpr ⟨fun p hp => within p.1 (reached p hp) (found p hp).1,
    inTurn.imp_of_mem fun {p q} hp hq related e he f hf => ?_⟩
  obtain ⟨a, ha, within⟩ := below (found p hp).1 he
  obtain ⟨b, hb, within'⟩ := below (found q hq).1 hf
  exact across e (List.mem_flatMap.mpr ⟨p, hp, he⟩) f (List.mem_flatMap.mpr ⟨q, hq, hf⟩)
    (narrows (related a ha b hb) within within')

/-- Of two expressions that the walk over a script meets, the second one is inside the first one or
apart from it. -/
theorem pairwise_expressions {m : Module}
    (tidy : ∀ n ∈ m.body.map Node.statement, n.Tidy fits)
    (apart : (m.body.map Node.statement).Pairwise Node.Apart) :
    m.expressions.Pairwise Expr.Follows := by
  refine pairwise_expressions_of (fun h => h.mono) tidy apart (fun s ⟨_, hs⟩ => ?_)
    (fun s _ tidy => pairwise_visit (TidyRow.exprs tidy)) (fun _ _ _ _ => .inr)
  obtain ⟨-, between, -, inTurn⟩ := (Node.tidy_of_among? tidy hs).ofStatement
  exact ⟨between, inTurn⟩

end WorkflowAudit.Script
