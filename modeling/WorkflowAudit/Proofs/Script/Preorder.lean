import WorkflowAudit.Proofs.Data.Preorder
import WorkflowAudit.Proofs.Script.Visit

/-!
# Walks over scripts are recursions

The walks over statements and expressions take nodes off a stack. What they visit is what a
recursion over the tree lists: each node once, before its parts and these in their order. The depth
of a statement counts the blocks around it, and an expression is inside a lambda or comprehension
when the walk began inside one or one of them is above the expression.
-/

namespace WorkflowAudit.Script

open Walk

/-! ## Recursion over the tree -/

mutual

/-- An expression and everything inside it. -/
def Expr.preorder : Expr → Bool → List (Expr × Bool)
  | .name s id, inside => [(.name s id, inside)]
  | .literal s v, inside => [(.literal s v, inside)]
  | .member s value attr, inside => (.member s value attr, inside) :: value.preorder inside
  | .starred s value, inside => (.starred s value, inside) :: value.preorder inside
  | .call s func args keywords, inside =>
    (.call s func args keywords, inside) :: (func.preorder inside ++
      (Expr.preorderAll args inside ++ Expr.preorderKeywords keywords inside))
  | .dict s items, inside => (.dict s items, inside) :: Expr.preorderItems items inside
  | .list s items, inside => (.list s items, inside) :: Expr.preorderAll items inside
  | .tuple s items, inside => (.tuple s items, inside) :: Expr.preorderAll items inside
  | .set s items, inside => (.set s items, inside) :: Expr.preorderAll items inside
  | .closure s parts, inside => (.closure s parts, inside) :: Expr.preorderAll parts true
  | .compound s parts, inside => (.compound s parts, inside) :: Expr.preorderAll parts inside
termination_by structural e => e

def Expr.preorderAll : List Expr → Bool → List (Expr × Bool)
  | [], _ => []
  | e :: es, inside => e.preorder inside ++ Expr.preorderAll es inside
termination_by structural es => es

def Expr.preorderKeywords : List (Keyword Expr) → Bool → List (Expr × Bool)
  | [], _ => []
  | ⟨_, value, _⟩ :: keywords, inside =>
    value.preorder inside ++ Expr.preorderKeywords keywords inside
termination_by structural keywords => keywords

def Expr.preorderItems : List (DictItem Expr) → Bool → List (Expr × Bool)
  | [], _ => []
  | ⟨none, value⟩ :: items, inside => value.preorder inside ++ Expr.preorderItems items inside
  | ⟨some key, value⟩ :: items, inside =>
    key.preorder inside ++ (value.preorder inside ++ Expr.preorderItems items inside)
termination_by structural items => items

end

mutual

/-- A statement at a depth, and the statements inside it. -/
def Stmt.preorder : Stmt → Nat → List (Stmt × Nat)
  | .block s keyword name header body, depth =>
    (.block s keyword name header body, depth) :: Stmt.preorderAll body (depth + 1)
  | s, depth => [(s, depth)]
termination_by structural s => s

def Stmt.preorderAll : List Stmt → Nat → List (Stmt × Nat)
  | [], _ => []
  | s :: ss, depth => s.preorder depth ++ Stmt.preorderAll ss depth
termination_by structural ss => ss

end

namespace Expr

theorem visitScoped_cons (e : Expr) (inside : Bool) :
    visitScoped [(e, inside)] =
      (e, inside) :: visitScoped (e.children.map (·, inside || e.isClosure)) := by
  rw [visitScoped, List.append_nil]

mutual

theorem visitScoped_singleton (e : Expr) (inside : Bool) :
    visitScoped [(e, inside)] = e.preorder inside := by
  rw [visitScoped_cons]
  cases e with
  | name | literal => simp [children, visitScoped, preorder]
  | member s value | starred s value =>
    simp [children, isClosure, preorder, visitScoped_singleton value]
  | call s func args keywords =>
    rw [preorder, ← visitScoped_singleton func, ← visitScoped_map args, ← visitScoped_keywords keywords,
      ← visitScoped_append, ← visitScoped_append]
    simp [children, isClosure]
  | dict s items =>
    rw [preorder, ← visitScoped_items items]
    simp [children, isClosure]
  | closure s parts =>
    rw [preorder, ← visitScoped_map parts]
    simp [children, isClosure]
  | list s items | tuple s items | set s items | compound s items =>
    rw [preorder, ← visitScoped_map items]
    simp [children, isClosure]
termination_by structural e

theorem visitScoped_map (es : List Expr) (inside : Bool) :
    visitScoped (es.map (·, inside)) = preorderAll es inside := by
  cases es with
  | nil => simp [visitScoped, preorderAll]
  | cons e es =>
    rw [List.map_cons, ← List.singleton_append, visitScoped_append, visitScoped_singleton e,
      visitScoped_map es, preorderAll]
termination_by structural es

theorem visitScoped_keywords (keywords : List (Keyword Expr)) (inside : Bool) :
    visitScoped ((Keyword.valuesOf keywords).map (·, inside)) = preorderKeywords keywords inside := by
  cases keywords with
  | nil => simp [Keyword.valuesOf, visitScoped, preorderKeywords]
  | cons keyword keywords =>
    cases keyword with
    | mk arg value span =>
      rw [Keyword.valuesOf, List.map_cons, List.map_cons, ← List.singleton_append,
        visitScoped_append, visitScoped_singleton value, preorderKeywords,
        ← visitScoped_keywords keywords, Keyword.valuesOf]
termination_by structural keywords

theorem visitScoped_items (items : List (DictItem Expr)) (inside : Bool) :
    visitScoped ((items.flatMap DictItem.parts).map (·, inside)) = preorderItems items inside := by
  cases items with
  | nil => simp [visitScoped, preorderItems]
  | cons item items =>
    cases item with
    | mk key value =>
      rw [List.flatMap_cons, List.map_append, visitScoped_append, visitScoped_items items]
      cases key with
      | none =>
        rw [preorderItems, ← visitScoped_singleton value]
        rfl
      | some key =>
        rw [preorderItems, ← visitScoped_singleton value, ← visitScoped_singleton key,
          ← List.append_assoc, ← visitScoped_append]
        rfl
termination_by structural items

end

theorem walkScoped_eq_preorder (e : Expr) (inside : Bool) :
    e.walkScoped inside = e.preorder inside := visitScoped_singleton e inside

end Expr

namespace Stmt

theorem visit_append (ss rs : List (Stmt × Nat)) : visit (ss ++ rs) = visit ss ++ visit rs := by
  induction ss using visit.induct with
  | case1 => simp [visit]
  | case2 s depth ss ih =>
    rw [List.cons_append, visit, visit, ← List.append_assoc, ih]
    rfl

mutual

theorem visit_singleton (s : Stmt) (depth : Nat) : visit [(s, depth)] = s.preorder depth := by
  rw [visit, List.append_nil]
  cases s with
  | block span keyword name header body => rw [preorder, ← visit_map body, inner]
  | _ => simp [inner, visit, preorder]
termination_by structural s

theorem visit_map (ss : List Stmt) (depth : Nat) :
    visit (ss.map (·, depth)) = preorderAll ss depth := by
  cases ss with
  | nil => simp [visit, preorderAll]
  | cons s ss =>
    rw [List.map_cons, ← List.singleton_append, visit_append, visit_singleton s, visit_map ss,
      preorderAll]
termination_by structural ss

end

end Stmt

/-! ## Stacks -/

/-- The parts of an expression, which are inside a lambda or comprehension if the expression is
inside one or is one. -/
def Expr.scopedChildren (p : Expr × Bool) : List (Expr × Bool) :=
  p.1.children.map (·, p.2 || p.1.isClosure)

/-- The statements inside a statement, one level deeper. -/
def Stmt.deeper (p : Stmt × Nat) : List (Stmt × Nat) := p.1.inner.map (·, p.2 + 1)

theorem Expr.visits_walkScoped (e : Expr) (inside : Bool) :
    Visits scopedChildren [(e, inside)] (e.walkScoped inside) := by
  have visits : ∀ pending, Visits scopedChildren pending.reverse (visitScoped pending) := by
    intro pending
    induction pending using visitScoped.induct with
    | case1 =>
      rw [visitScoped]
      exact .done
    | case2 e inside pending within ih =>
      rw [visitScoped, List.reverse_cons]
      exact .visit (by rwa [List.reverse_append] at ih)
  exact visits [(e, inside)]

theorem Expr.map_walkScoped (e : Expr) (inside : Bool) :
    (e.walkScoped inside).map Prod.fst = e.walk := map_visitScoped [(e, inside)]

theorem Expr.visits_walk (e : Expr) : Visits children [e] e.walk := by
  have unscoped : ∀ p : Expr × Bool, p.1.children = (scopedChildren p).map Prod.fst := fun p => by
    simp [scopedChildren, Function.comp_def]
  rw [← e.map_walkScoped false]
  exact (e.visits_walkScoped false).map unscoped

theorem Module.visits_statements (m : Module) :
    Visits Stmt.deeper (m.body.map (·, 0)).reverse m.statements := by
  have visits : ∀ pending, Visits Stmt.deeper pending.reverse (Stmt.visit pending) := by
    intro pending
    induction pending using Stmt.visit.induct with
    | case1 =>
      rw [Stmt.visit]
      exact .done
    | case2 s depth pending ih =>
      rw [Stmt.visit, List.reverse_cons]
      exact .visit (by rwa [List.reverse_append] at ih)
  exact visits (m.body.map (·, 0))

/-! ## Paths -/

/-- Whether a lambda or comprehension is above the end of a path from an expression. -/
def Expr.Enclosed (e : Expr) (path : List Nat) : Prop :=
  ∃ above v, above <+: path ∧ above ≠ path ∧ descend children e above = some v ∧ v.isClosure = true

theorem Expr.not_enclosed_nil (e : Expr) : ¬e.Enclosed [] := by
  rintro ⟨above, v, hprefix, hne, -⟩
  exact hne (List.prefix_nil.mp hprefix)

theorem Expr.enclosed_cons {e c : Expr} {i : Nat} {path : List Nat} (hc : e.children[i]? = some c) :
    e.Enclosed (i :: path) ↔ e.isClosure = true ∨ c.Enclosed path := by
  constructor
  · rintro ⟨above, v, hprefix, hne, hv, hclosure⟩
    cases above with
    | nil =>
      cases hv
      exact .inl hclosure
    | cons j above =>
      obtain ⟨rfl, hprefix'⟩ := List.cons_prefix_cons.mp hprefix
      rw [descend, hc] at hv
      exact .inr ⟨above, v, hprefix', fun h => hne (congrArg _ h), hv, hclosure⟩
  · rintro (hclosure | ⟨above, v, hprefix, hne, hv, hclosure⟩)
    · exact ⟨[], e, List.nil_prefix, (List.cons_ne_nil i path).symm, rfl, hclosure⟩
    · refine ⟨i :: above, v, List.cons_prefix_cons.mpr ⟨rfl, hprefix⟩,
        fun h => hne (List.cons.inj h).2, ?_, hclosure⟩
      rw [descend, hc]
      exact hv

/-- A walk that tells where it is inside lambdas and comprehensions finds the same nodes. -/
theorem Expr.descend_scopedChildren (e : Expr) (inside : Bool) (path : List Nat) :
    (descend scopedChildren (e, inside) path).map Prod.fst = descend children e path ∧
    ∀ p, descend scopedChildren (e, inside) path = some p →
      (p.2 = true ↔ inside = true ∨ e.Enclosed path) := by
  induction path generalizing e inside with
  | nil =>
    refine ⟨rfl, ?_⟩
    rintro p ⟨⟩
    simp [e.not_enclosed_nil]
  | cons i path ih =>
    rw [descend, descend, scopedChildren, List.getElem?_map]
    cases hc : e.children[i]? with
    | none =>
      refine ⟨rfl, ?_⟩
      rintro p ⟨⟩
    | some c =>
      obtain ⟨same, flag⟩ := ih c (inside || e.isClosure)
      refine ⟨same, fun p hp => ?_⟩
      rw [flag p hp, enclosed_cons hc, Bool.or_eq_true, or_assoc]

theorem Stmt.descend_deeper (s : Stmt) (depth : Nat) (path : List Nat) :
    descend deeper (s, depth) path = (descend inner s path).map (·, depth + path.length) := by
  induction path generalizing s depth with
  | nil => rfl
  | cons i path ih =>
    rw [descend, descend, deeper, List.getElem?_map]
    cases s.inner[i]? with
    | none => rfl
    | some r =>
      refine (ih r (depth + 1)).trans ?_
      rw [List.length_cons, Nat.add_right_comm, Nat.add_assoc]
      rfl

/-! ## Walks -/

/-- The statements of a script, each with the number of blocks around it. -/
theorem Module.exists_paths_of_statements (m : Module) :
    ∃ paths, IsPreorder (among Stmt.inner m.body) paths ∧
      List.Forall₂ (fun path p => among Stmt.inner m.body path = some p.1 ∧
        path.length = p.2 + 1) paths m.statements := by
  have same : ∀ path, among Stmt.deeper (m.body.map (·, 0)) path =
      (among Stmt.inner m.body path).map (·, path.length - 1) := by
    rintro (_ | ⟨i, path⟩)
    · rfl
    · rw [among, among, List.getElem?_map]
      cases m.body[i]? with
      | none => rfl
      | some s =>
        refine (s.descend_deeper 0 path).trans ?_
        rw [Nat.zero_add, List.length_cons, Nat.add_sub_cancel]
        rfl
  obtain ⟨paths, ⟨ordered, all⟩, found⟩ := m.visits_statements.exists_paths
  rw [List.reverse_reverse] at all found
  refine ⟨paths, ⟨ordered, fun path => by rw [all, same, Option.isSome_map]⟩, found.imp ?_⟩
  rintro (_ | ⟨i, path⟩) p there
  · cases there
  · rw [same] at there
    obtain ⟨s, hs, rfl⟩ := Option.map_eq_some_iff.mp there
    exact ⟨hs, rfl⟩

/-- The expressions inside an expression, each with whether it is inside a lambda or
comprehension. -/
theorem Expr.exists_paths_of_walk (e : Expr) :
    ∃ paths, IsPreorder (descend children e) paths ∧
      List.Forall₂ (fun path v => descend children e path = some v) paths e.walk ∧
      ∀ inside, List.Forall₂ (fun path p => descend children e path = some p.1 ∧
        (p.2 = true ↔ inside = true ∨ e.Enclosed path)) paths (e.walkScoped inside) := by
  obtain ⟨paths, preorder, found⟩ := e.visits_walk.exists_paths_of_node
  refine ⟨paths, preorder, found, fun inside => ?_⟩
  obtain ⟨paths', preorder', found'⟩ := (e.visits_walkScoped inside).exists_paths_of_node
  obtain rfl : paths' = paths := preorder'.unique preorder fun path => by
    rw [← (e.descend_scopedChildren inside path).1, Option.isSome_map]
  refine found'.imp fun path p there => ?_
  obtain ⟨same, flag⟩ := e.descend_scopedChildren inside path
  exact ⟨by rw [← same, there]; rfl, flag p there⟩

/-- The walks over scripts and expressions, which take nodes off a stack, list what a recursion over
the tree lists: each node once and in pre-order, with its depth or with whether a lambda or
comprehension is around it. -/
theorem walks_eq_preorder :
    (∀ m : Module,
      (∀ visited, Visits Stmt.deeper (m.body.map (·, 0)).reverse visited ↔ visited = m.statements) ∧
      m.statements = Stmt.preorderAll m.body 0 ∧
      ∃ paths, IsPreorder (among Stmt.inner m.body) paths ∧
        List.Forall₂ (fun path p => among Stmt.inner m.body path = some p.1 ∧
          path.length = p.2 + 1) paths m.statements) ∧
    ∀ e : Expr,
      (∀ visited, Visits Expr.children [e] visited ↔ visited = e.walk) ∧
      (∀ inside visited, Visits Expr.scopedChildren [(e, inside)] visited ↔
        visited = e.walkScoped inside) ∧
      (∀ inside, e.walkScoped inside = e.preorder inside ∧
        e.walk = (e.preorder inside).map Prod.fst) ∧
      ∃ paths, IsPreorder (descend Expr.children e) paths ∧
        List.Forall₂ (fun path v => descend Expr.children e path = some v) paths e.walk ∧
        ∀ inside, List.Forall₂ (fun path p => descend Expr.children e path = some p.1 ∧
          (p.2 = true ↔ inside = true ∨ e.Enclosed path)) paths (e.walkScoped inside) := by
  have decides : ∀ {α : Type} {parts : α → List α} {stack visited : List α},
      Visits parts stack visited → ∀ visited', Visits parts stack visited' ↔ visited' = visited :=
    fun visits visited' => ⟨fun other => other.unique visits, fun same => same ▸ visits⟩
  refine ⟨fun m => ⟨decides m.visits_statements, Stmt.visit_map m.body 0,
    m.exists_paths_of_statements⟩, fun e => ⟨decides e.visits_walk,
    fun inside => decides (e.visits_walkScoped inside), fun inside => ?_, e.exists_paths_of_walk⟩⟩
  have scan := e.walkScoped_eq_preorder inside
  exact ⟨scan, by rw [← scan, e.map_walkScoped]⟩

end WorkflowAudit.Script
