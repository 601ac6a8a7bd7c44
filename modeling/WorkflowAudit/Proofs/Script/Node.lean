import Mathlib.Tactic.Common
import WorkflowAudit.Script.Walk

/-!
# Nodes and paths

A node of a tree is a statement, an expression or a keyword argument. A path is the list of
positions on the way down to a node, so that one node is inside another one exactly when its
path goes on where the other path ends. The walks over a script meet only nodes at some path.
-/

namespace WorkflowAudit.Script

/-- A node of a syntax tree. -/
inductive Node where
  | statement (s : Stmt)
  | expression (e : Expr)
  /-- A keyword argument with its name. -/
  | argument (k : Keyword Expr)

namespace Node

def span : Node → Span
  | .statement s => s.span
  | .expression e => e.span
  | .argument k => k.span

/-- The statement that a node is. -/
def asStatement? : Node → Option Stmt
  | .statement s => some s
  | _ => none

/-- The nodes directly inside a node. -/
def children : Node → List Node
  | .statement s => s.exprs.map expression ++ s.inner.map statement
  | .expression (.call _ func args keywords) =>
    expression func :: (args.map expression ++ keywords.map argument)
  | .expression e => e.children.map expression
  | .argument k => [expression k.value]

/-- The node at the end of a path that begins at a node. -/
def at? : Node → List Nat → Option Node
  | n, [] => some n
  | n, i :: path => n.children[i]?.bind fun child => child.at? path

/-- The node at the end of a path whose first position is one among some nodes. -/
def among? (nodes : List Node) : List Nat → Option Node
  | [] => none
  | i :: path => nodes[i]?.bind fun n => n.at? path

theorem children_of_plain {e : Expr} (h : e.asCall? = none) :
    (expression e).children = e.children.map expression := by
  cases e with
  | call => cases h
  | _ => rfl

theorem at?_eq_some_iff {n v : Node} {path : List Nat} :
    n.at? path = some v ↔ (path = [] ∧ v = n) ∨ among? n.children path = some v := by
  cases path with
  | nil => simp [at?, among?, eq_comm]
  | cons i path => simp [at?, among?]

theorem among?_cons {nodes : List Node} {i : Nat} {path : List Nat} {v : Node} :
    among? nodes (i :: path) = some v ↔ ∃ n, nodes[i]? = some n ∧ n.at? path = some v := by
  simp [among?, Option.bind_eq_some_iff]

/-! ## Nodes at some path -/

/-- Whether a node stands somewhere among or inside some nodes. -/
def Reached (nodes : List Node) (v : Node) : Prop := ∃ path, among? nodes path = some v

theorem reached_iff {nodes : List Node} {v : Node} :
    Reached nodes v ↔ ∃ n ∈ nodes, v = n ∨ Reached n.children v := by
  constructor
  · rintro ⟨_ | ⟨i, path⟩, h⟩
    · cases h
    · obtain ⟨n, hn, hv⟩ := among?_cons.mp h
      refine ⟨n, List.mem_of_getElem? hn, ?_⟩
      exact (at?_eq_some_iff.mp hv).imp And.right fun hinside => ⟨path, hinside⟩
  · rintro ⟨n, hn, hv⟩
    obtain ⟨i, hi⟩ := List.mem_iff_getElem?.mp hn
    rcases hv with rfl | ⟨path, hinside⟩
    · exact ⟨[i], among?_cons.mpr ⟨v, hi, rfl⟩⟩
    · exact ⟨i :: path, among?_cons.mpr ⟨n, hi, at?_eq_some_iff.mpr (.inr hinside)⟩⟩

@[simp] theorem not_reached_nil (v : Node) : ¬Reached [] v := by
  rintro ⟨_ | ⟨i, path⟩, h⟩ <;> cases h

theorem reached_singleton {n v : Node} : Reached [n] v ↔ v = n ∨ Reached n.children v := by
  rw [reached_iff]
  simp only [List.mem_singleton, exists_eq_left]

/-- What is inside a node that is reached is reached. -/
theorem Reached.below {ns : List Node} {v w : Node} (h : Reached ns v)
    (hw : Reached v.children w) : Reached ns w := by
  obtain ⟨path, hpath⟩ := h
  induction path generalizing ns with
  | nil => cases hpath
  | cons i path ih =>
    obtain ⟨n, hn, hv⟩ := among?_cons.mp hpath
    refine reached_iff.mpr ⟨n, List.mem_of_getElem? hn, .inr ?_⟩
    rcases at?_eq_some_iff.mp hv with ⟨-, rfl⟩ | hinside
    · exact hw
    · exact ih hinside

theorem Reached.mono {ns ms : List Node} {v : Node} (h : Reached ns v) (hsub : ns ⊆ ms) :
    Reached ms v := by
  obtain ⟨n, hn, hv⟩ := reached_iff.mp h
  exact reached_iff.mpr ⟨n, hsub hn, hv⟩

theorem Reached.append_iff {ns ms : List Node} {v : Node} :
    Reached (ns ++ ms) v ↔ Reached ns v ∨ Reached ms v := by
  rw [reached_iff, @reached_iff ns, @reached_iff ms]
  simp only [List.mem_append, or_and_right, exists_or]

/-- What is inside the direct parts of an expression is inside the expression, below a keyword
    argument or not. -/
theorem reached_children {e : Expr} {v : Node} (h : Reached (e.children.map expression) v) :
    Reached (expression e).children v := by
  cases e with
  | call span func args keywords =>
    obtain ⟨n, hn, hv⟩ := reached_iff.mp h
    simp only [Expr.children, Keyword.valuesOf, List.cons_append, List.map_cons, List.map_append,
      List.map_map, List.mem_cons, List.mem_append, List.mem_map] at hn
    have hdirect : n ∈ (expression (.call span func args keywords)).children →
        Reached (expression (.call span func args keywords)).children v :=
      fun hmem => reached_iff.mpr ⟨n, hmem, hv⟩
    rcases hn with rfl | ⟨a, ha, rfl⟩ | ⟨k, hk, rfl⟩
    · exact hdirect (by simp [children])
    · exact hdirect (by simp [children, ha])
    · refine reached_iff.mpr ⟨argument k, by simp [children, hk], .inr ?_⟩
      exact reached_iff.mpr ⟨_, List.mem_singleton_self _, hv⟩
  | _ => exact h

theorem reached_of_mem_visit {es : List Expr} {v : Expr} (h : v ∈ Expr.visit es) :
    Reached (es.map expression) (expression v) := by
  induction es using Expr.visit.induct with
  | case1 => simp [Expr.visit] at h
  | case2 e es ih =>
    rw [Expr.visit] at h
    rw [List.map_cons]
    have hfirst : ∀ {w}, w = expression e ∨ Reached (expression e).children w →
        Reached (expression e :: es.map expression) w :=
      fun hw => reached_iff.mpr ⟨_, List.mem_cons_self, hw⟩
    rcases List.mem_cons.mp h with rfl | h
    · exact hfirst (.inl rfl)
    · have hrest := ih h
      rw [List.map_append, Reached.append_iff] at hrest
      rcases hrest with hinside | hlater
      · exact hfirst (.inr (reached_children hinside))
      · exact (@Reached.append_iff [expression e] _ _).mpr (.inr hlater)

theorem reached_of_mem_statements {ss : List (Stmt × Nat)} {s : Stmt} {d : Nat}
    (h : (s, d) ∈ Stmt.visit ss) : Reached (ss.map fun p => statement p.1) (statement s) := by
  induction ss using Stmt.visit.induct with
  | case1 => simp [Stmt.visit] at h
  | case2 r n ss ih =>
    rw [Stmt.visit] at h
    rw [List.map_cons]
    have hfirst : ∀ {w}, w = statement r ∨ Reached (statement r).children w →
        Reached (statement r :: ss.map fun p => statement p.1) w :=
      fun hw => reached_iff.mpr ⟨_, List.mem_cons_self, hw⟩
    rcases List.mem_cons.mp h with heq | h
    · obtain ⟨rfl, -⟩ := Prod.mk.inj heq
      exact hfirst (.inl rfl)
    · have hrest := ih h
      rw [List.map_append, List.map_map, Reached.append_iff] at hrest
      rcases hrest with hinside | hlater
      · exact hfirst (.inr (Reached.append_iff.mpr (.inr hinside)))
      · exact (@Reached.append_iff [statement r] _ _).mpr (.inr hlater)

end Node

namespace Module

/-- The node of a script at the end of a path, which begins with the position of a statement. -/
def at? (m : Module) (path : List Nat) : Option Node :=
  Node.among? (m.body.map Node.statement) path

theorem at?_of_body {m : Module} {i : Nat} {s : Stmt} (h : m.body[i]? = some s) :
    m.at? [i] = some (.statement s) :=
  Node.among?_cons.mpr ⟨.statement s, by simp [h], rfl⟩

/-- Every statement that a walk over a script meets is at some path. -/
theorem exists_path_of_mem_statements {m : Module} {s : Stmt} {d : Nat}
    (h : (s, d) ∈ m.statements) : ∃ path, m.at? path = some (.statement s) := by
  have hreached := Node.reached_of_mem_statements h
  rwa [List.map_map] at hreached

/-- Every expression that a walk over a script meets is at some path. -/
theorem exists_path_of_mem_expressions {m : Module} {e : Expr} (h : e ∈ m.expressions) :
    ∃ path, m.at? path = some (.expression e) := by
  obtain ⟨⟨s, d⟩, hs, he⟩ := List.mem_flatMap.mp h
  obtain ⟨root, hroot, he⟩ := List.mem_flatMap.mp he
  have hinside : Node.Reached (Node.statement s).children (.expression e) := by
    refine (Node.reached_of_mem_visit he).mono fun n hn => ?_
    obtain rfl := List.mem_singleton.mp hn
    exact List.mem_append_left _ (List.mem_map_of_mem hroot)
  exact Node.Reached.below (exists_path_of_mem_statements hs) hinside

end Module

end WorkflowAudit.Script
