import WorkflowAudit.Script.Syntax

/-!
# Walks over syntax trees

Statements and expressions are visited in pre-order from a list of pending nodes: the first one
is visited and replaced by its parts. The measure of a pending list is the size of all its
nodes, and the parts of a node are smaller than the node.
-/

namespace WorkflowAudit.Script

namespace Keyword

/-- The values of keyword arguments. -/
def valuesOf (keywords : List (Keyword ε)) : List ε := keywords.map (·.value)

end Keyword

namespace DictItem

/-- Key and value of an entry. -/
def parts (item : DictItem ε) : List ε := item.key.toList ++ [item.value]

end DictItem

/-- Size of all nodes of a list. -/
def totalSize [SizeOf α] : List α → Nat
  | [] => 0
  | node :: nodes => sizeOf node + totalSize nodes

theorem totalSize_append [SizeOf α] (xs ys : List α) :
    totalSize (xs ++ ys) = totalSize xs + totalSize ys := by
  induction xs with
  | nil => simp [totalSize]
  | cons x xs ih => simp only [List.cons_append, totalSize, ih]; omega

theorem totalSize_cons [SizeOf α] (x : α) (xs : List α) :
    totalSize (x :: xs) = sizeOf x + totalSize xs := rfl

theorem totalSize_lt_sizeOf [SizeOf α] (xs : List α) : totalSize xs < sizeOf xs := by
  induction xs with
  | nil => simp [totalSize]
  | cons x xs ih => rw [totalSize_cons]; simp only [List.cons.sizeOf_spec]; omega

namespace Expr

/-- The direct parts of an expression in source order. -/
def children : Expr → List Expr
  | .name .. | .literal .. => []
  | .member _ value _ | .starred _ value => [value]
  | .call _ func args keywords => func :: args ++ Keyword.valuesOf keywords
  | .dict _ items => items.flatMap DictItem.parts
  | .list _ items | .tuple _ items | .set _ items | .closure _ items | .compound _ items => items

theorem totalSize_valuesOf (keywords : List (Keyword Expr)) :
    totalSize (Keyword.valuesOf keywords) < sizeOf keywords := by
  induction keywords with
  | nil => simp [Keyword.valuesOf, totalSize]
  | cons k ks ih =>
    cases k
    simp only [Keyword.valuesOf, List.map_cons, totalSize_cons, List.cons.sizeOf_spec,
      Keyword.mk.sizeOf_spec] at ih ⊢
    omega

theorem totalSize_parts (items : List (DictItem Expr)) :
    totalSize (items.flatMap DictItem.parts) < sizeOf items := by
  induction items with
  | nil => simp [totalSize]
  | cons item items ih =>
    obtain ⟨key, value⟩ := item
    rw [List.flatMap_cons, totalSize_append]
    cases key <;>
      simp only [DictItem.parts, Option.toList, List.nil_append, List.cons_append, totalSize_cons,
        List.cons.sizeOf_spec, DictItem.mk.sizeOf_spec, Option.some.sizeOf_spec] <;>
      simp only [totalSize] at ih ⊢ <;> omega

theorem totalSize_children (e : Expr) : totalSize e.children < sizeOf e := by
  cases e with
  | name | literal =>
    simp only [children, totalSize, Expr.name.sizeOf_spec, Expr.literal.sizeOf_spec]
    omega
  | member | starred =>
    simp only [children, totalSize, Expr.member.sizeOf_spec, Expr.starred.sizeOf_spec]
    omega
  | call span func args keywords =>
    have hk := totalSize_valuesOf keywords
    have ha := totalSize_lt_sizeOf args
    simp only [children, List.cons_append, totalSize_cons, totalSize_append,
      Expr.call.sizeOf_spec]
    omega
  | dict span items =>
    have := totalSize_parts items
    simp only [children, Expr.dict.sizeOf_spec]
    omega
  | list span items | tuple span items | set span items | closure span items
  | compound span items =>
    have := totalSize_lt_sizeOf items
    simp only [children, Expr.list.sizeOf_spec, Expr.tuple.sizeOf_spec, Expr.set.sizeOf_spec,
      Expr.closure.sizeOf_spec, Expr.compound.sizeOf_spec]
    omega

/-- All nodes of pending expressions, each before its parts. -/
def visit : List Expr → List Expr
  | [] => []
  | e :: pending => e :: visit (e.children ++ pending)
termination_by pending => totalSize pending
decreasing_by
  have := totalSize_children e
  simp only [totalSize_append, totalSize_cons]
  omega

/-- An expression and everything inside it, in pre-order. -/
def walk (e : Expr) : List Expr := visit [e]

def isClosure : Expr → Bool
  | .closure .. => true
  | _ => false

/-- Like `visit`; each node says whether it stands inside a lambda or comprehension. -/
def visitScoped : List (Expr × Bool) → List (Expr × Bool)
  | [] => []
  | (e, inside) :: pending =>
    let within := inside || e.isClosure
    (e, inside) :: visitScoped (e.children.map (·, within) ++ pending)
termination_by pending => totalSize (pending.map Prod.fst)
decreasing_by
  have := totalSize_children e
  simp only [List.map_append, List.map_map, Function.comp_def, List.map_id', totalSize_append,
    List.map_cons, totalSize_cons]
  omega

def walkScoped (e : Expr) (inside : Bool) : List (Expr × Bool) := visitScoped [(e, inside)]

end Expr

namespace Stmt

theorem totalSize_inner (s : Stmt) : totalSize s.inner < sizeOf s := by
  cases s with
  | block span keyword name header body =>
    have := totalSize_lt_sizeOf body
    simp only [inner, Stmt.block.sizeOf_spec]
    omega
  | _ => simp +arith [inner, totalSize]

/-- All pending statements with the statements inside them, each with its block depth. -/
def visit : List (Stmt × Nat) → List (Stmt × Nat)
  | [] => []
  | (s, depth) :: pending => (s, depth) :: visit (s.inner.map (·, depth + 1) ++ pending)
termination_by pending => totalSize (pending.map Prod.fst)
decreasing_by
  have := totalSize_inner s
  simp only [List.map_append, List.map_map, Function.comp_def, List.map_id', totalSize_append,
    List.map_cons, totalSize_cons]
  omega

/-- Names that a statement binds, without the statements inside it. -/
def boundNames : Stmt → List String
  | .assign _ targets _ => targets.flatMap fun t => t.walk.filterMap Expr.asName?
  | .annAssign _ target _ _ | .augAssign _ target _ => target.asName?.toList
  | .importNames _ names | .importFrom _ _ _ names => names.map Alias.boundName
  | .block _ _ name _ _ => name.toList
  | _ => []

end Stmt

namespace Module

/-- Every statement in source order with its block depth. -/
def statements (m : Module) : List (Stmt × Nat) := Stmt.visit (m.body.map (·, 0))

/-- Every expression of every statement, in pre-order. -/
def expressions (m : Module) : List Expr :=
  m.statements.flatMap fun (s, _) => s.exprs.flatMap Expr.walk

def calls (m : Module) : List Call := m.expressions.filterMap Expr.asCall?

/-- Names bound by assignments, imports, functions and classes, in source order. -/
def boundNames (m : Module) : List String :=
  m.statements.flatMap fun (s, _) => s.boundNames

/-- Line of a byte offset. -/
def lineOf (m : Module) (offset : Nat) : Nat := m.lines.lineOf offset

end Module

end WorkflowAudit.Script
