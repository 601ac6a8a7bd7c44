import WorkflowAudit.Proofs.Script.Joining
import WorkflowAudit.Script.Walk

/-!
# Trees of a text that comes after another one

The tree of a script carries the place of every node. Where the script stands behind other
text, the tree is the same but for its places.
-/

namespace WorkflowAudit.Script

namespace Expr

mutual

/-- The same tree with another span at every node. -/
def mapSpan (f : Span → Span) : Expr → Expr
  | .name s id => .name (f s) id
  | .member s value attr => .member (f s) (value.mapSpan f) attr
  | .call s func args keywords =>
    .call (f s) (func.mapSpan f) (mapSpans f args) (mapKeywordSpans f keywords)
  | .literal s value => .literal (f s) value
  | .dict s items => .dict (f s) (mapItemSpans f items)
  | .list s items => .list (f s) (mapSpans f items)
  | .tuple s items => .tuple (f s) (mapSpans f items)
  | .set s items => .set (f s) (mapSpans f items)
  | .starred s value => .starred (f s) (value.mapSpan f)
  | .closure s parts => .closure (f s) (mapSpans f parts)
  | .compound s parts => .compound (f s) (mapSpans f parts)

def mapSpans (f : Span → Span) : List Expr → List Expr
  | [] => []
  | e :: es => e.mapSpan f :: mapSpans f es

def mapKeywordSpans (f : Span → Span) : List (Keyword Expr) → List (Keyword Expr)
  | [] => []
  | ⟨arg, value, s⟩ :: ks => ⟨arg, value.mapSpan f, f s⟩ :: mapKeywordSpans f ks

def mapItemSpans (f : Span → Span) : List (DictItem Expr) → List (DictItem Expr)
  | [] => []
  | ⟨none, value⟩ :: items => ⟨none, value.mapSpan f⟩ :: mapItemSpans f items
  | ⟨some key, value⟩ :: items =>
    ⟨some (key.mapSpan f), value.mapSpan f⟩ :: mapItemSpans f items

end

/-- The same tree where `place` says where each byte stands. -/
def move (place : Nat → Nat) : Expr → Expr := mapSpan (Span.move place)

end Expr

def Keyword.move (place : Nat → Nat) (k : Keyword Expr) : Keyword Expr :=
  ⟨k.arg, k.value.move place, k.span.move place⟩

def DictItem.move (place : Nat → Nat) (item : DictItem Expr) : DictItem Expr :=
  ⟨item.key.map (Expr.move place), item.value.move place⟩

namespace Expr

variable (place : Nat → Nat) (s : Span)

theorem mapSpans_move (es : List Expr) : mapSpans (Span.move place) es = es.map (move place) := by
  induction es with
  | nil => rfl
  | cons e es ih => rw [mapSpans, ih]; rfl

theorem mapKeywordSpans_move (ks : List (Keyword Expr)) :
    mapKeywordSpans (Span.move place) ks = ks.map (Keyword.move place) := by
  induction ks with
  | nil => rfl
  | cons k ks ih => rw [mapKeywordSpans, ih]; rfl

theorem mapItemSpans_move (items : List (DictItem Expr)) :
    mapItemSpans (Span.move place) items = items.map (DictItem.move place) := by
  induction items with
  | nil => rfl
  | cons item items ih =>
    obtain ⟨_ | key, value⟩ := item <;> rw [mapItemSpans, ih] <;> rfl

@[simp] theorem move_name (id : String) : (name s id).move place = name (s.move place) id := rfl

@[simp] theorem move_member (value : Expr) (attr : String) :
    (member s value attr).move place = member (s.move place) (value.move place) attr := rfl

@[simp] theorem move_call (func : Expr) (args : List Expr) (keywords : List (Keyword Expr)) :
    (call s func args keywords).move place =
      call (s.move place) (func.move place) (args.map (move place)) (keywords.map (Keyword.move place)) := by
  rw [← mapSpans_move, ← mapKeywordSpans_move]
  rfl

@[simp] theorem move_literal (value : Literal) :
    (literal s value).move place = literal (s.move place) value := rfl

@[simp] theorem move_dict (items : List (DictItem Expr)) :
    (dict s items).move place = dict (s.move place) (items.map (DictItem.move place)) := by
  rw [← mapItemSpans_move]
  rfl

@[simp] theorem move_list (es : List Expr) :
    (list s es).move place = list (s.move place) (es.map (move place)) := by
  rw [← mapSpans_move]
  rfl

@[simp] theorem move_tuple (es : List Expr) :
    (tuple s es).move place = tuple (s.move place) (es.map (move place)) := by
  rw [← mapSpans_move]
  rfl

@[simp] theorem move_set (es : List Expr) :
    (set s es).move place = set (s.move place) (es.map (move place)) := by
  rw [← mapSpans_move]
  rfl

@[simp] theorem move_starred (value : Expr) :
    (starred s value).move place = starred (s.move place) (value.move place) := rfl

@[simp] theorem move_closure (es : List Expr) :
    (closure s es).move place = closure (s.move place) (es.map (move place)) := by
  rw [← mapSpans_move]
  rfl

@[simp] theorem move_compound (es : List Expr) :
    (compound s es).move place = compound (s.move place) (es.map (move place)) := by
  rw [← mapSpans_move]
  rfl

theorem move_withSpan (e : Expr) : (e.withSpan s).move place = (e.move place).withSpan (s.move place) := by
  cases e <;> rfl

mutual

theorem mapSpan_id : ∀ e : Expr, e.mapSpan id = e
  | .name .. | .literal .. => rfl
  | .member _ value _ => by rw [mapSpan, mapSpan_id value]; rfl
  | .call _ func args keywords => by
    rw [mapSpan, mapSpan_id func, mapSpans_id args, mapKeywordSpans_id keywords]
    rfl
  | .dict _ items => by rw [mapSpan, mapItemSpans_id items]; rfl
  | .list _ es => by rw [mapSpan, mapSpans_id es]; rfl
  | .tuple _ es => by rw [mapSpan, mapSpans_id es]; rfl
  | .set _ es => by rw [mapSpan, mapSpans_id es]; rfl
  | .starred _ value => by rw [mapSpan, mapSpan_id value]; rfl
  | .closure _ es => by rw [mapSpan, mapSpans_id es]; rfl
  | .compound _ es => by rw [mapSpan, mapSpans_id es]; rfl

theorem mapSpans_id : ∀ es : List Expr, mapSpans id es = es
  | [] => rfl
  | e :: es => by rw [mapSpans, mapSpan_id e, mapSpans_id es]

theorem mapKeywordSpans_id : ∀ ks : List (Keyword Expr), mapKeywordSpans id ks = ks
  | [] => rfl
  | ⟨_, value, _⟩ :: ks => by rw [mapKeywordSpans, mapSpan_id value, mapKeywordSpans_id ks]; rfl

theorem mapItemSpans_id : ∀ items : List (DictItem Expr), mapItemSpans id items = items
  | [] => rfl
  | ⟨none, value⟩ :: items => by rw [mapItemSpans, mapSpan_id value, mapItemSpans_id items]
  | ⟨some key, value⟩ :: items => by
    rw [mapItemSpans, mapSpan_id key, mapSpan_id value, mapItemSpans_id items]

end

end Expr

namespace Stmt

mutual

/-- The same statement with another span at every node. -/
def mapSpan (f : Span → Span) : Stmt → Stmt
  | .assign s targets value => .assign (f s) (Expr.mapSpans f targets) (value.mapSpan f)
  | .annAssign s target note value =>
    .annAssign (f s) (target.mapSpan f) (note.mapSpan f) (value.map (Expr.mapSpan f))
  | .augAssign s target value => .augAssign (f s) (target.mapSpan f) (value.mapSpan f)
  | .expr s value => .expr (f s) (value.mapSpan f)
  | .importNames s names => .importNames (f s) names
  | .importFrom s source level names => .importFrom (f s) source level names
  | .block s keyword name header body =>
    .block (f s) keyword name (Expr.mapSpans f header) (mapSpans f body)
  | .other s keyword exprs => .other (f s) keyword (Expr.mapSpans f exprs)

def mapSpans (f : Span → Span) : List Stmt → List Stmt
  | [] => []
  | s :: ss => s.mapSpan f :: mapSpans f ss

end

/-- The same statement where `place` says where each byte stands. -/
def move (place : Nat → Nat) : Stmt → Stmt := mapSpan (Span.move place)

/-- The same statement `n` bytes further on. -/
def shift (n : Nat) : Stmt → Stmt := mapSpan (Span.shift n)

variable (place : Nat → Nat) (s : Span)

theorem mapSpans_move (ss : List Stmt) : mapSpans (Span.move place) ss = ss.map (move place) := by
  induction ss with
  | nil => rfl
  | cons s ss ih => rw [mapSpans, ih]; rfl

theorem move_assign (targets : List Expr) (value : Expr) :
    (assign s targets value).move place =
      assign (s.move place) (targets.map (Expr.move place)) (value.move place) := by
  rw [← Expr.mapSpans_move]
  rfl

theorem move_block (keyword : String) (name : Option String) (header : List Expr)
    (body : List Stmt) : (block s keyword name header body).move place =
      block (s.move place) keyword name (header.map (Expr.move place)) (body.map (move place)) := by
  rw [← Expr.mapSpans_move, ← mapSpans_move]
  rfl

theorem move_other (keyword : String) (es : List Expr) :
    (other s keyword es).move place = other (s.move place) keyword (es.map (Expr.move place)) := by
  rw [← Expr.mapSpans_move]
  rfl

mutual

theorem mapSpan_id : ∀ s : Stmt, s.mapSpan id = s
  | .assign _ targets value => by
    rw [mapSpan, Expr.mapSpans_id targets, Expr.mapSpan_id value]
    rfl
  | .annAssign _ target note value => by
    have hvalue : value.map (Expr.mapSpan id) = value := by
      cases value with
      | none => rfl
      | some value => rw [Option.map_some, Expr.mapSpan_id value]
    rw [mapSpan, Expr.mapSpan_id target, Expr.mapSpan_id note, hvalue]
    rfl
  | .augAssign _ target value => by
    rw [mapSpan, Expr.mapSpan_id target, Expr.mapSpan_id value]
    rfl
  | .expr _ value => by rw [mapSpan, Expr.mapSpan_id value]; rfl
  | .importNames .. | .importFrom .. => rfl
  | .block _ _ _ header body => by
    rw [mapSpan, Expr.mapSpans_id header, mapSpans_id body]
    rfl
  | .other _ _ es => by rw [mapSpan, Expr.mapSpans_id es]; rfl

theorem mapSpans_id : ∀ ss : List Stmt, mapSpans id ss = ss
  | [] => rfl
  | s :: ss => by rw [mapSpans, mapSpan_id s, mapSpans_id ss]

end

theorem move_id : move id = id := funext mapSpan_id

theorem move_add (n : Nat) : move (· + n) = shift n := rfl

end Stmt

end WorkflowAudit.Script
