import WorkflowAudit.Proofs.Lint.Lifting
import WorkflowAudit.Proofs.Script.Visit

/-!
# What lifting leaves

Calls are visited from the outside in, so an argument is left where it is only when its call
stands inside an argument that is lifted. One run of a rule that lifts therefore leaves nothing
but what was nested in what it took out.
-/

namespace WorkflowAudit

namespace Lint.Extraction

open Script

variable {fits : Span → Prop} {x : Extraction}

/-! ## Arguments of calls -/

/-- The rules that lift. -/
inductive IsLifting : Extraction → Prop
  | env (limit : Nat) : IsLifting (inlineEnv limit)
  | matrix (maxKeys maxValues : Nat) : IsLifting (inlineMatrix maxKeys maxValues)
  | outputs (limit : Nat) : IsLifting (inlineOutputs limit)

/-- The node of a call. -/
def node (call : Call) : Expr := .call call.span call.func call.args call.keywords

theorem eq_node_of_asCall? {e : Expr} {call : Call} (h : e.asCall? = some call) : e = node call := by
  cases e <;> simp only [Expr.asCall?, Option.some.injEq, reduceCtorEq] at h
  subst h
  rfl

/-- The node of the value of a keyword argument. -/
theorem argument_of_keyword? {call : Call} {name : String} {value : Expr}
    (h : call.keyword? name = some value) :
    ∃ k, .argument k ∈ (Node.expression (node call)).children ∧ k.value = value := by
  obtain ⟨k, found, rfl⟩ := Option.map_eq_some_iff.mp h
  exact ⟨k, by simp [node, Node.children, List.mem_of_find?_eq_some found], rfl⟩

/-- What is inside a call is inside the value of a keyword argument, or apart from it. -/
theorem inside_keyword_or_apart {call : Call} {name : String} {value : Expr} {v : Script.Node}
    (tidy : (Node.expression (node call)).Tidy fits) (h : call.keyword? name = some value)
    (inside : Node.Reached (Node.expression (node call)).children v)
    (plain : ∀ k, v ≠ .argument k) :
    Node.Reached [.expression value] v ∨ (Node.expression value).Apart v := by
  obtain ⟨k, member, rfl⟩ := argument_of_keyword? h
  obtain ⟨n, member', inside⟩ := Node.reached_iff.mp inside
  cases tidy with
  | intro fit within apart below =>
    by_cases same : .argument k = n
    · subst same
      exact .inl (inside.resolve_left (plain k))
    · have value := ((below _ member).reached (v := .expression k.value)
        (Node.reached_singleton.mpr (.inr (Node.reached_singleton.mpr (.inl rfl))))).2
      have symmetric : Std.Symm Node.Apart := ⟨fun _ _ => Node.Apart.symm⟩
      exact .inr ((apart.forall member member' same).mono value
        ((below n member').reached (Node.reached_singleton.mpr inside)).2)

/-- An argument that a rule looks for is inside its call, and another call of the same constructor
inside that call is inside the argument or apart from it. -/
structure Around (x : Extraction) (call : Call) (target : Expr) : Prop where
  inside : Node.Reached (Node.expression (node call)).children (.expression target)
  parts : ∀ inner, inner.isCallTo x.constructor = true →
    Node.Reached (Node.expression (node call)).children (.expression (node inner)) →
    Node.Reached [.expression target] (.expression (node inner)) ∨
      (Node.expression target).Apart (.expression (node inner))

theorem around_keyword {call : Call} {name : String} {value : Expr}
    (tidy : (Node.expression (node call)).Tidy fits) (h : call.keyword? name = some value) :
    Around x call value := by
  obtain ⟨k, member, rfl⟩ := argument_of_keyword? h
  refine ⟨Node.reached_iff.mpr ⟨_, member, .inr (Node.reached_singleton.mpr (.inl rfl))⟩,
    fun inner _ below => inside_keyword_or_apart tidy h below nofun⟩

theorem keyword?_of_largeDict? {keyword : String} {limit : Nat} {call : Call} {target : Expr}
    (h : largeDict? keyword limit call = some target) : call.keyword? keyword = some target := by
  simp only [largeDict?, Option.bind_eq_bind, Option.bind_eq_some_iff] at h
  obtain ⟨value, found, h⟩ := h
  split at h
  case h_1 =>
    split at h
    · cases h
      exact found
    · cases h
  case h_2 => cases h

/-- A call that is the value of a keyword argument, of a constructor that is not looked for. -/
theorem Around.through {call inner : Call} {target : Expr}
    (tidy : (Node.expression (node call)).Tidy fits) (outer : Around x call (node inner))
    (other : inner.isCallTo x.constructor = false) (h : Around x inner target) :
    Around x call target := by
  have below := (tidy.reached (Node.reached_singleton.mpr (.inr outer.inside))).1
  refine ⟨outer.inside.below h.inside, fun found same inside => ?_⟩
  rcases outer.parts found same inside with reached | apart
  · rcases Node.reached_singleton.mp reached with heq | reached
    · have : found = inner := by
        cases found
        cases inner
        simpa [node] using heq
      rw [this, other] at same
      cases same
    · exact h.parts found same reached
  · exact .inr (apart.mono (below.reached (Node.reached_singleton.mpr (.inr h.inside))).2
      (Node.contains_self _))

theorem exists_of_largeMatrix? {maxKeys maxValues : Nat} {call : Call} {target : Expr}
    (h : largeMatrix? maxKeys maxValues call = some target) :
    ∃ strategy, call.keyword? "strategy" = some (node strategy) ∧
      strategy.isCallTo "Strategy" = true ∧ strategy.keyword? "matrix" = some target := by
  simp only [largeMatrix?, Option.bind_eq_bind, Option.bind_eq_some_iff,
    Option.filter_eq_some_iff] at h
  obtain ⟨value, found, strategy, ⟨called, constructed⟩, matrix, held, _, -, _, -, h⟩ := h
  split at h
  · cases h
    rw [eq_node_of_asCall? called] at found
    exact ⟨strategy, found, constructed, held⟩
  · cases h

theorem around_of_isLifting (lifting : IsLifting x) {call : Call} {target : Expr}
    (tidy : (Node.expression (node call)).Tidy fits) (large : x.target? call = some target) :
    Around x call target := by
  cases lifting with
  | env | outputs => exact around_keyword tidy (keyword?_of_largeDict? large)
  | matrix maxKeys maxValues =>
    obtain ⟨strategy, found, constructed, held⟩ := exists_of_largeMatrix? large
    have outer := around_keyword (x := inlineMatrix maxKeys maxValues) tidy found
    have below := (tidy.reached (Node.reached_singleton.mpr (.inr outer.inside))).1
    refine .through tidy outer ?_ (around_keyword below held)
    rw [Call.isCallTo, beq_iff_eq] at constructed
    simp [Call.isCallTo, constructed, inlineMatrix]

/-! ## Calls that are left -/

/-- Of two calls that may be mended, the second one is inside the first one or apart from it. -/
theorem pairwise_liftableCalls {s : Stmt} (h : TidyRow fits s.exprs) :
    (x.liftableCalls s).Pairwise (fun c c' =>
      Node.Reached (Node.expression (node c)).children (.expression (node c')) ∨
        (Node.expression (node c)).Apart (.expression (node c'))) ∧
    ∀ c ∈ x.liftableCalls s, c.isCallTo x.constructor = true ∧
      Node.Reached (s.exprs.map .expression) (.expression (node c)) := by
  have visits : s.exprs.flatMap (·.walkScoped false) = Expr.visitScoped (s.exprs.map (·, false)) := by
    generalize s.exprs = es
    induction es with
    | nil => simp [Expr.visitScoped]
    | cons e es ih =>
      show _ = Expr.visitScoped ([(e, false)] ++ es.map (·, false))
      rw [Expr.visitScoped_append, ← ih]
      rfl
  have row : TidyRow fits ((s.exprs.map (·, false)).map Prod.fst) := by
    rwa [show (s.exprs.map (·, false)).map Prod.fst = s.exprs by simp [Function.comp_def]]
  obtain ⟨inTurn, reached⟩ := pairwise_visitScoped row
  have chosen : ∀ {v : Expr × Bool} {c : Call},
      (if v.2 then none else v.1.asCall?.filter (·.isCallTo x.constructor)) = some c →
      v.1 = node c ∧ c.isCallTo x.constructor = true := by
    intro v c found
    split at found
    · cases found
    · obtain ⟨called, constructed⟩ := Option.filter_eq_some_iff.mp found
      exact ⟨eq_node_of_asCall? called, constructed⟩
  rw [liftableCalls, visits]
  refine ⟨List.pairwise_filterMap.mpr (inTurn.imp fun related c found c' found' => ?_), ?_⟩
  · rwa [(chosen found).1, (chosen found').1] at related
  · intro c member
    obtain ⟨v, hv, found⟩ := List.mem_filterMap.mp member
    have here := reached v hv
    rw [List.map_map, (chosen found).1] at here
    exact ⟨(chosen found).2, here⟩

/-- A step inside the environment of another one, both of them large. -/
def nestedText : String :=
  "x = Step(env=\x7b'A': 1, 'B': 2, 'C': 3, 'D': Step(env=\x7b'A': 1, 'B': 2, 'C': 3, 'D': 4\x7d)\x7d)\n"

/-- The inner environment is left in the line of the outer one. -/
example : ((inlineEnv 3).edits (.ofText "ci.py" nestedText)).apply nestedText =
    ("x_env = \x7b'A': 1, 'B': 2, 'C': 3, 'D': Step(env=\x7b'A': 1, 'B': 2, 'C': 3, 'D': 4\x7d)\x7d\n" ++
      "x = Step(env=x_env)\n", 1) := by
  decide +kernel

end Lint.Extraction

end WorkflowAudit
