import WorkflowAudit.Proofs.Script.Node

/-!
# What the walks over a script meet

A walk over a script meets every statement at some path and every expression inside one that it
meets. So the names that it collects are those that some statement of the script binds, however
deep the statement stands.
-/

namespace WorkflowAudit.Script

/-! ## What walks meet -/

namespace Node

/-- Only statements hold statements. -/
theorem asStatement?_of_mem_children {n c : Node} (plain : n.asStatement? = none)
    (h : c ∈ n.children) : c.asStatement? = none := by
  have mapped : ∀ {es : List Expr}, c ∈ es.map expression → c.asStatement? = none := by
    intro es h
    obtain ⟨e, -, rfl⟩ := List.mem_map.mp h
    rfl
  cases n with
  | statement s => cases plain
  | argument k => exact @mapped [k.value] h
  | expression e =>
    cases e with
    | call span func args keywords =>
      rcases List.mem_cons.mp h with rfl | h
      · rfl
      rcases List.mem_append.mp h with h | h
      · exact mapped h
      · obtain ⟨k, -, rfl⟩ := List.mem_map.mp h
        rfl
    | _ => exact mapped h

theorem Reached.asStatement?_eq_none {ns : List Node} {v : Node} (h : Reached ns v)
    (plain : ∀ n ∈ ns, n.asStatement? = none) : v.asStatement? = none := by
  obtain ⟨path, hpath⟩ := h
  induction path generalizing ns with
  | nil => cases hpath
  | cons i path ih =>
    obtain ⟨n, hn, hv⟩ := among?_cons.mp hpath
    have hplain := plain n (List.mem_of_getElem? hn)
    rcases at?_eq_some_iff.mp hv with ⟨-, rfl⟩ | hinside
    · exact hplain
    · exact ih (fun c hc => asStatement?_of_mem_children hplain hc) hinside

/-- An expression inside an expression is inside its direct parts. -/
theorem reached_of_children {e v : Expr} (h : Reached (expression e).children (expression v)) :
    Reached (e.children.map expression) (expression v) := by
  cases e with
  | call span func args keywords =>
    obtain ⟨n, hn, hv⟩ := reached_iff.mp h
    have direct : ∀ {a : Expr}, a ∈ (Expr.call span func args keywords).children →
        expression v = expression a ∨ Reached (expression a).children (expression v) →
        Reached ((Expr.call span func args keywords).children.map expression) (expression v) :=
      fun ha hv => reached_iff.mpr ⟨_, List.mem_map_of_mem ha, hv⟩
    simp only [children, List.mem_cons, List.mem_append, List.mem_map] at hn
    rcases hn with rfl | ⟨a, ha, rfl⟩ | ⟨k, hk, rfl⟩
    · exact direct (by simp [Expr.children]) hv
    · exact direct (by simp [Expr.children, ha]) hv
    · have hvalue := reached_singleton.mp (hv.resolve_left (by simp))
      refine direct (a := k.value) ?_ hvalue
      simp only [Expr.children, Keyword.valuesOf, List.mem_append, List.mem_map]
      exact .inr ⟨k, hk, rfl⟩
  | _ => exact h

theorem mem_visit_of_reached {es : List Expr} {v : Expr}
    (h : Reached (es.map expression) (expression v)) : v ∈ Expr.visit es := by
  induction es using Expr.visit.induct with
  | case1 => simp at h
  | case2 e es ih =>
    rw [Expr.visit]
    rw [List.map_cons, ← List.singleton_append, Reached.append_iff, reached_singleton] at h
    rcases h with (heq | hinside) | hlater
    · cases heq
      exact List.mem_cons_self
    · refine List.mem_cons_of_mem e (ih ?_)
      rw [List.map_append, Reached.append_iff]
      exact .inl (reached_of_children hinside)
    · refine List.mem_cons_of_mem e (ih ?_)
      rw [List.map_append, Reached.append_iff]
      exact .inr hlater

theorem mem_statements_of_reached {ss : List (Stmt × Nat)} {s : Stmt}
    (h : Reached (ss.map fun p => statement p.1) (statement s)) : ∃ d, (s, d) ∈ Stmt.visit ss := by
  induction ss using Stmt.visit.induct with
  | case1 => simp at h
  | case2 r n ss ih =>
    rw [Stmt.visit]
    rw [List.map_cons, ← List.singleton_append, Reached.append_iff, reached_singleton] at h
    have later : Reached (r.inner.map statement) (statement s) ∨
        Reached (ss.map fun p => statement p.1) (statement s) →
        ∃ d, (s, d) ∈ (r, n) :: Stmt.visit (r.inner.map (·, n + 1) ++ ss) := by
      intro h
      obtain ⟨d, hd⟩ := ih (by
        rw [List.map_append, List.map_map, Reached.append_iff]
        exact h)
      exact ⟨d, List.mem_cons_of_mem _ hd⟩
    rcases h with (heq | hinside) | hlater
    · cases heq
      exact ⟨n, List.mem_cons_self⟩
    · refine later (.inl ((Reached.append_iff.mp hinside).resolve_left fun hexpr => ?_))
      cases hexpr.asStatement?_eq_none fun c hc => by
        obtain ⟨e, -, rfl⟩ := List.mem_map.mp hc
        rfl
    · exact later (.inr hlater)

end Node

/-- A walk over a script meets every statement that is at some path. -/
theorem Module.mem_statements_of_at? {m : Module} {s : Stmt} {path : List Nat}
    (h : m.at? path = some (.statement s)) : ∃ d, (s, d) ∈ m.statements := by
  refine Node.mem_statements_of_reached ⟨path, ?_⟩
  rwa [List.map_map]

/-! ## Names that are bound -/

/-- Names that a statement binds by itself: those in the targets of an assignment, those that it
gives to what it imports, and that of a function or class. -/
inductive Stmt.Binds : Stmt → String → Prop
  | target {span targets value t place name} (member : t ∈ targets)
      (named : Node.Reached [.expression t] (.expression (.name place name))) :
      Binds (.assign span targets value) name
  | annotated {span place name annotation value} :
      Binds (.annAssign span (.name place name) annotation value) name
  | augmented {span place name value} : Binds (.augAssign span (.name place name) value) name
  | imported {span names a} (member : a ∈ names) : Binds (.importNames span names) a.boundName
  | importedFrom {span source level names a} (member : a ∈ names) :
      Binds (.importFrom span source level names) a.boundName
  | defined {span keyword name header body} :
      Binds (.block span keyword (some name) header body) name

theorem Expr.asName?_eq_some_iff {e : Expr} {name : String} :
    e.asName? = some name ↔ ∃ place, e = .name place name := by
  cases e <;> simp [asName?, eq_comm]

theorem Stmt.binds_iff {s : Stmt} {name : String} : s.Binds name ↔ name ∈ s.boundNames := by
  constructor
  · intro h
    cases h with
    | target member named =>
      exact List.mem_flatMap.mpr ⟨_, member, List.mem_filterMap.mpr
        ⟨_, Node.mem_visit_of_reached named, rfl⟩⟩
    | annotated | augmented | defined => simp [boundNames, Expr.asName?]
    | imported member | importedFrom member => exact List.mem_map_of_mem member
  · intro h
    cases s with
    | assign span targets value =>
      obtain ⟨t, member, h⟩ := List.mem_flatMap.mp h
      obtain ⟨e, visited, h⟩ := List.mem_filterMap.mp h
      obtain ⟨place, rfl⟩ := Expr.asName?_eq_some_iff.mp h
      exact .target member (Node.reached_of_mem_visit visited)
    | annAssign span target annotation value =>
      obtain ⟨place, rfl⟩ := Expr.asName?_eq_some_iff.mp (Option.mem_toList.mp h)
      exact .annotated
    | augAssign span target value =>
      obtain ⟨place, rfl⟩ := Expr.asName?_eq_some_iff.mp (Option.mem_toList.mp h)
      exact .augmented
    | importNames span names =>
      obtain ⟨a, member, rfl⟩ := List.mem_map.mp h
      exact .imported member
    | importFrom span source level names =>
      obtain ⟨a, member, rfl⟩ := List.mem_map.mp h
      exact .importedFrom member
    | block span keyword bound header body =>
      obtain rfl := Option.mem_toList.mp h
      exact .defined
    | expr | other => cases h

theorem Module.mem_boundNames_iff {m : Module} {name : String} :
    name ∈ m.boundNames ↔ ∃ path s, m.at? path = some (.statement s) ∧ s.Binds name := by
  simp only [boundNames, List.mem_flatMap, Stmt.binds_iff]
  constructor
  · rintro ⟨⟨s, d⟩, member, bound⟩
    obtain ⟨path, hpath⟩ := exists_path_of_mem_statements member
    exact ⟨path, s, hpath, bound⟩
  · rintro ⟨path, s, hpath, bound⟩
    obtain ⟨d, member⟩ := mem_statements_of_at? hpath
    exact ⟨(s, d), member, bound⟩

end WorkflowAudit.Script
