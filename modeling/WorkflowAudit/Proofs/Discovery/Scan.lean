import WorkflowAudit.Discovery.Scan
import WorkflowAudit.Proofs.Data.OrderedMap
import WorkflowAudit.Proofs.Script.Parser.Run

/-!
# What a scan finds

A scan goes through the statements of a script in the order of a walk. A statement declares a
resource when it binds a name to a call that resolves under the imports before it, and of all
statements that declare a resource under a name the last one counts. A statement that binds the
name to something else declares nothing, so it takes nothing back.
-/

namespace WorkflowAudit.Discovery

open Script

variable {package path : String} {lines : LineIndex} {ss : List (Stmt × Nat)} {p : Stmt × Nat}
  {i : Nat} {r : Resource}

/-! ## Declarations -/

/-- The constructors that a statement imports, under the names that it binds. -/
def importedBy (package : String) : Stmt → List (String × ResourceKind)
  | .importFrom _ (some source) _ names =>
    if Text.contains source package then
      names.filterMap fun a => (ResourceKind.ofConstructor? a.name).map fun kind => (a.boundName, kind)
    else []
  | _ => []

/-- The constructors that some statements import, the latest first. -/
def importedNames (package : String) (ss : List (Stmt × Nat)) : ConstructorNames :=
  (ss.flatMap fun p => importedBy package p.1).reverse

theorem observe_eq (known : ConstructorNames) (s : Stmt) :
    known.observe package s = (importedBy package s).reverse ++ known := by
  unfold ConstructorNames.observe importedBy
  split
  case h_1 =>
    dsimp only
    split <;> simp
  case h_2 => simp

theorem importedNames_concat :
    importedNames package (ss ++ [p]) = (importedNames package ss).observe package p.1 := by
  rw [observe_eq, importedNames, List.flatMap_append, List.reverse_append]
  simp [importedNames]

/-- The resource that a statement declares behind others. -/
def declared? (package path : String) (lines : LineIndex) (before : List (Stmt × Nat)) (s : Stmt) :
    Option Resource := do
  let (name, value) ← s.binding?
  let call ← value.asCall?
  let kind ← (importedNames package before).resolve? call
  some {
    name, kind, filePath := path, moduleId := (Path.stem? path).getD ""
    line := lines.lineOf s.span.start
    dependencies := dependenciesOf call }

theorem scanStep_eq (found : OrderedMap String Resource) :
    scanStep package path ((Path.stem? path).getD "") lines ⟨importedNames package ss, found⟩ p.1 =
      ⟨importedNames package (ss ++ [p]),
        match declared? package path lines ss p.1 with
        | none => found
        | some r => found.insertLast r.name r⟩ := by
  rw [importedNames_concat]
  unfold scanStep
  split
  case h_1 => simp [declared?, Stmt.binding?, *]
  case h_2 other =>
    have unseen : (importedNames package ss).observe package p.1 = importedNames package ss := by
      unfold ConstructorNames.observe
      split
      case h_1 same => exact absurd same (other _ _ _ _)
      case h_2 => rfl
    rw [unseen, declared?]
    cases p.1.binding? with
    | none => rfl
    | some bound =>
      obtain ⟨name, value⟩ := bound
      cases called : value.asCall? with
      | none => simp [called]
      | some call => cases resolved : (importedNames package ss).resolve? call <;> simp [called, resolved]

/-! ## Last declarations -/

/-- The resource that the statement at an index declares. -/
def declaredAt? (package path : String) (lines : LineIndex) (ss : List (Stmt × Nat)) (i : Nat) :
    Option Resource :=
  ss[i]?.bind fun p => declared? package path lines (ss.take i) p.1

/-- Whether the statement at an index is the last one that declares a resource under its name. -/
def IsLastDeclared (package path : String) (lines : LineIndex) (ss : List (Stmt × Nat)) (i : Nat)
    (r : Resource) : Prop :=
  declaredAt? package path lines ss i = some r ∧
    ∀ j later, i < j → declaredAt? package path lines ss j = some later → later.name ≠ r.name

theorem declaredAt?_concat_of_lt (before : i < ss.length) :
    declaredAt? package path lines (ss ++ [p]) i = declaredAt? package path lines ss i := by
  rw [declaredAt?, declaredAt?, List.getElem?_append_left before,
    List.take_append_of_le_length (Nat.le_of_lt before)]

theorem declaredAt?_concat_length :
    declaredAt? package path lines (ss ++ [p]) ss.length = declared? package path lines ss p.1 := by
  simp [declaredAt?]

theorem lt_length_of_declaredAt? (h : declaredAt? package path lines ss i = some r) :
    i < ss.length := by
  obtain ⟨p, found, -⟩ := Option.bind_eq_some_iff.mp h
  exact (List.getElem?_eq_some_iff.mp found).1

theorem isLastDeclared_concat_iff :
    IsLastDeclared package path lines (ss ++ [p]) i r ↔
      (IsLastDeclared package path lines ss i r ∧
        ∀ new, declared? package path lines ss p.1 = some new → new.name ≠ r.name) ∨
      (i = ss.length ∧ declared? package path lines ss p.1 = some r) := by
  have within : ∀ {j later}, declaredAt? package path lines (ss ++ [p]) j = some later →
      j < ss.length ∨ j = ss.length := by
    intro j later found
    have := lt_length_of_declaredAt? found
    rw [List.length_append, List.length_singleton] at this
    omega
  constructor
  · rintro ⟨declares, last⟩
    rcases within declares with before | rfl
    · rw [declaredAt?_concat_of_lt before] at declares
      refine .inl ⟨⟨declares, fun j later behind found => ?_⟩, fun new found => ?_⟩
      · exact last j later behind
          ((declaredAt?_concat_of_lt (lt_length_of_declaredAt? found)).trans found)
      · exact last ss.length new before (declaredAt?_concat_length.trans found)
    · exact .inr ⟨rfl, declaredAt?_concat_length.symm.trans declares⟩
  · rintro (⟨⟨declares, last⟩, unchanged⟩ | ⟨rfl, declares⟩)
    · refine ⟨(declaredAt?_concat_of_lt (lt_length_of_declaredAt? declares)).trans declares,
        fun j later behind found => ?_⟩
      rcases within found with before | rfl
      · exact last j later behind ((declaredAt?_concat_of_lt before).symm.trans found)
      · exact unchanged later (declaredAt?_concat_length.symm.trans found)
    · refine ⟨declaredAt?_concat_length.trans declares, fun j later behind found => ?_⟩
      rcases within found with before | rfl <;> omega

/-! ## Scans -/

/-- What is found in some statements. -/
structure Found (package path : String) (lines : LineIndex) (ss : List (Stmt × Nat))
    (found : OrderedMap String Resource) : Prop where
  keyed : ∀ e ∈ found.entries, e.2.name = e.1
  member : ∀ r, r ∈ found.values ↔ ∃ i, IsLastDeclared package path lines ss i r
  ordered : found.values.Pairwise fun r later => ∃ i j, i < j ∧
    IsLastDeclared package path lines ss i r ∧ IsLastDeclared package path lines ss j later

/-- A statement that declares nothing. -/
theorem Found.keep {found : OrderedMap String Resource} (h : Found package path lines ss found)
    (none : declared? package path lines ss p.1 = none) :
    Found package path lines (ss ++ [p]) found := by
  have same : ∀ i r, IsLastDeclared package path lines (ss ++ [p]) i r ↔
      IsLastDeclared package path lines ss i r := by
    simp [isLastDeclared_concat_iff, none]
  exact ⟨h.keyed, fun r => by simp only [h.member, same], by simpa only [same] using h.ordered⟩

/-- A statement that declares a resource, in the place of an earlier one of the same name. -/
theorem Found.declare {found : OrderedMap String Resource} (h : Found package path lines ss found)
    {new : Resource} (declares : declared? package path lines ss p.1 = some new) :
    Found package path lines (ss ++ [p]) (found.insertLast new.name new) := by
  have values : (found.insertLast new.name new).values =
      found.values.filter (·.name ≠ new.name) ++ [new] := by
    rw [OrderedMap.values, OrderedMap.entries_insertLast, List.map_append, OrderedMap.values,
      List.filter_map]
    congr 2
    exact List.filter_congr fun e he => by simp [h.keyed e he]
  have last : ∀ {i r}, IsLastDeclared package path lines (ss ++ [p]) i r ↔
      (IsLastDeclared package path lines ss i r ∧ r.name ≠ new.name) ∨ (i = ss.length ∧ r = new) := by
    intro i r
    simp only [isLastDeclared_concat_iff, declares, Option.some.injEq, forall_eq']
    rw [ne_comm, @eq_comm _ new r]
  constructor
  case keyed =>
    intro e he
    rw [OrderedMap.entries_insertLast] at he
    rcases List.mem_append.mp he with he | he
    · exact h.keyed e (List.mem_of_mem_filter he)
    · obtain rfl := List.mem_singleton.mp he
      rfl
  case member =>
    intro r
    rw [values]
    simp only [List.mem_append, List.mem_filter, h.member, List.mem_singleton, last,
      decide_eq_true_eq, exists_or, exists_and_right, exists_eq, true_and]
  case ordered =>
    rw [values]
    refine List.pairwise_append.mpr ⟨?_, List.pairwise_singleton _ _, ?_⟩
    · refine (h.ordered.filter _).imp_of_mem ?_
      rintro r later hr hl ⟨i, j, before, first, second⟩
      have other := of_decide_eq_true (List.mem_filter.mp hr).2
      have other' := of_decide_eq_true (List.mem_filter.mp hl).2
      exact ⟨i, j, before, last.mpr (.inl ⟨first, other⟩), last.mpr (.inl ⟨second, other'⟩)⟩
    · intro r hr later hl
      obtain rfl := List.mem_singleton.mp hl
      obtain ⟨hr, other⟩ := List.mem_filter.mp hr
      obtain ⟨i, first⟩ := (h.member r).mp hr
      exact ⟨i, ss.length, lt_length_of_declaredAt? first.1,
        last.mpr (.inl ⟨first, of_decide_eq_true other⟩), last.mpr (.inr ⟨rfl, rfl⟩)⟩

theorem found_scan (package path : String) (lines : LineIndex) (ss : List (Stmt × Nat)) :
    ∃ found, ss.foldl (fun state p =>
        scanStep package path ((Path.stem? path).getD "") lines state p.1) ⟨[], .empty⟩ =
      ⟨importedNames package ss, found⟩ ∧ Found package path lines ss found := by
  induction ss using List.reverseRecOn with
  | nil =>
    refine ⟨.empty, rfl, ⟨by simp [OrderedMap.empty], fun r => ⟨by simp [OrderedMap.empty, OrderedMap.values], ?_⟩, .nil⟩⟩
    rintro ⟨i, declares, -⟩
    cases declares
  | append_singleton ss p ih =>
    obtain ⟨found, state, sofar⟩ := ih
    rw [List.foldl_append, state, List.foldl_cons, List.foldl_nil, scanStep_eq]
    cases declares : declared? package path lines ss p.1 with
    | none => exact ⟨found, rfl, sofar.keep declares⟩
    | some new => exact ⟨_, rfl, sofar.declare declares⟩

theorem scanModule_found (package path : String) (m : Module) :
    ∃ found, scanModule package path m = found.values ∧
      Found package path m.lines m.statements found := by
  obtain ⟨found, state, sofar⟩ := found_scan package path m.lines m.statements
  exact ⟨found, congrArg (·.found.values) state, sofar⟩

/-! ## Bindings -/

theorem binding_of_declaredAt? (h : declaredAt? package path lines ss i = some r) :
    ∃ p value, ss[i]? = some p ∧ p.1.binding? = some (r.name, value) := by
  obtain ⟨p, here, declares⟩ := Option.bind_eq_some_iff.mp h
  simp only [declared?, Option.bind_eq_bind, Option.bind_eq_some_iff, Option.some.injEq] at declares
  obtain ⟨⟨name, value⟩, binds, call, -, kind, -, rfl⟩ := declares
  exact ⟨p, value, here, binds⟩

theorem exists_isLastDeclared (h : declaredAt? package path lines ss i = some r) :
    ∃ j last, IsLastDeclared package path lines ss j last ∧ last.name = r.name := by
  induction ss using List.reverseRecOn with
  | nil => cases h
  | append_singleton ss p ih =>
    simp only [isLastDeclared_concat_iff]
    have inside := lt_length_of_declaredAt? h
    rw [List.length_append, List.length_singleton] at inside
    rcases Nat.lt_or_eq_of_le (Nat.le_of_lt_succ inside) with before | rfl
    · obtain ⟨j, last, declares, same⟩ := ih ((declaredAt?_concat_of_lt before).symm.trans h)
      by_cases again : ∃ new, declared? package path lines ss p.1 = some new ∧ new.name = last.name
      · obtain ⟨new, declares, same'⟩ := again
        exact ⟨ss.length, new, .inr ⟨rfl, declares⟩, same'.trans same⟩
      · exact ⟨j, last, .inl ⟨declares, fun new found other => again ⟨new, found, other⟩⟩, same⟩
    · exact ⟨ss.length, r, .inr ⟨rfl, declaredAt?_concat_length.symm.trans h⟩, rfl⟩

/-- Whether the statement at an index is the last one that binds a name to a value. -/
def IsLastBinding (ss : List (Stmt × Nat)) (i : Nat) (name : String) : Prop :=
  (∃ p value, ss[i]? = some p ∧ p.1.binding? = some (name, value)) ∧
    ∀ j p value, i < j → ss[j]? = some p → p.1.binding? ≠ some (name, value)

/-- What the resources of a script are. -/
structure Exact (package path : String) (m : Module) (rs : List Resource) : Prop where
  names : (rs.map (·.name)).Nodup
  member : ∀ r, r ∈ rs ↔ ∃ i, IsLastDeclared package path m.lines m.statements i r
  /-- Resources come in the order of the statements that declare them. -/
  ordered : rs.Pairwise fun r later => ∃ i j, i < j ∧
    IsLastDeclared package path m.lines m.statements i r ∧
    IsLastDeclared package path m.lines m.statements j later
  /-- The last binding of a name counts when it declares a resource. -/
  rebound : ∀ name i, IsLastBinding m.statements i name →
    ∀ r, declaredAt? package path m.lines m.statements i = some r → r ∈ rs ∧ r.name = name
  /-- When it declares none, the name has a resource only from an earlier binding. -/
  stale : ∀ name i, IsLastBinding m.statements i name →
    declaredAt? package path m.lines m.statements i = none →
    ((∃ r ∈ rs, r.name = name) ↔
      ∃ j < i, ∃ r, declaredAt? package path m.lines m.statements j = some r ∧ r.name = name)

/-- Each name has the resource that the last statement declares which declares one under it. So the
last binding of a name counts unless it declares nothing and an earlier one does. -/
theorem scan_exact (package path : String) {text : String} {m : Module}
    (parsed : parse text = .ok m) : Exact package path m (scan package text path) := by
  obtain ⟨found, values, h⟩ := scanModule_found package path m
  have scanned : scan package text path = found.values := by rw [scan, parsed, ← values]
  rw [scanned]
  have unbound : ∀ {name i j r}, IsLastBinding m.statements i name → i < j →
      declaredAt? package path m.lines m.statements j = some r → r.name ≠ name := by
    rintro name i j r ⟨-, last⟩ behind declares rfl
    obtain ⟨p, value, here, binds⟩ := binding_of_declaredAt? declares
    exact last j p value behind here binds
  have bound : ∀ {name i r}, IsLastBinding m.statements i name →
      declaredAt? package path m.lines m.statements i = some r → r.name = name := by
    rintro name i r ⟨⟨p, value, here, binds⟩, -⟩ declares
    obtain ⟨p', value', here', binds'⟩ := binding_of_declaredAt? declares
    obtain rfl := Option.some.inj (here.symm.trans here')
    exact (Prod.mk.inj (Option.some.inj (binds'.symm.trans binds))).1
  refine ⟨?names, h.member, h.ordered, ?rebound, ?stale⟩
  case names =>
    refine List.pairwise_map.mpr (h.ordered.imp ?_)
    rintro r later ⟨i, j, before, first, second⟩
    exact (first.2 j later before second.1).symm
  case rebound =>
    intro name i last r declares
    have same := bound last declares
    refine ⟨(h.member r).mpr ⟨i, declares, fun j later behind found => ?_⟩, same⟩
    exact same ▸ unbound last behind found
  case stale =>
    intro name i last none
    constructor
    · rintro ⟨r, hr, same⟩
      obtain ⟨j, declares, -⟩ := (h.member r).mp hr
      rcases Nat.lt_trichotomy j i with before | rfl | behind
      · exact ⟨j, before, r, declares, same⟩
      · cases none.symm.trans declares
      · exact absurd same (unbound last behind declares)
    · rintro ⟨j, -, r, declares, rfl⟩
      obtain ⟨k, last, lastly, same⟩ := exists_isLastDeclared declares
      exact ⟨last, (h.member last).mpr ⟨k, lastly⟩, same⟩

/-- A name that is bound again in a block, under another name of the constructor. -/
def reboundText : String :=
  "from wetwire_github import Job as J\nbuild = Workflow()\nif a:\n    build: X = J(needs=[test])\n"

theorem scan_exact_reboundText :
    ∃ m, parse reboundText = .ok m ∧
      Exact defaultPackage "ci.py" m (scan defaultPackage reboundText "ci.py") := by
  have parses : (parse reboundText).isOk = true := by decide +kernel
  obtain ⟨m, parsed⟩ := exists_parse_of_isOk parses
  exact ⟨m, parsed, scan_exact defaultPackage "ci.py" parsed⟩

/-- A name that is bound to something else at last keeps its resource. -/
example : (scan defaultPackage "build = Job()\nbuild = 1\n" "ci.py").map (fun r => (r.name, r.line)) =
    [("build", 1)] := by
  decide +kernel

end WorkflowAudit.Discovery
