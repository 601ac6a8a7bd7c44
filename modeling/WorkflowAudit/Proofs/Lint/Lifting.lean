import Mathlib.Data.List.Perm.Subperm
import WorkflowAudit.Lint.ExtractionRules
import WorkflowAudit.Proofs.Lint.EditBuffer
import WorkflowAudit.Proofs.Script.Margin
import WorkflowAudit.Proofs.Script.Walk
import WorkflowAudit.Proofs.Text.Digits

/-!
# What lifting queues

Lifting goes through the statements at module level and the calls of each one. Every argument
that it takes out gives one group of edits, which binds a new name on the line before the
statement and puts the name in the place of the argument. The groups are described here as a
list of lifts, and what one call adds to it is carried through all calls of all statements.
-/

namespace WorkflowAudit.Lint.Extraction

open Script

/-! ## New names -/

/-- The candidates for a base in turn. -/
def numbered (base : String) : Nat → String
  | 0 => base
  | i + 1 => s!"{base}_{i + 2}"

theorem toList_numbered_succ (base : String) (i : Nat) :
    (numbered base (i + 1)).toList = base.toList ++ '_' :: Nat.toDigits 10 (i + 2) := by
  have spelled : numbered base (i + 1) = base ++ "_" ++ (i + 2).repr := rfl
  simp [spelled]

theorem numbered_injective (base : String) : Function.Injective (numbered base) := by
  have differs : ∀ i, base ≠ numbered base (i + 1) := by
    intro i same
    have texts := congrArg String.toList same
    rw [toList_numbered_succ] at texts
    simp at texts
  rintro (_ | i) (_ | j) same
  · rfl
  · exact absurd same (differs j)
  · exact absurd same.symm (differs i)
  · have digits := congrArg String.toList same
    rw [toList_numbered_succ, toList_numbered_succ, List.append_cancel_left_eq,
      List.cons_inj_right] at digits
    have values := Text.toDigits_injective digits
    omega

theorem candidates_eq (base : String) (count : Nat) :
    candidates base count = (List.range (count + 1)).map (numbered base) := by
  rw [List.range_succ_eq_map, List.map_cons, List.map_map]
  rfl

/-- Whether a name is the first candidate for a base that is not taken. -/
def IsFirstFree (taken : String → Prop) (base name : String) : Prop :=
  ∃ i, name = numbered base i ∧ ¬taken name ∧ ∀ j < i, taken (numbered base j)

/-- Among so many candidates as there are taken names, and one more, one is not taken. -/
theorem isFirstFree_freshName (base : String) (taken : List String) :
    IsFirstFree (· ∈ taken) base (freshName base taken) := by
  have free : ∃ i < taken.length + 1, numbered base i ∉ taken := by
    by_contra none
    have covered : (List.range (taken.length + 1)).map (numbered base) ⊆ taken := by
      simpa [List.subset_def] using none
    have distinct : ((List.range (taken.length + 1)).map (numbered base)).Nodup :=
      List.nodup_range.map (numbered_injective base)
    have fits := (List.subperm_of_subset distinct covered).length_le
    rw [List.length_map, List.length_range] at fits
    omega
  have found : ∃ name, (candidates base taken.length).find? (!taken.contains ·) = some name := by
    obtain ⟨i, inside, unused⟩ := free
    rw [← Option.isSome_iff_exists, List.find?_isSome, candidates_eq]
    exact ⟨_, List.mem_map_of_mem (List.mem_range.mpr inside), by simpa using unused⟩
  obtain ⟨name, found⟩ := found
  rw [freshName, found, Option.getD_some]
  obtain ⟨unused, i, inside, rfl, earlier⟩ := List.find?_eq_some_iff_getElem.mp found
  simp only [candidates_eq, List.getElem_map, List.getElem_range] at unused earlier ⊢
  exact ⟨i, rfl, by simpa using unused, fun j before => by simpa using earlier j before⟩

/-! ## Lifts -/

/-- An argument of a call that is taken out of a statement under a new name. -/
structure Lift where
  statement : Stmt
  call : Call
  target : Expr
  name : String

namespace Lift

/-- Where the line that binds the name is put: at the start of the line of the statement. -/
def offset (l : Lift) (lines : LineIndex) : Nat := lines.lineStart l.statement.span.start

def edits (l : Lift) (text : String) (lines : LineIndex) : List Edit :=
  [.insertion (l.offset lines) s!"{l.name} = {l.target.span.slice text}\n",
    ⟨l.target.span, l.name⟩]

/-- Whether two lifts take out arguments that have a byte in common. -/
def Meets (l : Lift) (target : Expr) : Prop := l.target.span.overlaps target.span = true

end Lift

/-- Whether an argument of a call may be taken out of a statement of a script. -/
structure Liftable (x : Extraction) (text : String) (m : Module) (s : Stmt) (call : Call)
    (target : Expr) : Prop where
  member : s ∈ m.body
  simple : s.isSimple = true
  begins : beginsLine text (m.lines.lineStart s.span.start) s = true
  visited : call ∈ x.liftableCalls s
  large : x.target? call = some target

/-- A part of a list with one more element at its end. -/
theorem split_concat {α : Type} {as before after : List α} {a b : α}
    (h : as ++ [b] = before ++ a :: after) :
    (before = as ∧ a = b) ∨ ∃ after', as = before ++ a :: after' := by
  rcases List.eq_nil_or_concat after with rfl | ⟨after, last, rfl⟩
  · obtain ⟨rfl, same⟩ := List.append_inj' h rfl
    exact .inl ⟨rfl, (List.cons.inj same).1.symm⟩
  · rw [List.concat_eq_append, ← List.cons_append, ← List.append_assoc] at h
    exact .inr ⟨after, (List.append_inj' h rfl).1⟩

/-- What some lifts have made of the state. -/
structure Lifted (x : Extraction) (text : String) (m : Module) (state : LiftState)
    (lifts : List Lift) : Prop where
  groups : state.edits.groups = lifts.map (·.edits text m.lines)
  taken : state.taken = m.boundNames ++ lifts.map (·.name)
  liftable : ∀ l ∈ lifts, x.Liftable text m l.statement l.call l.target
  /-- Each new name is chosen when all names of the script and all earlier new names are taken. -/
  named : ∀ earlier l later, lifts = earlier ++ l :: later →
    l.name = freshName (x.baseName l.statement l.call) (m.boundNames ++ earlier.map (·.name))

/-- What is so after some calls of a statement, besides the lifts out of earlier statements. -/
structure LiftedCalls (x : Extraction) (text : String) (m : Module) (s : Stmt) (calls : List Call)
    (state : LiftState) (earlier own : List Lift) : Prop
    extends Lifted x text m state (earlier ++ own) where
  claimed : state.claimed = own.map (·.target.span)
  origin : ∀ l ∈ own, l.statement = s ∧ l.call ∈ calls
  apart : own.Pairwise fun l l' => ¬l.Meets l'.target
  /-- An argument that is not taken out meets one of an earlier call that is. -/
  complete : ∀ before call after, calls = before ++ call :: after →
    ∀ target, x.target? call = some target →
      ∃ l ∈ own, l.call = call ∧ l.target = target ∨ l.call ∈ before ∧ l.Meets target

variable {x : Extraction} {text : String} {m : Module} {s : Stmt} {state : LiftState}

/-- One more lift. -/
theorem Lifted.push {lifts : List Lift} {call : Call} {target : Expr} {claimed : List Span}
    (h : Lifted x text m state lifts) (liftable : x.Liftable text m s call target) :
    let name := freshName (x.baseName s call) state.taken
    Lifted x text m
      ⟨state.taken ++ [name], claimed, state.edits.pushGroup
        [.insertion (m.lines.lineStart s.span.start) s!"{name} = {target.span.slice text}\n",
          ⟨target.span, name⟩]⟩
      (lifts ++ [⟨s, call, target, name⟩]) := by
  intro name
  constructor
  case groups => simp [EditBuffer.pushGroup, h.groups, Lift.edits, Lift.offset]
  case taken => simp [h.taken]
  case liftable =>
    intro l member
    rcases List.mem_append.mp member with member | member
    · exact h.liftable l member
    · obtain rfl := List.mem_singleton.mp member
      exact liftable
  case named =>
    intro earlier l later split
    rcases split_concat split with ⟨rfl, rfl⟩ | ⟨later, split⟩
    · exact congrArg (freshName _) h.taken
    · exact h.named earlier l later split

/-- What one call adds. -/
theorem LiftedCalls.liftCall {calls : List Call} {earlier own : List Lift} {call : Call}
    (h : LiftedCalls x text m s calls state earlier own)
    (liftable : ∀ target, x.target? call = some target → x.Liftable text m s call target) :
    ∃ own', LiftedCalls x text m s (calls ++ [call])
      (x.liftCall text (m.lines.lineStart s.span.start) s state call) earlier own' := by
  have origin : ∀ l ∈ own, l.statement = s ∧ l.call ∈ calls ++ [call] := fun l member =>
    (h.origin l member).imp_right fun visited => List.mem_append_left _ visited
  -- Only the last call is new.
  have complete : ∀ own', own ⊆ own' → (∀ target, x.target? call = some target →
      ∃ l ∈ own', l.call = call ∧ l.target = target ∨ l.call ∈ calls ∧ l.Meets target) →
      ∀ before called after, calls ++ [call] = before ++ called :: after →
        ∀ target, x.target? called = some target →
          ∃ l ∈ own', l.call = called ∧ l.target = target ∨ l.call ∈ before ∧ l.Meets target := by
    intro own' more last before called after split target large
    rcases split_concat split with ⟨rfl, rfl⟩ | ⟨after, split⟩
    · exact last target large
    · obtain ⟨l, member, found⟩ := h.complete before called after split target large
      exact ⟨l, more member, found⟩
  unfold Extraction.liftCall
  split
  case h_1 none =>
    exact ⟨own, h.toLifted, h.claimed, origin, h.apart, complete own (List.Subset.refl own)
      fun target large => nomatch none.symm.trans large⟩
  case h_2 target large =>
    have same : ∀ {target'}, x.target? call = some target' → target' = target :=
      fun large' => Option.some.inj (large'.symm.trans large)
    split
    case isTrue meets =>
      rw [h.claimed, List.any_map, List.any_eq_true] at meets
      obtain ⟨l, member, meets⟩ := meets
      refine ⟨own, h.toLifted, h.claimed, origin, h.apart, complete own (List.Subset.refl own)
        fun target' large' => ?_⟩
      rw [same large']
      exact ⟨l, member, .inr ⟨(h.origin l member).2, meets⟩⟩
    case isFalse apart =>
      have free : ∀ l ∈ own, ¬l.Meets target := by
        rw [h.claimed, List.any_map, List.any_eq_true] at apart
        exact fun l member meets => apart ⟨l, member, meets⟩
      refine ⟨own ++ [⟨s, call, target, freshName (x.baseName s call) state.taken⟩], ?_, ?_, ?_, ?_, ?_⟩
      case refine_1 =>
        rw [← List.append_assoc]
        exact h.push (liftable target large)
      case refine_2 => simp [h.claimed]
      case refine_3 =>
        intro l member
        rcases List.mem_append.mp member with member | member
        · exact origin l member
        · obtain rfl := List.mem_singleton.mp member
          exact ⟨rfl, by simp⟩
      case refine_4 =>
        refine List.pairwise_append.mpr ⟨h.apart, List.pairwise_singleton _ _, ?_⟩
        intro l member l' member'
        obtain rfl := List.mem_singleton.mp member'
        exact free l member
      case refine_5 =>
        refine complete _ (List.subset_append_left own _) fun target' large' => ?_
        exact ⟨_, List.mem_append_right _ (List.mem_singleton_self _), .inl ⟨rfl, (same large').symm⟩⟩

/-- What all calls of a statement add. -/
theorem LiftedCalls.exists_foldl {calls : List Call} {earlier : List Lift}
    (h : Lifted x text m state earlier)
    (liftable : ∀ call ∈ calls, ∀ target, x.target? call = some target →
      x.Liftable text m s call target) :
    ∃ own, LiftedCalls x text m s calls (calls.foldl
      (x.liftCall text (m.lines.lineStart s.span.start) s) { state with claimed := [] }) earlier own := by
  induction calls using List.reverseRecOn with
  | nil => exact ⟨[], by simpa using ⟨h.groups, h.taken, h.liftable, h.named⟩, rfl, by simp, .nil, by simp⟩
  | append_singleton calls call ih =>
    obtain ⟨own, lifted⟩ := ih fun called member =>
      liftable called (List.mem_append_left _ member)
    rw [List.foldl_append]
    exact lifted.liftCall (liftable call (by simp))

/-- What is so after some statements. -/
structure LiftedStatements (x : Extraction) (text : String) (m : Module) (body : List Stmt)
    (state : LiftState) (lifts : List Lift) : Prop extends Lifted x text m state lifts where
  among : ∀ l ∈ lifts, l.statement ∈ body
  apart : lifts.Pairwise fun l l' => l.statement = l'.statement → ¬l.Meets l'.target
  complete : ∀ s ∈ body, ∀ before call after, x.liftableCalls s = before ++ call :: after →
    ∀ target, x.Liftable text m s call target → ∃ l ∈ lifts, l.statement = s ∧
      (l.call = call ∧ l.target = target ∨ l.call ∈ before ∧ l.Meets target)

/-- What one statement adds. -/
theorem LiftedStatements.liftStatement {body : List Stmt} {lifts : List Lift}
    (h : LiftedStatements x text m body state lifts) (member : s ∈ m.body) (new : s ∉ body) :
    ∃ lifts', LiftedStatements x text m (body ++ [s]) (x.liftStatement text m.lines state s)
      lifts' := by
  unfold Extraction.liftStatement
  dsimp only
  split
  case isFalse refused =>
    refine ⟨lifts, h.toLifted, fun l hl => List.mem_append_left _ (h.among l hl), h.apart, ?_⟩
    intro r inBody before call after split target liftable
    rcases List.mem_append.mp inBody with inBody | inBody
    · exact h.complete r inBody before call after split target liftable
    · obtain rfl := List.mem_singleton.mp inBody
      exact absurd (by rw [liftable.simple, liftable.begins]; rfl) refused
  case isTrue admitted =>
    rw [Bool.and_eq_true] at admitted
    have all : ∀ call ∈ x.liftableCalls s, ∀ target, x.target? call = some target →
        x.Liftable text m s call target :=
      fun call visited target large => ⟨member, admitted.1, admitted.2, visited, large⟩
    obtain ⟨own, lifted⟩ := LiftedCalls.exists_foldl h.toLifted all
    refine ⟨lifts ++ own, lifted.toLifted, ?_, ?_, ?_⟩
    · intro l hl
      rcases List.mem_append.mp hl with hl | hl
      · exact List.mem_append_left _ (h.among l hl)
      · rw [(lifted.origin l hl).1]
        exact List.mem_append_right _ (List.mem_singleton_self s)
    · refine List.pairwise_append.mpr ⟨h.apart, ?_, ?_⟩
      · refine lifted.apart.imp ?_
        intro l l' apart _
        exact apart
      · intro l hl l' hl' same
        rw [(lifted.origin l' hl').1] at same
        exact absurd (same ▸ h.among l hl) new
    · intro r inBody before call after split target liftable
      rcases List.mem_append.mp inBody with inBody | inBody
      · obtain ⟨l, hl, found⟩ := h.complete r inBody before call after split target liftable
        exact ⟨l, List.mem_append_left _ hl, found⟩
      · obtain rfl := List.mem_singleton.mp inBody
        obtain ⟨l, hl, found⟩ := lifted.complete before call after split target liftable.large
        exact ⟨l, List.mem_append_right _ hl, (lifted.origin l hl).1, found⟩

/-- What all statements add. -/
theorem LiftedStatements.exists_foldl {body : List Stmt} (distinct : body.Nodup)
    (members : body ⊆ m.body) :
    ∃ lifts, LiftedStatements x text m body
      (body.foldl (x.liftStatement text m.lines) ⟨m.boundNames, [], .empty⟩) lifts := by
  induction body using List.reverseRecOn with
  | nil =>
    exact ⟨[], ⟨rfl, by simp, by simp, by simp⟩, by simp, .nil, by simp⟩
  | append_singleton body s ih =>
    obtain ⟨before, -, apart⟩ := List.nodup_append.mp distinct
    obtain ⟨lifts, lifted⟩ := ih before fun r hr => members (List.mem_append_left _ hr)
    rw [List.foldl_append]
    exact lifted.liftStatement (members (by simp)) fun hs => apart s hs s (by simp) rfl

/-! ## Whole scripts -/

/-- The lifts that an extraction queues for a script. -/
structure Lifts (x : Extraction) (text : String) (m : Module) (lifts : List Lift) : Prop where
  liftable : ∀ l ∈ lifts, x.Liftable text m l.statement l.call l.target
  named : ∀ earlier l later, lifts = earlier ++ l :: later →
    l.name = freshName (x.baseName l.statement l.call) (m.boundNames ++ earlier.map (·.name))
  apart : lifts.Pairwise fun l l' => l.statement = l'.statement → ¬l.Meets l'.target
  complete : ∀ s before call after, x.liftableCalls s = before ++ call :: after →
    ∀ target, x.Liftable text m s call target → ∃ l ∈ lifts, l.statement = s ∧
      (l.call = call ∧ l.target = target ∨ l.call ∈ before ∧ l.Meets target)

theorem nodup_body {text : String} {m : Module} (h : parse text = .ok m) : m.body.Nodup := by
  refine (inTurn_of_parse h).imp_of_mem fun {r s} hr _ before same => ?_
  obtain ⟨i, hi⟩ := List.mem_iff_getElem?.mp hr
  have filled := start_lt_stop_of_parse h (Module.at?_of_body hi)
  simp only [Node.span] at filled
  rw [← same] at before
  omega

/-- The names that lifting has chosen in the end, in their order. -/
def reserved (x : Extraction) (text : String) (m : Module) : List String :=
  (m.body.foldl (x.liftStatement text m.lines) ⟨m.boundNames, [], .empty⟩).taken.drop
    m.boundNames.length

/-- The edits and the new names of an extraction are those of its lifts. -/
theorem exists_lifts_reserved {text : String} {m : Module} (x : Extraction) (path : String)
    (h : parse text = .ok m) :
    ∃ lifts, x.Lifts text m lifts ∧
      (x.edits (.ofText path text)).groups = lifts.map (·.edits text m.lines) ∧
      x.reserved text m = lifts.map (·.name) := by
  obtain ⟨lifts, lifted⟩ : ∃ lifts, LiftedStatements x text m m.body _ lifts :=
    LiftedStatements.exists_foldl (nodup_body h) (List.Subset.refl _)
  refine ⟨lifts, ⟨lifted.liftable, lifted.named, lifted.apart,
    fun s before call after split target liftable =>
      lifted.complete s liftable.member before call after split target liftable⟩, ?_, ?_⟩
  · rw [edits, SourceUnit.ofText, h]
    exact lifted.groups
  · rw [reserved, lifted.taken, List.drop_left]

theorem exists_lifts {text : String} {m : Module} (x : Extraction) (path : String)
    (h : parse text = .ok m) :
    ∃ lifts, x.Lifts text m lifts ∧
      (x.edits (.ofText path text)).groups = lifts.map (·.edits text m.lines) := by
  obtain ⟨lifts, chosen, groups, -⟩ := exists_lifts_reserved x path h
  exact ⟨lifts, chosen, groups⟩

/-! ## Names -/

theorem Lifts.isFirstFree {lifts earlier later : List Lift} {l : Lift}
    (h : x.Lifts text m lifts) (split : lifts = earlier ++ l :: later) :
    IsFirstFree (fun name => (∃ place s, m.at? place = some (.statement s) ∧ s.Binds name) ∨
      ∃ e ∈ earlier, e.name = name) (x.baseName l.statement l.call) l.name := by
  have taken : ∀ name, name ∈ m.boundNames ++ earlier.map (·.name) ↔
      (∃ place s, m.at? place = some (.statement s) ∧ s.Binds name) ∨
        ∃ e ∈ earlier, e.name = name := by
    intro name
    rw [List.mem_append, Module.mem_boundNames_iff, List.mem_map]
  obtain ⟨i, spelled, free, first⟩ :=
    isFirstFree_freshName (x.baseName l.statement l.call) (m.boundNames ++ earlier.map (·.name))
  rw [← h.named earlier l later split] at spelled free
  exact ⟨i, spelled, fun used => free ((taken _).mpr used),
    fun j before => (taken _).mp (first j before)⟩

/-- Every new name is the first candidate for its base that no assignment, import, function or
class of the script binds, wherever it stands, and that no earlier lift has. -/
theorem names_of_edits (x : Extraction) {path text : String} {m : Module}
    (parsed : parse text = .ok m) :
    ∃ lifts : List Lift,
      (x.edits (.ofText path text)).groups = lifts.map (·.edits text m.lines) ∧
      (lifts.map (·.name)).Nodup ∧
      (∀ l ∈ lifts, ∀ place s, m.at? place = some (.statement s) → ¬s.Binds l.name) ∧
      ∀ earlier l later, lifts = earlier ++ l :: later →
        IsFirstFree (fun name => (∃ place s, m.at? place = some (.statement s) ∧ s.Binds name) ∨
          ∃ e ∈ earlier, e.name = name) (x.baseName l.statement l.call) l.name := by
  obtain ⟨lifts, h, groups⟩ := exists_lifts x path parsed
  refine ⟨lifts, groups, ?_, ?_, fun earlier l later split => h.isFirstFree split⟩
  · rw [List.nodup_iff_pairwise_ne, List.pairwise_map]
    refine List.pairwise_iff_getElem.mpr fun i j inside inside' before same => ?_
    have split : lifts = lifts.take j ++ lifts[j] :: lifts.drop (j + 1) := by
      rw [List.getElem_cons_drop, List.take_append_drop]
    obtain ⟨-, -, free, -⟩ := h.isFirstFree split
    exact free (.inr ⟨lifts[i], List.mem_take_iff_getElem.mpr ⟨i, by omega, rfl⟩, same⟩)
  · intro l member place s found bound
    obtain ⟨earlier, later, split⟩ := List.append_of_mem member
    obtain ⟨i, -, free, -⟩ := h.isFirstFree split
    exact free (.inl ⟨place, s, found, bound⟩)

/-- A text with a name that is taken by an import in a block, and a call without a name. -/
def takenText : String :=
  "if a:\n    import x_env\nx = Step(env=\x7b'A': 1, 'B': 2, 'C': 3, 'D': 4\x7d)\n"

theorem names_of_edits_takenText :
    ∃ m, parse takenText = .ok m ∧ ∃ lifts : List Lift,
      ((inlineEnv 3).edits (.ofText "ci.py" takenText)).groups =
        lifts.map (·.edits takenText m.lines) ∧
      (lifts.map (·.name)).Nodup ∧
      (∀ l ∈ lifts, ∀ place s, m.at? place = some (.statement s) → ¬s.Binds l.name) ∧
      ∀ earlier l later, lifts = earlier ++ l :: later →
        IsFirstFree (fun name => (∃ place s, m.at? place = some (.statement s) ∧ s.Binds name) ∨
          ∃ e ∈ earlier, e.name = name) ((inlineEnv 3).baseName l.statement l.call) l.name := by
  have parses : (parse takenText).isOk = true := by decide +kernel
  obtain ⟨m, parsed⟩ := exists_parse_of_isOk parses
  exact ⟨m, parsed, names_of_edits (inlineEnv 3) parsed⟩

/-- The variable of a loop is none of the names that are taken. -/
example : ((inlineEnv 3).edits (.ofText "ci.py"
      "for step_env in a:\n    pass\nb(Step(env=\x7b'A': 1, 'B': 2, 'C': 3, 'D': 4\x7d), step_env)\n")).groups =
    [[.insertion 28 "step_env = \x7b'A': 1, 'B': 2, 'C': 3, 'D': 4\x7d\n", ⟨⟨39, 71⟩, "step_env"⟩]] := by
  decide +kernel

/-! ## Decorators -/

def isDecorator : Stmt → Bool
  | .other _ keyword _ => keyword = "@"
  | _ => false

/-- Whether a statement defines a function or a class. -/
def isDefinition : Stmt → Bool
  | .block _ keyword _ _ _ => keyword = "def" || keyword = "class"
  | _ => false

/-- Whether every decorator stands before another one or a definition. -/
def isDecorated : List Stmt → Bool
  | [] => true
  | [d] => !isDecorator d
  | d :: s :: body =>
    (!isDecorator d || isDecorator s || isDefinition s) && isDecorated (s :: body)

theorem follows_of_isDecorated {body : List Stmt} (h : isDecorated body = true) {i : Nat}
    {d s : Stmt} (first : body[i]? = some d) (sign : isDecorator d = true)
    (next : body[i + 1]? = some s) : isDecorator s = true ∨ isDefinition s = true := by
  induction body using isDecorated.induct generalizing i with
  | case1 => cases first
  | case2 => cases next
  | case3 d' s' body ih =>
    rw [isDecorated, Bool.and_eq_true] at h
    cases i with
    | zero =>
      cases first
      cases next
      simpa [sign] using h.1
    | succ i => exact ih h.2 first next

/-- The binding stands inside no statement. -/
theorem Liftable.offset_apart {l : Lift} (parsed : parse text = .ok m)
    (h : x.Liftable text m l.statement l.call l.target) {place : List Nat} {s : Stmt}
    (found : m.at? place = some (.statement s)) :
    s.span.stop ≤ l.offset m.lines ∨ l.offset m.lines ≤ s.span.start := by
  obtain ⟨i, hi⟩ := List.mem_iff_getElem?.mp h.member
  exact (stop_le_lineStart_or parsed h.member h.begins found).imp_right
    (lineStart_le parsed (Module.at?_of_body hi)).trans

/-- The binding stands between a statement and the next one exactly when it is lifted out of the
next one. -/
theorem Liftable.between_iff {l : Lift} (parsed : parse text = .ok m)
    (h : x.Liftable text m l.statement l.call l.target) {i : Nat} {d s : Stmt}
    (first : m.body[i]? = some d) (next : m.body[i + 1]? = some s) :
    (d.span.stop ≤ l.offset m.lines ∧ l.offset m.lines ≤ s.span.start) ↔ l.statement = s := by
  have filled : ∀ {k : Nat} {r : Stmt}, m.body[k]? = some r → r.span.start < r.span.stop :=
    fun hr => start_lt_stop_of_parse parsed (Module.at?_of_body hr)
  have inTurn : ∀ {j k : Nat} {r t : Stmt}, m.body[j]? = some r → m.body[k]? = some t → j < k →
      r.span.stop ≤ t.span.start := by
    intro j k r t hr ht before
    obtain ⟨inside, rfl⟩ := List.getElem?_eq_some_iff.mp hr
    obtain ⟨inside', rfl⟩ := List.getElem?_eq_some_iff.mp ht
    exact List.pairwise_iff_getElem.mp (inTurn_of_parse parsed) j k inside inside' before
  have apart : ∀ {k : Nat} {r : Stmt}, m.body[k]? = some r →
      r.span.stop ≤ l.offset m.lines ∨ l.statement.span.start ≤ r.span.start := fun hr =>
    stop_le_lineStart_or parsed h.member h.begins (Module.at?_of_body hr)
  obtain ⟨j, hj⟩ := List.mem_iff_getElem?.mp h.member
  have start : l.offset m.lines ≤ l.statement.span.start :=
    lineStart_le parsed (Module.at?_of_body hj)
  have inside := filled hj
  have inside' := filled first
  have inside'' := filled next
  constructor
  · rintro ⟨behind, ahead⟩
    rcases Nat.lt_trichotomy j (i + 1) with before | rfl | after
    · -- Its line begins before the first of the two starts.
      rcases Nat.lt_or_eq_of_le (Nat.le_of_lt_succ before) with before | rfl
      · have := inTurn hj first before
        omega
      · obtain rfl := Option.some.inj (hj.symm.trans first)
        omega
    · exact Option.some.inj (hj.symm.trans next)
    · -- The second of the two stops before its line begins.
      have := inTurn next hj after
      rcases apart next with _ | _ <;> omega
  · intro same
    have := inTurn first next (Nat.lt_succ_self i)
    rw [← same] at this ⊢
    refine ⟨?_, start⟩
    rcases apart first with before | _
    · exact before
    · omega

/-- Two decorators, of which the second one holds a large argument. -/
def decoratedText : String :=
  "@first\n@second(Step(env=\x7b'A': 1, 'B': 2, 'C': 3, 'D': 4\x7d))\ndef f():\n    pass\n"

/-- Its binding comes between the two. -/
example : ((inlineEnv 3).edits (.ofText "ci.py" decoratedText)).apply decoratedText =
    ("@first\n" ++ "step_env = \x7b'A': 1, 'B': 2, 'C': 3, 'D': 4\x7d\n" ++
      "@second(Step(env=step_env))\ndef f():\n    pass\n", 1) := by
  decide +kernel

end WorkflowAudit.Lint.Extraction
