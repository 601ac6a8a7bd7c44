import Mathlib.Data.List.Chain
import Mathlib.Data.List.Perm.Basic
import WorkflowAudit.Dependency.Cycles
import WorkflowAudit.Proofs.Dependency.Relation

/-! # The search for cycles

The depth-first search is followed step by step. Beside the names not reached and the path, a
state keeps the names that were left, the latest first, and the walks reported so far. Each key is
in one place at a time, and the path is a chain of dependencies, so a dependency that stands on it
closes a simple cycle.
-/

namespace WorkflowAudit.DependencyMap

/-! ## The walk that an edge closes -/

section ClosedWalk

variable {m : DependencyMap} {path : SearchPath} {dep : String}

theorem closedWalk?_eq_none_iff : closedWalk? path dep = none ↔ dep ∉ path.map Prod.fst := by
  simp only [closedWalk?]
  split <;> rename_i here <;> simp only [here, reduceCtorEq, not_true, not_false_iff]

theorem closedWalk?_eq {deeper above : List String}
    (names : path.map Prod.fst = deeper ++ dep :: above) (first : dep ∉ deeper) :
    closedWalk? path dep = some (dep :: deeper.reverse ++ [dep]) := by
  have here : dep ∈ path.map Prod.fst := by simp [names]
  have before : (path.map Prod.fst).takeWhile (· ≠ dep) = deeper := by
    rw [names, List.takeWhile_append_of_pos (by
      intro name member
      simpa using ne_of_mem_of_not_mem member first)]
    simp
  simp only [closedWalk?, here, if_true, before]

/-- Along a path each name lists the next deeper one. When the deepest lists a name on the path,
this closes a simple cycle, whose last step is that edge. -/
theorem isSimpleCycle_closedWalk {name : String} {todo walk : List String}
    (chain : (((name, todo) :: path).map Prod.fst).IsChain fun deeper above => m.Lists above deeper)
    (distinct : (((name, todo) :: path).map Prod.fst).Nodup)
    (edge : m.Lists name dep) (closed : closedWalk? ((name, todo) :: path) dep = some walk) :
    IsSimpleCycle m.Lists walk ∧ [name, dep] <:+ walk := by
  have onPath : dep ∈ ((name, todo) :: path).map Prod.fst := by
    by_contra offPath
    rw [closedWalk?_eq_none_iff.mpr offPath] at closed
    contradiction
  obtain ⟨deeper, above, names, first⟩ := List.eq_append_cons_of_mem onPath
  have part : deeper ++ [dep] <+: ((name, todo) :: path).map Prod.fst :=
    ⟨above, by simp [names]⟩
  have down : (dep :: deeper.reverse).IsChain m.Lists := by
    have climbed := List.IsChain.prefix chain part
    simpa using List.isChain_reverse.mpr climbed
  have once : (dep :: deeper.reverse).Nodup := by
    simpa using List.nodup_reverse.mpr (distinct.sublist part.sublist)
  have deepest : ∃ front, dep :: deeper.reverse = front ++ [name] := by
    cases deeper with
    | nil =>
        simp only [List.map_cons, List.nil_append, List.cons.injEq] at names
        exact ⟨[], by simp [names.1]⟩
    | cons top deeper =>
        simp only [List.map_cons, List.cons_append, List.cons.injEq] at names
        exact ⟨dep :: deeper.reverse, by simp [names.1]⟩
  -- The walk down from `dep` ends with the deepest name, from which the edge leads back.
  obtain ⟨front, split⟩ := deepest
  have steps : (dep :: deeper.reverse ++ [dep]).IsChain m.Lists := by
    refine down.append (List.isChain_singleton dep) ?_
    intro last isLast next isNext
    rw [split] at isLast
    simp only [List.getLast?_append, List.getLast?_singleton, Option.some_or, Option.mem_def,
      Option.some.injEq, List.head?_cons] at isLast isNext
    rwa [← isLast, ← isNext]
  rw [closedWalk?_eq names first, Option.some.injEq] at closed
  rw [← closed]
  refine ⟨⟨⟨steps, ?_, ?_⟩, ?_⟩, ?_⟩
  · simp
  · rw [List.getLast?_concat]
    rfl
  · rw [List.dropLast_concat]
    exact once
  · exact ⟨front, by rw [split]; simp⟩

end ClosedWalk

/-! ## States of the search -/

/-- The search between two steps. -/
structure SearchState where
  fresh : List String
  path : SearchPath
  /-- Names that were left, the latest first. -/
  finished : List String
  walks : List (List String)

namespace SearchState

def initial (m : DependencyMap) : SearchState := ⟨m.keys, [], [], []⟩

/-- One step of the search. -/
inductive Step (m : DependencyMap) : SearchState → SearchState → Prop where
  /-- A search begins at the next name not reached. -/
  | root {root fresh finished walks} :
    Step m ⟨root :: fresh, [], finished, walks⟩ ⟨fresh, [(root, m.known root)], finished, walks⟩
  /-- A name without dependencies to follow is left. -/
  | leave {fresh name above finished walks} :
    Step m ⟨fresh, (name, []) :: above, finished, walks⟩ ⟨fresh, above, name :: finished, walks⟩
  /-- A dependency that was not reached before is entered. -/
  | enter {fresh name dep todo above finished walks} (reached : dep ∈ fresh) :
    Step m ⟨fresh, (name, dep :: todo) :: above, finished, walks⟩
      ⟨fresh.erase dep, (dep, m.known dep) :: (name, todo) :: above, finished, walks⟩
  /-- A dependency on the path closes a walk. -/
  | close {fresh name dep todo above finished walks walk} (old : dep ∉ fresh)
      (closed : closedWalk? ((name, todo) :: above) dep = some walk) :
    Step m ⟨fresh, (name, dep :: todo) :: above, finished, walks⟩
      ⟨fresh, (name, todo) :: above, finished, walks ++ [walk]⟩
  /-- Any other dependency is passed over. -/
  | skip {fresh name dep todo above finished walks} (old : dep ∉ fresh)
      (offPath : dep ∉ ((name, todo) :: above).map Prod.fst) :
    Step m ⟨fresh, (name, dep :: todo) :: above, finished, walks⟩
      ⟨fresh, (name, todo) :: above, finished, walks⟩

/-- The states that the search goes through. -/
inductive Reached (m : DependencyMap) : SearchState → Prop where
  | initial : Reached m (initial m)
  | step {s t} : Reached m s → Step m s t → Reached m t

/-- The search ends with nothing left to reach, and has reported the cycles of the map. -/
theorem Reached.final (m : DependencyMap) : ∃ finished, Reached m ⟨[], [], finished, m.cycles⟩ := by
  have run : ∀ fresh path finished walks, Reached m ⟨fresh, path, finished, walks⟩ →
      ∃ last, Reached m ⟨[], [], last, walks ++ m.searchFrom fresh path⟩ := by
    intro fresh path
    induction fresh, path using searchFrom.induct m with
    | case1 =>
        intro finished walks reached
        exact ⟨finished, by simpa [searchFrom] using reached⟩
    | case2 root rest ih =>
        intro finished walks reached
        rw [searchFrom]
        exact ih finished walks (reached.step .root)
    | case3 fresh name above ih =>
        intro finished walks reached
        rw [searchFrom]
        exact ih (name :: finished) walks (reached.step .leave)
    | case4 fresh name dep todo above unreached ih =>
        intro finished walks reached
        rw [searchFrom, if_pos unreached]
        exact ih finished walks (reached.step (.enter unreached))
    | case5 fresh name dep todo above old ih =>
        intro finished walks reached
        rw [searchFrom, if_neg old, ← List.append_assoc]
        refine ih finished _ ?_
        cases found : closedWalk? ((name, todo) :: above) dep with
        | none => simpa using reached.step (.skip old (closedWalk?_eq_none_iff.mp found))
        | some walk => exact reached.step (.close old found)
  simpa [cycles] using run m.keys [] [] [] .initial

/-! ## Where each name is -/

/-- Each key is left, on the path or not reached. The path is a chain of dependencies, and what
is still to follow from a name on it is an end of the list of its dependencies. -/
structure Placed (m : DependencyMap) (s : SearchState) : Prop where
  names : (s.finished ++ s.path.map Prod.fst ++ s.fresh).Perm m.keys
  chain : (s.path.map Prod.fst).IsChain fun deeper above => m.Lists above deeper
  todo : ∀ frame ∈ s.path, frame.2 <:+ m.known frame.1

namespace Placed

variable {m : DependencyMap} {s t : SearchState} {fresh finished : List String}
  {walks : List (List String)} {name dep : String} {todo : List String} {above : SearchPath}

theorem distinct (placed : Placed m s) :
    (s.finished ++ s.path.map Prod.fst ++ s.fresh).Nodup :=
  placed.names.nodup_iff.mpr m.nodup_keys

theorem distinct_path (placed : Placed m s) : (s.path.map Prod.fst).Nodup :=
  (List.nodup_append.mp (List.nodup_append.mp placed.distinct).1).2.1

theorem not_fresh (placed : Placed m s) (onPath : name ∈ s.path.map Prod.fst) :
    name ∉ s.fresh := by
  intro fresh
  have apart := (List.nodup_append.mp placed.distinct).2.2
  exact apart name (List.mem_append_right _ onPath) name fresh rfl

theorem edge (placed : Placed m ⟨fresh, (name, dep :: todo) :: above, finished, walks⟩) :
    m.Lists name dep := by
  have part := placed.todo (name, dep :: todo) List.mem_cons_self
  exact mem_known_iff.mp (part.subset List.mem_cons_self)

/-- A dependency on the path closes a simple cycle. -/
theorem closedWalk {walk : List String}
    (placed : Placed m ⟨fresh, (name, dep :: todo) :: above, finished, walks⟩)
    (closed : closedWalk? ((name, todo) :: above) dep = some walk) :
    IsSimpleCycle m.Lists walk ∧ [name, dep] <:+ walk :=
  isSimpleCycle_closedWalk placed.chain placed.distinct_path placed.edge closed

theorem initial (m : DependencyMap) : Placed m (initial m) where
  names := by simp [SearchState.initial]
  chain := List.isChain_nil
  todo := by simp [SearchState.initial]

/-- Passing over a dependency moves no name. -/
theorem passed (more : List (List String))
    (placed : Placed m ⟨fresh, (name, dep :: todo) :: above, finished, walks⟩) :
    Placed m ⟨fresh, (name, todo) :: above, finished, more⟩ where
  names := placed.names
  chain := placed.chain
  todo := by
    intro frame member
    rcases List.mem_cons.mp member with rfl | higher
    · have part := placed.todo (name, dep :: todo) List.mem_cons_self
      exact (List.suffix_cons dep todo).trans part
    · exact placed.todo frame (List.mem_cons_of_mem _ higher)

theorem step (placed : Placed m s) (next : Step m s t) : Placed m t := by
  cases next with
  | root =>
      refine ⟨by simpa using placed.names, List.isChain_singleton _, ?_⟩
      intro frame member
      obtain rfl := List.mem_singleton.mp member
      exact List.suffix_rfl
  | leave =>
      refine ⟨?_, placed.chain.tail, ?_⟩
      · refine List.Perm.trans ?_ placed.names
        simp only [List.map_cons, List.cons_append, List.append_assoc]
        exact List.perm_middle.symm
      · intro frame member
        exact placed.todo frame (List.mem_cons_of_mem _ member)
  | @enter fresh name dep todo above finished walks reached =>
      have rest := placed.passed walks
      refine ⟨?_, ?_, ?_⟩
      · refine List.Perm.trans ?_ rest.names
        simp only [List.map_cons, List.append_assoc]
        refine List.Perm.append_left finished ?_
        have moved : ((name :: above.map Prod.fst) ++ dep :: fresh.erase dep).Perm
            (dep :: (name :: above.map Prod.fst ++ fresh.erase dep)) := List.perm_middle
        exact moved.symm.trans ((List.perm_cons_erase reached).symm.append_left _)
      · exact List.isChain_cons_cons.mpr ⟨placed.edge, placed.chain⟩
      · intro frame member
        rcases List.mem_cons.mp member with rfl | higher
        · exact List.suffix_rfl
        · exact rest.todo frame higher
  | close => exact placed.passed _
  | skip => exact placed.passed _

end Placed

theorem Reached.placed {m : DependencyMap} {s : SearchState} (reached : Reached m s) :
    Placed m s := by
  induction reached with
  | initial => exact .initial m
  | step _ next ih => exact ih.step next

/-- What holds at the start and is kept by steps from states with each name in its place holds in
every state of the search. -/
theorem Reached.invariant {m : DependencyMap} {P : SearchState → Prop} (start : P (.initial m))
    (step : ∀ s t, Placed m s → P s → Step m s t → P t) {s : SearchState}
    (reached : Reached m s) : P s := by
  induction reached with
  | initial => exact start
  | step before next ih => exact step _ _ before.placed ih next

end SearchState

end WorkflowAudit.DependencyMap
