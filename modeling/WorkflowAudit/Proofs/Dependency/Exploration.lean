import WorkflowAudit.Proofs.Dependency.Search

/-! # What the search has followed and reported

Two invariants of the search. An edge that was followed and closes no reported walk leads to a
name left before its source, so what remains without the closing edges has no cycle. And an edge
closes a walk only when it is followed, which happens once.
-/

namespace WorkflowAudit.DependencyMap

/-- The last step of one of some walks. -/
def Closes (walks : List (List String)) (name need : String) : Prop :=
  ∃ walk ∈ walks, [name, need] <:+ walk

/-- The dependencies that close none of some walks. -/
def Kept (m : DependencyMap) (walks : List (List String)) (name need : String) : Prop :=
  m.Lists name need ∧ ¬ Closes walks name need

theorem Kept.of_append {m : DependencyMap} {walks more : List (List String)} {name need : String}
    (kept : m.Kept (walks ++ more) name need) : m.Kept walks name need := by
  refine ⟨kept.1, ?_⟩
  rintro ⟨walk, member, last⟩
  exact kept.2 ⟨walk, List.mem_append_left more member, last⟩

theorem closes_concat_iff {walks : List (List String)} {walk : List String} {name need : String} :
    Closes (walks ++ [walk]) name need ↔ Closes walks name need ∨ [name, need] <:+ walk := by
  simp only [Closes, List.mem_append, List.mem_singleton, or_and_right, exists_or, exists_eq_left]

/-- A walk has one last step. -/
theorem last_step_unique {walk : List String} {a b c d : String}
    (left : [a, b] <:+ walk) (right : [c, d] <:+ walk) : a = c ∧ b = d := by
  have same : [a, b] = [c, d] :=
    (List.suffix_of_suffix_length_le left right (Nat.le_refl 2)).eq_of_length rfl
  simpa using same

namespace SearchState

/-! ## What was followed -/

/-- Each name leads only to names left before it. -/
def Leads (r : String → String → Prop) : List String → Prop
  | [] => True
  | name :: earlier => (∀ need, r name need → need ∈ earlier) ∧ Leads r earlier

/-- Each name on a path leads only to names that it has still to follow, to names left before,
and to deeper names on the path, which will be left before it. -/
def Follows (r : String → String → Prop) : List String → SearchPath → Prop
  | _, [] => True
  | earlier, (name, todo) :: above =>
    (∀ need, r name need → need ∈ todo ∨ need ∈ earlier) ∧ Follows r (name :: earlier) above

section Followed

variable {r weaker : String → String → Prop}

theorem Leads.mono (implies : ∀ name need, weaker name need → r name need) {finished : List String}
    (leads : Leads r finished) : Leads weaker finished := by
  induction finished with
  | nil => trivial
  | cons name earlier ih =>
      exact ⟨fun need edge => leads.1 need (implies name need edge), ih leads.2⟩

theorem Follows.mono (implies : ∀ name need, weaker name need → r name need)
    {earlier later : List String} (more : earlier ⊆ later) {path : SearchPath}
    (follows : Follows r earlier path) : Follows weaker later path := by
  induction path generalizing earlier later with
  | nil => trivial
  | cons frame above ih =>
      refine ⟨?_, ih (List.cons_subset_cons _ more) follows.2⟩
      intro need edge
      exact (follows.1 need (implies _ need edge)).imp_right (@more need)

/-- Later names stand first, so an edge leads to a greater index. -/
theorem Leads.idxOf_lt {finished : List String} (leads : Leads r finished)
    (distinct : finished.Nodup) {name need : String} (member : name ∈ finished)
    (edge : r name need) : need ∈ finished ∧ finished.idxOf name < finished.idxOf need := by
  induction finished with
  | nil => contradiction
  | cons latest earlier ih =>
      obtain ⟨new, distinct⟩ := List.nodup_cons.mp distinct
      rcases List.mem_cons.mp member with rfl | old
      · have inside := leads.1 need edge
        have other : name ≠ need := fun same => new (same ▸ inside)
        refine ⟨List.mem_cons_of_mem _ inside, ?_⟩
        rw [List.idxOf_cons_self, List.idxOf_cons_ne _ other]
        exact Nat.succ_pos _
      · obtain ⟨inside, less⟩ := ih leads.2 distinct old
        refine ⟨List.mem_cons_of_mem _ inside, ?_⟩
        rw [List.idxOf_cons_ne _ (ne_of_mem_of_not_mem old new).symm,
          List.idxOf_cons_ne _ (ne_of_mem_of_not_mem inside new).symm]
        exact Nat.succ_lt_succ less

end Followed

/-- Without the edges that closed a reported walk, names lead to what was left before them. -/
structure Explored (m : DependencyMap) (s : SearchState) : Prop where
  leads : Leads (m.Kept s.walks) s.finished
  follows : Follows (m.Kept s.walks) s.finished s.path

namespace Explored

variable {m : DependencyMap} {s t : SearchState} {fresh finished : List String}
  {walks : List (List String)} {name dep : String} {todo : List String} {above : SearchPath}

theorem initial (m : DependencyMap) : Explored m (initial m) := ⟨trivial, trivial⟩

/-- A dependency may be passed over when it was left already, or when the edge to it closes a
walk. -/
theorem passed (more : List (List String))
    (explored : Explored m ⟨fresh, (name, dep :: todo) :: above, finished, walks⟩)
    (settled : m.Kept (walks ++ more) name dep → dep ∈ finished) :
    Explored m ⟨fresh, (name, todo) :: above, finished, walks ++ more⟩ where
  leads := explored.leads.mono fun _ _ kept => kept.of_append
  follows := by
    obtain ⟨here, higher⟩ := explored.follows
    refine ⟨?_, higher.mono (fun _ _ kept => kept.of_append) (List.Subset.refl _)⟩
    intro need kept
    rcases here need kept.of_append with listed | left
    · rcases List.mem_cons.mp listed with rfl | listed
      · exact .inr (settled kept)
      · exact .inl listed
    · exact .inr left

theorem step (explored : Explored m s) (placed : Placed m s) (next : Step m s t) :
    Explored m t := by
  cases next with
  | root =>
      refine ⟨explored.leads, ?_, trivial⟩
      intro need kept
      exact .inl (mem_known_iff.mpr kept.1)
  | leave =>
      -- Nothing is deeper than the name that is left, and it has nothing to follow.
      obtain ⟨here, higher⟩ := explored.follows
      refine ⟨⟨?_, explored.leads⟩, higher⟩
      intro need kept
      exact (here need kept).resolve_left (List.not_mem_nil)
  | enter reached =>
      obtain ⟨here, higher⟩ := explored.follows
      refine ⟨explored.leads, ?_, ?_, ?_⟩
      · intro need kept
        exact .inl (mem_known_iff.mpr kept.1)
      · intro need kept
        rcases here need kept with listed | left
        · rcases List.mem_cons.mp listed with rfl | listed
          · exact .inr List.mem_cons_self
          · exact .inl listed
        · exact .inr (List.mem_cons_of_mem _ left)
      · exact higher.mono (fun _ _ kept => kept)
          (List.cons_subset_cons _ (List.subset_cons_self _ _))
  | close old closed =>
      refine explored.passed _ fun kept => absurd ?_ kept.2
      exact closes_concat_iff.mpr (.inr (placed.closedWalk closed).2)
  | @skip fresh name dep todo above finished walks old offPath =>
      -- Neither new nor on the path: the name was left before.
      have settled : dep ∈ finished := by
        have somewhere := placed.names.mem_iff.mpr placed.edge.need_mem
        simp only [List.mem_append, old, or_false] at somewhere
        exact somewhere.resolve_right offPath
      simpa using explored.passed [] fun _ => settled

end Explored

/-! ## What was reported -/

/-- Reported walks are simple cycles with different last steps. The last step of a reported walk
is an edge that was followed: its source was reached, and if it stands on the path, the edge is
no longer to follow. -/
structure Reported (m : DependencyMap) (s : SearchState) : Prop where
  simple : ∀ walk ∈ s.walks, IsSimpleCycle m.Lists walk
  apart : s.walks.Pairwise fun v w => ∀ name need, [name, need] <:+ v → ¬ [name, need] <:+ w
  reached : ∀ name need, Closes s.walks name need → name ∉ s.fresh
  followed : ∀ frame ∈ s.path, ∀ need, Closes s.walks frame.1 need → need ∉ frame.2

namespace Reported

variable {m : DependencyMap} {s t : SearchState} {fresh finished : List String}
  {walks : List (List String)} {name dep : String} {todo : List String} {above : SearchPath}

theorem initial (m : DependencyMap) : Reported m (initial m) := by
  constructor <;> simp [SearchState.initial, Closes]

/-- An edge that was followed stays so when another one is passed over. -/
theorem followed_passed
    (reported : Reported m ⟨fresh, (name, dep :: todo) :: above, finished, walks⟩) :
    ∀ frame ∈ (name, todo) :: above, ∀ need, Closes walks frame.1 need → need ∉ frame.2 := by
  intro frame member need closes
  rcases List.mem_cons.mp member with rfl | higher
  · intro listed
    exact reported.followed (name, dep :: todo) List.mem_cons_self need closes
      (List.mem_cons_of_mem _ listed)
  · exact reported.followed frame (List.mem_cons_of_mem _ higher) need closes

theorem close {walk : List String}
    (reported : Reported m ⟨fresh, (name, dep :: todo) :: above, finished, walks⟩)
    (placed : Placed m ⟨fresh, (name, dep :: todo) :: above, finished, walks⟩)
    (closed : closedWalk? ((name, todo) :: above) dep = some walk) :
    Reported m ⟨fresh, (name, todo) :: above, finished, walks ++ [walk]⟩ := by
  obtain ⟨cycle, last⟩ := placed.closedWalk closed
  refine ⟨?_, ?_, ?_, ?_⟩
  · intro other member
    rcases List.mem_append.mp member with old | new
    · exact reported.simple other old
    · obtain rfl := List.mem_singleton.mp new
      exact cycle
  · refine List.pairwise_append.mpr ⟨reported.apart, List.pairwise_singleton _ _, ?_⟩
    intro old member new isWalk x y lastOld lastNew
    obtain rfl := List.mem_singleton.mp isWalk
    -- The edge was still to follow, so no earlier walk ends with it.
    obtain ⟨rfl, rfl⟩ := last_step_unique last lastNew
    exact reported.followed (name, dep :: todo) List.mem_cons_self dep ⟨old, member, lastOld⟩
      List.mem_cons_self
  · intro x y closes
    rcases closes_concat_iff.mp closes with old | new
    · exact reported.reached x y old
    · obtain ⟨rfl, rfl⟩ := last_step_unique last new
      exact placed.not_fresh (by simp)
  · intro frame member y closes
    rcases closes_concat_iff.mp closes with old | new
    · exact reported.followed_passed frame member y old
    · obtain ⟨source, rfl⟩ := last_step_unique last new
      rcases List.mem_cons.mp member with rfl | higher
      · have part := placed.todo (name, dep :: todo) List.mem_cons_self
        exact (List.nodup_cons.mp ((m.nodup_known name).sublist part.sublist)).1
      · have once := (List.nodup_cons.mp placed.distinct_path).1
        have again : name ∈ above.map Prod.fst := List.mem_map.mpr ⟨frame, higher, source.symm⟩
        exact absurd again once

theorem step (reported : Reported m s) (placed : Placed m s) (next : Step m s t) :
    Reported m t := by
  cases next with
  | root =>
      refine ⟨reported.simple, reported.apart, ?_, ?_⟩
      · intro name need closes member
        exact reported.reached name need closes (List.mem_cons_of_mem _ member)
      · intro frame member need closes
        obtain rfl := List.mem_singleton.mp member
        exact absurd List.mem_cons_self (reported.reached _ need closes)
  | leave =>
      refine ⟨reported.simple, reported.apart, reported.reached, ?_⟩
      intro frame member
      exact reported.followed frame (List.mem_cons_of_mem _ member)
  | enter unreached =>
      refine ⟨reported.simple, reported.apart, ?_, ?_⟩
      · intro name need closes member
        exact reported.reached name need closes (List.mem_of_mem_erase member)
      · intro frame member need closes
        rcases List.mem_cons.mp member with rfl | member
        · exact absurd unreached (reported.reached _ need closes)
        · exact reported.followed_passed frame member need closes
  | close old closed => exact reported.close placed closed
  | skip old offPath =>
      exact ⟨reported.simple, reported.apart, reported.reached, reported.followed_passed⟩

end Reported

theorem Reached.explored {m : DependencyMap} {s : SearchState} (reached : Reached m s) :
    Explored m s :=
  reached.invariant (.initial m) fun _ _ placed explored next => explored.step placed next

theorem Reached.reported {m : DependencyMap} {s : SearchState} (reached : Reached m s) :
    Reported m s :=
  reached.invariant (.initial m) fun _ _ placed reported next => reported.step placed next

end SearchState

end WorkflowAudit.DependencyMap
