import Mathlib.Data.List.Forall2
import Mathlib.Data.List.Nodup
import Mathlib.Data.List.Lex

/-!
# Walks with a stack

A walk takes the last node off a stack, visits it and puts its parts on the stack in reverse. So it
visits the nodes in the order of the paths that lead to them, where a path comes before those that
go on from it: each node once, before its parts, and these one after the other.
-/

namespace WorkflowAudit.Walk

variable {α : Type} (parts : α → List α)

/-- What a walk visits from a stack, which ends with its top. -/
inductive Visits : List α → List α → Prop
  | done : Visits [] []
  | visit {stack node visited} (rest : Visits (stack ++ (parts node).reverse) visited) :
      Visits (stack ++ [node]) (node :: visited)

/-- The node at the end of a path that begins at a node. -/
def descend : α → List Nat → Option α
  | node, [] => some node
  | node, i :: path => (parts node)[i]?.bind fun part => descend part path

/-- The node at the end of a path whose first position is one among some nodes. -/
def among (nodes : List α) : List Nat → Option α
  | [] => none
  | i :: path => nodes[i]?.bind fun node => descend parts node path

/-- The paths to all nodes in pre-order: each path once, before those that go on from it and before
those that turn off to a later part. -/
structure IsPreorder (node? : List Nat → Option α) (paths : List (List Nat)) : Prop where
  ordered : paths.Pairwise (· < ·)
  all : ∀ path, path ∈ paths ↔ (node? path).isSome

variable {parts}

theorem Visits.unique {stack visited visited' : List α} (h : Visits parts stack visited)
    (h' : Visits parts stack visited') : visited = visited' := by
  induction h generalizing visited' with
  | done =>
    generalize hstack : ([] : List α) = stack at h'
    cases h' with
    | done => rfl
    | visit => simp at hstack
  | @visit stack node visited rest ih =>
    generalize hstack : stack ++ [node] = stack' at h'
    cases h' with
    | done => simp at hstack
    | visit rest' =>
      obtain ⟨rfl, hnode⟩ := List.append_inj' hstack rfl
      obtain rfl := List.singleton_inj.mp hnode
      rw [ih rest']

theorem Visits.map {β : Type} {parts' : β → List β} {f : α → β} {stack visited : List α}
    (h : Visits parts stack visited) (hf : ∀ a, parts' (f a) = (parts a).map f) :
    Visits parts' (stack.map f) (visited.map f) := by
  induction h with
  | done => exact .done
  | visit _ ih =>
    rw [List.map_append, List.map_reverse, ← hf] at ih
    rw [List.map_append]
    exact .visit ih

/-- There is one list of paths in pre-order. -/
theorem IsPreorder.unique {β : Type} {node? : List Nat → Option α} {node?' : List Nat → Option β}
    {paths paths' : List (List Nat)} (h : IsPreorder node? paths) (h' : IsPreorder node?' paths')
    (same : ∀ path, (node? path).isSome = (node?' path).isSome) : paths = paths' := by
  have members : ∀ path, path ∈ paths ↔ path ∈ paths' := fun path => by rw [h.all, h'.all, same]
  have perm : paths.Perm paths' := (List.perm_ext_iff_of_nodup (h.ordered.imp ne_of_lt)
    (h'.ordered.imp ne_of_lt)).mpr members
  exact perm.eq_of_pairwise (fun _ _ _ _ hab hba => absurd hab (lt_asymm hba)) h.ordered h'.ordered

/-! ## Where the nodes of a stack stand -/

/-- The path to a node below the first one or among the others, from its place once the first node
is replaced by its `k` parts. -/
def relocate (k : Nat) : List Nat → List Nat
  | [] => []
  | i :: path => if i < k then 0 :: i :: path else (i - k + 1) :: path

theorem among_relocate (node : α) (nodes : List α) {path : List Nat} (hpath : path ≠ []) :
    among parts (node :: nodes) (relocate (parts node).length path) =
      among parts (parts node ++ nodes) path := by
  obtain ⟨i, path, rfl⟩ := List.exists_cons_of_ne_nil hpath
  rw [relocate, among]
  split
  case isTrue inside =>
    rw [List.getElem?_append_left inside]
    rfl
  case isFalse behind =>
    rw [List.getElem?_append_right (Nat.not_lt.mp behind)]
    rfl

theorem relocate_lt_relocate (k : Nat) {path path' : List Nat} (hpath : path ≠ [])
    (h : path < path') : relocate k path < relocate k path' := by
  obtain ⟨i, path, rfl⟩ := List.exists_cons_of_ne_nil hpath
  cases path' with
  | nil => cases h
  | cons j path' =>
    unfold relocate
    dsimp only
    rcases List.cons_lt_cons_iff.mp h with less | ⟨rfl, less⟩
    · split <;> split
      · simp [List.cons_lt_cons_iff, less]
      · simp [List.cons_lt_cons_iff]
      · omega
      · exact List.cons_lt_cons_iff.mpr (.inl (by omega))
    · split <;> simp [less]

theorem head_lt_relocate (k : Nat) {path : List Nat} (hpath : path ≠ []) :
    [0] < relocate k path := by
  obtain ⟨i, path, rfl⟩ := List.exists_cons_of_ne_nil hpath
  unfold relocate
  dsimp only
  split <;> simp [List.cons_lt_cons_iff]

/-- Every node is the first one, or it stands below it or among the others. -/
theorem exists_relocate {node : α} {nodes : List α} {path : List Nat}
    (h : (among parts (node :: nodes) path).isSome) :
    path = [0] ∨ ∃ path', path' ≠ [] ∧ path = relocate (parts node).length path' := by
  rcases path with _ | ⟨_ | j, path⟩
  · cases h
  · cases path with
    | nil => exact .inl rfl
    | cons i path =>
      have inside : i < (parts node).length := by
        by_contra beyond
        simp [among, descend, List.getElem?_eq_none (Nat.not_lt.mp beyond)] at h
      exact .inr ⟨i :: path, List.cons_ne_nil _ _, by rw [relocate, if_pos inside]⟩
  · refine .inr ⟨(j + (parts node).length) :: path, List.cons_ne_nil _ _, ?_⟩
    rw [relocate, if_neg (by omega), Nat.add_sub_cancel]

/-- A walk visits the nodes in pre-order. -/
theorem Visits.exists_paths {stack visited : List α} (h : Visits parts stack visited) :
    ∃ paths, IsPreorder (among parts stack.reverse) paths ∧
      List.Forall₂ (fun path node => among parts stack.reverse path = some node) paths visited := by
  induction h with
  | done => exact ⟨[], ⟨.nil, fun path => by cases path <;> simp [among]⟩, .nil⟩
  | @visit stack node visited rest ih =>
    obtain ⟨paths, ⟨ordered, all⟩, found⟩ := ih
    rw [List.reverse_append, List.reverse_reverse] at all found
    rw [List.reverse_append, List.reverse_singleton, List.singleton_append]
    have nonempty : ∀ path ∈ paths, path ≠ [] := by
      rintro path member rfl
      simpa [among] using (all []).mp member
    refine ⟨[0] :: paths.map (relocate (parts node).length),
      ⟨?_, fun path => ⟨fun member => ?_, fun known => ?_⟩⟩, .cons rfl ?_⟩
    · refine List.pairwise_cons.mpr ⟨List.forall_mem_map.mpr fun path member =>
        head_lt_relocate _ (nonempty path member), List.pairwise_map.mpr ?_⟩
      exact ordered.imp_of_mem fun member _ before =>
        relocate_lt_relocate _ (nonempty _ member) before
    · rcases List.mem_cons.mp member with rfl | member
      · rfl
      · obtain ⟨path', member', rfl⟩ := List.mem_map.mp member
        rw [among_relocate node _ (nonempty path' member')]
        exact (all path').mp member'
    · rcases exists_relocate known with rfl | ⟨path, hpath, rfl⟩
      · exact List.mem_cons_self
      · rw [among_relocate node _ hpath] at known
        exact List.mem_cons_of_mem _ (List.mem_map_of_mem ((all path).mpr known))
    · refine List.forall₂_map_left_iff.mpr (found.imp fun path v there => ?_)
      rw [among_relocate node _ (by rintro rfl; cases there)]
      exact there

/-- The same for a walk that begins at one node, with the paths from there. -/
theorem Visits.exists_paths_of_node {node : α} {visited : List α} (h : Visits parts [node] visited) :
    ∃ paths, IsPreorder (descend parts node) paths ∧
      List.Forall₂ (fun path v => descend parts node path = some v) paths visited := by
  obtain ⟨paths, ⟨ordered, all⟩, found⟩ := h.exists_paths
  rw [List.reverse_singleton] at all found
  have begins : ∀ {path : List Nat}, (among parts [node] path).isSome → path = 0 :: path.tail := by
    rintro (_ | ⟨_ | i, path⟩) known
    · cases known
    · rfl
    · cases known
  refine ⟨paths.map List.tail, ⟨?_, fun path => ⟨fun member => ?_, fun known => ?_⟩⟩, ?_⟩
  · refine List.pairwise_map.mpr (ordered.imp_of_mem fun {p q} hp hq before => ?_)
    rw [begins ((all p).mp hp), begins ((all q).mp hq)] at before
    simpa using before
  · obtain ⟨path', member', rfl⟩ := List.mem_map.mp member
    have known := (all path').mp member'
    rw [begins known] at known
    exact known
  · exact List.mem_map.mpr ⟨0 :: path, (all _).mpr known, rfl⟩
  · refine List.forall₂_map_left_iff.mpr (found.imp fun path v there => ?_)
    have known : (among parts [node] path).isSome := by rw [there]; rfl
    rw [begins known] at there
    exact there

end WorkflowAudit.Walk
