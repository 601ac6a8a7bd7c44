import Mathlib.Data.Fintype.Card
import Mathlib.Data.Fintype.EquivFin
import Mathlib.Data.Fintype.Sets
import Mathlib.Data.List.Chain
import Mathlib.Logic.Relation
import Mathlib.Order.WellFounded
import WorkflowAudit.Dependency.Map
import WorkflowAudit.Proofs.Data.OrderedMap

/-! # The dependency relation

A map of dependencies is read as a relation between its keys: one lists the other. Cycles are
those of this relation, so a name that lists itself is on a cycle, and a name that is listed
twice or is no key changes nothing. Nothing here mentions how an order or a cycle is searched.
-/

namespace WorkflowAudit

open Relation

section Cycles

variable {α : Type u} {r s : α → α → Prop}

/-- Nothing reaches itself in one or more steps. -/
def Acyclic (r : α → α → Prop) : Prop := ∀ a, ¬ TransGen r a a

namespace Acyclic

theorem of_rank (rank : α → Nat) (falls : ∀ a b, r a b → rank b < rank a) : Acyclic r := by
  have descends : ∀ a b, TransGen r a b → rank b < rank a := by
    intro a b path
    induction path with
    | single edge => exact falls _ _ edge
    | tail _ edge ih => exact (falls _ _ edge).trans ih
  intro a loop
  exact Nat.lt_irrefl _ (descends a a loop)

theorem mono (weaker : ∀ a b, s a b → r a b) (acyclic : Acyclic r) : Acyclic s := by
  intro a loop
  exact acyclic a (TransGen.mono weaker _ _ loop)

/-- A relation that only renames another one has cycles only if that has. -/
theorem of_rename {β : Type v} {t : β → β → Prop} (f : α → β) (distinct : Function.Injective f)
    (renames : ∀ x y, t x y → ∃ a b, x = f a ∧ y = f b ∧ r a b) (acyclic : Acyclic r) :
    Acyclic t := by
  have path : ∀ x y, TransGen t x y → ∃ a b, x = f a ∧ y = f b ∧ TransGen r a b := by
    intro x y steps
    induction steps with
    | single edge =>
        obtain ⟨a, b, left, right, step⟩ := renames _ _ edge
        exact ⟨a, b, left, right, .single step⟩
    | tail _ edge ih =>
        obtain ⟨a, b, left, middle, before⟩ := ih
        obtain ⟨b', c, again, right, step⟩ := renames _ _ edge
        obtain rfl := distinct (middle.symm.trans again)
        exact ⟨a, c, left, right, before.tail step⟩
  intro x loop
  obtain ⟨a, b, left, right, steps⟩ := path x x loop
  obtain rfl := distinct (left.symm.trans right)
  exact acyclic a steps

/-- Among finitely many elements there is one without a successor among them. -/
theorem exists_sink [DecidableEq α] (acyclic : Acyclic r) {xs : List α} (inhabited : xs ≠ []) :
    ∃ x ∈ xs, ∀ y ∈ xs, ¬ r x y := by
  let below : {x // x ∈ xs} → {x // x ∈ xs} → Prop := fun y x => TransGen r x.1 y.1
  have : IsTrans _ below := ⟨fun _ _ _ lower upper => upper.trans lower⟩
  have : Std.Irrefl below := ⟨fun x => acyclic x.1⟩
  have wellFounded : WellFounded below := Finite.wellFounded_of_trans_of_irrefl below
  obtain ⟨first, member⟩ := List.exists_mem_of_ne_nil xs inhabited
  obtain ⟨x, -, least⟩ := wellFounded.has_min Set.univ ⟨⟨first, member⟩, trivial⟩
  exact ⟨x.1, x.2, fun y inside edge => least ⟨y, inside⟩ trivial (.single edge)⟩

end Acyclic

/-- A walk that ends where it begins, after one step at least. -/
structure IsClosedWalk (r : α → α → Prop) (walk : List α) : Prop where
  steps : walk.IsChain r
  long : 2 ≤ walk.length
  closed : walk.head? = walk.getLast?

/-- A closed walk that visits nothing twice but its first element, which is also its last. -/
structure IsSimpleCycle (r : α → α → Prop) (walk : List α) : Prop extends IsClosedWalk r walk where
  distinct : walk.dropLast.Nodup

theorem transGen_getLast {a b : α} {rest : List α} (steps : (a :: b :: rest).IsChain r) :
    TransGen r a ((b :: rest).getLast (List.cons_ne_nil b rest)) := by
  induction rest generalizing a b with
  | nil => exact .single (List.isChain_pair.mp steps)
  | cons c rest ih =>
      rw [List.isChain_cons_cons] at steps
      exact .head steps.1 (ih steps.2)

theorem IsClosedWalk.exists_loop {walk : List α} (cycle : IsClosedWalk r walk) :
    ∃ a, TransGen r a a := by
  match walk, cycle with
  | [], cycle => exact absurd cycle.long (by simp)
  | [_], cycle => exact absurd cycle.long (by simp)
  | a :: b :: rest, cycle =>
      have last : a = (b :: rest).getLast (List.cons_ne_nil b rest) := by
        simpa [List.getLast?_eq_getLast_of_ne_nil] using cycle.closed
      have path := transGen_getLast cycle.steps
      rw [← last] at path
      exact ⟨a, path⟩

theorem Acyclic.not_isClosedWalk (acyclic : Acyclic r) {walk : List α} :
    ¬ IsClosedWalk r walk := by
  intro cycle
  obtain ⟨a, loop⟩ := cycle.exists_loop
  exact acyclic a loop

end Cycles

namespace DependencyMap

/-- `name` lists `need`, and both are keys of the map. -/
def Lists (m : DependencyMap) (name need : String) : Prop :=
  (∃ listed, (name, listed) ∈ m.entries ∧ need ∈ listed) ∧ need ∈ m.keys

namespace Lists

variable {m : DependencyMap} {name need : String}

theorem name_mem (edge : m.Lists name need) : name ∈ m.keys := by
  obtain ⟨⟨_, entry, _⟩, _⟩ := edge
  exact OrderedMap.mem_keys_of_entry entry

theorem need_mem (edge : m.Lists name need) : need ∈ m.keys := edge.2

end Lists

variable {m : DependencyMap} {name need : String}

theorem mem_needs_iff :
    need ∈ m.needs name ↔ ∃ listed, (name, listed) ∈ m.entries ∧ need ∈ listed := by
  simp only [needs]
  cases found : m.get? name with
  | none =>
      have absent : ∀ listed, (name, listed) ∉ m.entries := by
        intro listed entry
        rw [OrderedMap.get?_eq_some_iff.mpr entry] at found
        contradiction
      simp [absent]
  | some listed =>
      have entry := OrderedMap.get?_eq_some_iff.mp found
      constructor
      · intro member
        exact ⟨listed, entry, member⟩
      · rintro ⟨other, otherEntry, member⟩
        rwa [OrderedMap.entry_unique otherEntry entry] at member

theorem mem_known_iff : need ∈ m.known name ↔ m.Lists name need := by
  simp only [known, mem_dedupFirst, List.mem_filter, mem_needs_iff, OrderedMap.contains_iff, Lists]

theorem nodup_known (m : DependencyMap) (name : String) : (m.known name).Nodup :=
  nodup_dedupFirst _

end DependencyMap

end WorkflowAudit
