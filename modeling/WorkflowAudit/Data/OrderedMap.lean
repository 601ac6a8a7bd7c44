/-!
# Maps that remember the order of insertion

A map is a list of pairs with distinct keys. Inserting under a present key keeps the key's
place and replaces its value; a new key goes to the end.
-/

namespace WorkflowAudit

/-- A finite map whose entries stand in the order in which their keys were first inserted. -/
structure OrderedMap (κ : Type u) (α : Type v) where
  /-- Keys with their values, in order. -/
  entries : List (κ × α)
  /-- No key stands twice. -/
  nodup : (entries.map Prod.fst).Nodup

namespace OrderedMap

variable {κ : Type u} {α : Type v} {β : Type w}

def empty : OrderedMap κ α := ⟨[], by simp⟩

instance : EmptyCollection (OrderedMap κ α) := ⟨empty⟩

instance : Inhabited (OrderedMap κ α) := ⟨empty⟩

def keys (m : OrderedMap κ α) : List κ := m.entries.map Prod.fst

def values (m : OrderedMap κ α) : List α := m.entries.map Prod.snd

def size (m : OrderedMap κ α) : Nat := m.entries.length

def isEmpty (m : OrderedMap κ α) : Bool := m.entries.isEmpty

theorem ext_entries {m n : OrderedMap κ α} (h : m.entries = n.entries) : m = n := by
  cases m; cases n; cases h; rfl

instance [DecidableEq κ] [DecidableEq α] : DecidableEq (OrderedMap κ α) := fun m n =>
  if h : m.entries = n.entries then isTrue (ext_entries h)
  else isFalse (fun e => h (e ▸ rfl))

instance [Repr κ] [Repr α] : Repr (OrderedMap κ α) := ⟨fun m n => reprPrec m.entries n⟩

/-- Values changed, keys and order kept. -/
def mapValues (f : κ → α → β) (m : OrderedMap κ α) : OrderedMap κ β where
  entries := m.entries.map fun (k, v) => (k, f k v)
  nodup := by simpa [List.map_map, Function.comp_def] using m.nodup

variable [DecidableEq κ]

def get? (m : OrderedMap κ α) (k : κ) : Option α :=
  (m.entries.find? fun e => e.1 = k).map Prod.snd

def contains (m : OrderedMap κ α) (k : κ) : Bool := m.entries.any fun e => e.1 = k

theorem keys_set (entries : List (κ × α)) (k : κ) (v : α) :
    (entries.map fun e => if e.1 = k then (e.1, v) else e).map Prod.fst =
      entries.map Prod.fst := by
  induction entries with
  | nil => rfl
  | cons e es ih =>
    simp only [List.map_cons, ih, List.cons.injEq, and_true]
    split <;> rfl

/-- The value under a key: replaced in place when the key is present, appended when not. -/
def insert (m : OrderedMap κ α) (k : κ) (v : α) : OrderedMap κ α :=
  if h : m.contains k then
    ⟨m.entries.map fun e => if e.1 = k then (e.1, v) else e, by
      rw [keys_set]; exact m.nodup⟩
  else
    ⟨m.entries ++ [(k, v)], by
      have fresh : ∀ e ∈ m.entries, e.1 ≠ k := by
        intro e he hk
        exact h (List.any_eq_true.mpr ⟨e, he, by simpa using hk⟩)
      simp only [List.map_append, List.map_cons, List.map_nil]
      refine List.nodup_append.mpr ⟨m.nodup, by simp, ?_⟩
      intro a ha b hb
      obtain ⟨e, he, rfl⟩ := List.mem_map.mp ha
      simp only [List.mem_singleton] at hb
      exact hb ▸ fresh e he⟩

/-- The map without a key; the other entries keep their order. -/
def erase (m : OrderedMap κ α) (k : κ) : OrderedMap κ α where
  entries := m.entries.filter fun e => e.1 ≠ k
  nodup := m.nodup.sublist (List.filter_sublist.map _)

/-- The value moved or added to the end. -/
def insertLast (m : OrderedMap κ α) (k : κ) (v : α) : OrderedMap κ α :=
  (m.erase k).insert k v

/-- A change to the value under a key, starting from `default` when it is absent. -/
def modify (m : OrderedMap κ α) (k : κ) (default : α) (f : α → α) : OrderedMap κ α :=
  m.insert k (f ((m.get? k).getD default))

/-- Pairs loaded one after another: a repeated key keeps its first place and its last value. -/
def ofList (pairs : List (κ × α)) : OrderedMap κ α :=
  pairs.foldl (fun m e => m.insert e.1 e.2) empty

end OrderedMap

/-- The elements without repetitions, each at its first place. -/
def dedupFirst [DecidableEq α] (xs : List α) : List α :=
  xs.foldl (fun seen x => if x ∈ seen then seen else seen ++ [x]) []

end WorkflowAudit
