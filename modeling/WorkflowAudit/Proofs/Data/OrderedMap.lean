import Mathlib.Data.List.Dedup
import Mathlib.Data.List.Induction
import Mathlib.Data.List.Nodup
import Mathlib.Data.List.Perm.Subperm
import WorkflowAudit.Data.OrderedMap

/-! # Look-up in ordered maps

Since keys are distinct, a map is known by the pairs that it holds: look-up finds exactly the
value that a key is paired with. A map loaded from pairs has their keys at their first places and
their values of the last. The removal of repetitions is here as well, since keys and needs are both
lists without repetitions.
-/

namespace WorkflowAudit

namespace OrderedMap

variable {κ : Type u} {α : Type v} {β : Type w}

@[simp] theorem length_keys (m : OrderedMap κ α) : m.keys.length = m.size := by
  simp only [keys, size, List.length_map]

theorem nodup_keys (m : OrderedMap κ α) : m.keys.Nodup := m.nodup

theorem mem_keys_of_entry {m : OrderedMap κ α} {k : κ} {v : α} (member : (k, v) ∈ m.entries) :
    k ∈ m.keys :=
  List.mem_map.mpr ⟨(k, v), member, rfl⟩

/-- Entries stand in the order of their keys. -/
theorem pairwise_idxOf_entries [DecidableEq κ] (m : OrderedMap κ α) :
    m.entries.Pairwise fun a b => m.keys.idxOf a.1 < m.keys.idxOf b.1 := by
  have keys : m.keys.Pairwise fun a b => m.keys.idxOf a < m.keys.idxOf b := by
    rw [List.pairwise_iff_getElem]
    intro i j _ _ less
    rwa [m.nodup_keys.idxOf_getElem, m.nodup_keys.idxOf_getElem]
  exact (List.pairwise_map (f := Prod.fst)).mp keys

/-- A key is paired with one value only. -/
theorem entry_unique {m : OrderedMap κ α} {k : κ} {v w : α}
    (left : (k, v) ∈ m.entries) (right : (k, w) ∈ m.entries) : v = w := by
  have same := List.inj_on_of_nodup_map m.nodup left right rfl
  exact congrArg Prod.snd same

@[simp] theorem keys_mapValues (f : κ → α → β) (m : OrderedMap κ α) :
    (m.mapValues f).keys = m.keys := by
  simp [keys, mapValues, Function.comp_def]

variable [DecidableEq κ]

@[simp] theorem contains_iff {m : OrderedMap κ α} {k : κ} : m.contains k = true ↔ k ∈ m.keys := by
  simp [contains, keys]

theorem get?_eq_some_iff {m : OrderedMap κ α} {k : κ} {v : α} :
    m.get? k = some v ↔ (k, v) ∈ m.entries := by
  constructor
  · intro found
    obtain ⟨entry, located, rfl⟩ := Option.map_eq_some_iff.mp found
    have key : entry.1 = k := by simpa using List.find?_some located
    have member := List.mem_of_find?_eq_some located
    rwa [← key]
  · intro member
    cases located : m.entries.find? fun e => e.1 = k with
    | none =>
        have absent := List.find?_eq_none.mp located (k, v) member
        simp at absent
    | some entry =>
        have key : entry.1 = k := by simpa using List.find?_some located
        have other : (k, entry.2) ∈ m.entries := by
          rw [← key]
          exact List.mem_of_find?_eq_some located
        simp only [get?, located, Option.map_some, Option.some.injEq]
        exact entry_unique other member

theorem get?_eq_none_iff {m : OrderedMap κ α} {k : κ} : m.get? k = none ↔ k ∉ m.keys := by
  rw [Option.eq_none_iff_forall_ne_some]
  simp only [ne_eq, get?_eq_some_iff, keys, List.mem_map, Prod.exists, exists_and_right,
    exists_eq_right, not_exists]

/-- Keys in their order and what look-up finds determine a map. -/
theorem ext_get? {m n : OrderedMap κ α} (keys : m.keys = n.keys)
    (values : ∀ k, m.get? k = n.get? k) : m = n := by
  refine ext_entries (List.ext_getElem ?_ ?_)
  · simpa only [length_keys, size] using congrArg List.length keys
  · intro i left right
    have key : m.entries[i].1 = n.entries[i].1 := by
      have here := congrArg (·[i]?) keys
      simpa [OrderedMap.keys, left, right] using here
    have found : m.get? m.entries[i].1 = some m.entries[i].2 :=
      get?_eq_some_iff.mpr (List.getElem_mem left)
    have same : n.get? n.entries[i].1 = some n.entries[i].2 :=
      get?_eq_some_iff.mpr (List.getElem_mem right)
    rw [values, key, same, Option.some.injEq] at found
    exact Prod.ext key found.symm

/-! ## Changes -/

theorem keys_insert (m : OrderedMap κ α) (k : κ) (v : α) :
    (m.insert k v).keys = if k ∈ m.keys then m.keys else m.keys ++ [k] := by
  simp only [insert, ← contains_iff]
  split
  · exact keys_set m.entries k v
  · exact List.map_append

theorem get?_insert (m : OrderedMap κ α) (k other : κ) (v : α) :
    (m.insert k v).get? other = if other = k then some v else m.get? other := by
  have entry : ∀ w, (other, w) ∈ (m.insert k v).entries ↔
      if other = k then w = v else (other, w) ∈ m.entries := by
    intro w
    simp only [insert]
    split
    · rename_i present
      obtain ⟨⟨key, old⟩, member, rfl⟩ := List.mem_map.mp (contains_iff.mp present)
      simp only [List.mem_map, Prod.exists, apply_ite (· = (other, w)), Prod.mk.injEq]
      split
      · rename_i same
        constructor
        · rintro ⟨a, b, -, written⟩
          split at written
          · exact written.2.symm
          · rename_i differs
            exact absurd (written.1.trans same) differs
        · rintro rfl
          exact ⟨key, old, member, by simp [same]⟩
      · rename_i differs
        constructor
        · rintro ⟨a, b, inside, written⟩
          split at written
          · rename_i here
            exact absurd (written.1.symm.trans here) differs
          · obtain ⟨rfl, rfl⟩ := written
            exact inside
        · intro inside
          exact ⟨other, w, inside, by simp [differs]⟩
    · rename_i absent
      simp only [List.mem_append, List.mem_singleton, Prod.mk.injEq]
      split
      · rename_i same
        subst same
        have none : (other, w) ∉ m.entries := by
          intro member
          exact absent (contains_iff.mpr (mem_keys_of_entry member))
        simp [none]
      · rename_i differs
        simp [differs]
  ext w
  rw [get?_eq_some_iff, entry]
  split
  · simp [eq_comm]
  · exact get?_eq_some_iff.symm

theorem mem_entries_insert {m : OrderedMap κ α} {k : κ} {v : α} {e : κ × α}
    (member : e ∈ (m.insert k v).entries) : e.2 = v ∨ e ∈ m.entries := by
  have found := get?_eq_some_iff.mpr member
  rw [get?_insert] at found
  split at found
  · exact .inl (Option.some.inj found).symm
  · exact .inr (get?_eq_some_iff.mp found)

theorem get?_mapValues (f : κ → α → β) (m : OrderedMap κ α) (k : κ) :
    (m.mapValues f).get? k = (m.get? k).map (f k) := by
  ext w
  simp only [get?_eq_some_iff, mapValues, List.mem_map, Prod.mk.injEq, Prod.exists,
    Option.map_eq_some_iff]
  constructor
  · rintro ⟨_, v, member, rfl, rfl⟩
    exact ⟨v, member, rfl⟩
  · rintro ⟨v, member, rfl⟩
    exact ⟨k, v, member, rfl, rfl⟩

/-- New keys are appended in their order. -/
theorem entries_foldl_insert (m : OrderedMap κ α) (more : List (κ × α))
    (fresh : (m.keys ++ more.map Prod.fst).Nodup) :
    (more.foldl (fun n e => n.insert e.1 e.2) m).entries = m.entries ++ more := by
  induction more generalizing m with
  | nil => simp
  | cons e more ih =>
      have absent : m.contains e.1 = false := by
        have apart := (List.nodup_append.mp fresh).2.2
        rw [Bool.eq_false_iff, ne_eq, contains_iff]
        exact fun member => apart e.1 member e.1 (by simp) rfl
      have inserted : (m.insert e.1 e.2).entries = m.entries ++ [e] := by
        simp [insert, absent]
      have keys : (m.insert e.1 e.2).keys = m.keys ++ [e.1] := by
        simp [OrderedMap.keys, inserted]
      rw [List.foldl_cons, ih _ (by simpa [keys] using fresh), inserted]
      simp

/-- Pairs with distinct keys put into a map hide what it held under these keys. -/
theorem get?_foldl_insert {pairs : List (κ × α)} (distinct : (pairs.map Prod.fst).Nodup)
    (m : OrderedMap κ α) (k : κ) :
    (pairs.foldl (fun n e => n.insert e.1 e.2) m).get? k =
      ((pairs.find? fun e => e.1 = k).map Prod.snd).or (m.get? k) := by
  induction pairs generalizing m with
  | nil => rfl
  | cons e pairs ih =>
      obtain ⟨fresh, distinct⟩ := List.nodup_cons.mp distinct
      rw [List.foldl_cons, ih distinct, get?_insert, List.find?_cons]
      by_cases here : e.1 = k
      · have absent : pairs.find? (fun e => e.1 = k) = none := by
          rw [List.find?_eq_none]
          intro other member
          have apart : other.1 ≠ e.1 := fun same => fresh (List.mem_map.mpr ⟨other, member, same⟩)
          simpa [here] using apart
        simp [here, absent]
      · simp [here, Ne.symm here]

/-! ## Maps loaded from pairs -/

theorem ofList_concat (pairs : List (κ × α)) (e : κ × α) :
    ofList (pairs ++ [e]) = (ofList pairs).insert e.1 e.2 :=
  List.foldl_append

end OrderedMap

section DedupFirst

variable {α : Type u} [DecidableEq α]

private def addNew (seen : List α) (x : α) : List α := if x ∈ seen then seen else seen ++ [x]

private theorem mem_foldl_addNew (xs seen : List α) (a : α) :
    a ∈ xs.foldl addNew seen ↔ a ∈ seen ∨ a ∈ xs := by
  induction xs generalizing seen with
  | nil => simp
  | cons x xs ih =>
      simp only [List.foldl_cons, ih, addNew, List.mem_cons]
      split
      · rename_i known
        constructor
        · rintro (old | new)
          · exact .inl old
          · exact .inr (.inr new)
        · rintro (old | rfl | new)
          · exact .inl old
          · exact .inl known
          · exact .inr new
      · simp only [List.mem_append, List.mem_singleton, or_assoc]

private theorem nodup_foldl_addNew (xs : List α) {seen : List α} (distinct : seen.Nodup) :
    (xs.foldl addNew seen).Nodup := by
  induction xs generalizing seen with
  | nil => exact distinct
  | cons x xs ih =>
      refine ih ?_
      simp only [addNew]
      split
      · exact distinct
      · rename_i unknown
        exact distinct.append (List.nodup_singleton x) (by simpa using unknown)

@[simp] theorem mem_dedupFirst {xs : List α} {a : α} : a ∈ dedupFirst xs ↔ a ∈ xs :=
  (mem_foldl_addNew xs [] a).trans (by simp)

theorem nodup_dedupFirst (xs : List α) : (dedupFirst xs).Nodup :=
  nodup_foldl_addNew xs List.nodup_nil

theorem dedupFirst_concat (xs : List α) (x : α) :
    dedupFirst (xs ++ [x]) = if x ∈ xs then dedupFirst xs else dedupFirst xs ++ [x] := by
  have step : dedupFirst (xs ++ [x]) = addNew (dedupFirst xs) x :=
    List.foldl_append
  rw [step, addNew]
  simp only [mem_dedupFirst]

/-- Of a last element the earlier copies go. -/
theorem dedup_concat (xs : List α) (x : α) :
    (xs ++ [x]).dedup = xs.dedup.filter (· ≠ x) ++ [x] := by
  induction xs with
  | nil => simp
  | cons y xs ih =>
      rw [List.cons_append]
      by_cases again : y ∈ xs
      · rw [List.dedup_cons_of_mem (List.mem_append_left [x] again), ih,
          List.dedup_cons_of_mem again]
      · rw [List.dedup_cons_of_notMem again]
        by_cases last : y = x
        · rw [List.dedup_cons_of_mem (by simp [last]), ih,
            List.filter_cons_of_neg (by simp [last])]
        · rw [List.dedup_cons_of_notMem (by simp [again, last]), ih,
            List.filter_cons_of_pos (by simp [last]), List.cons_append]

/-- Further copies of an element change nothing. -/
theorem dedupFirst_append_replicate (xs : List α) (a : α) (n : Nat) :
    dedupFirst (xs ++ List.replicate (n + 1) a) = dedupFirst (xs ++ [a]) := by
  induction n with
  | zero => rfl
  | succ n ih =>
      rw [List.replicate_succ', ← List.append_assoc, dedupFirst_concat, if_pos (by simp), ih]

/-- Where each element gives copies of another one, the first of them count. -/
theorem dedupFirst_flatMap {β : Type v} {copies : β → List α} {copied : β → α} {bs : List β}
    (some : ∀ b ∈ bs, copies b ≠ []) (same : ∀ b ∈ bs, ∀ a ∈ copies b, a = copied b) :
    dedupFirst (bs.flatMap copies) = dedupFirst (bs.map copied) := by
  induction bs using List.reverseRecOn with
  | nil => rfl
  | append_singleton bs b ih =>
      have earlier := ih (fun c hc => some c (List.mem_append_left [b] hc))
        fun c hc => same c (List.mem_append_left [b] hc)
      have last : b ∈ bs ++ [b] := by simp
      have known : copied b ∈ bs.flatMap copies ↔ copied b ∈ bs.map copied := by
        rw [← mem_dedupFirst, earlier, mem_dedupFirst]
      obtain ⟨n, more⟩ := Nat.exists_eq_add_one.mpr (List.length_pos_of_ne_nil (some b last))
      have all : copies b = List.replicate (n + 1) (copied b) :=
        List.eq_replicate_iff.mpr ⟨more, same b last⟩
      rw [List.flatMap_append, List.flatMap_singleton, all, dedupFirst_append_replicate,
        dedupFirst_concat, List.map_append, List.map_singleton, dedupFirst_concat, earlier]
      simp only [known]

theorem nodup_of_length_dedupFirst {xs : List α} (long : xs.length ≤ (dedupFirst xs).length) :
    xs.Nodup := by
  have inside : dedupFirst xs ⊆ xs := fun _ => mem_dedupFirst.mp
  have all := (List.subperm_of_subset (nodup_dedupFirst xs) inside).perm_of_length_le long
  exact all.nodup_iff.mp (nodup_dedupFirst xs)

theorem dedupFirst_of_nodup {xs : List α} (distinct : xs.Nodup) : dedupFirst xs = xs := by
  induction xs using List.reverseRecOn with
  | nil => rfl
  | append_singleton xs x ih =>
      obtain ⟨before, -, apart⟩ := List.nodup_append.mp distinct
      have new : x ∉ xs := fun member => apart x member x List.mem_cons_self rfl
      rw [dedupFirst_concat, if_neg new, ih before]

/-- What is kept stands in the order of first mention. -/
theorem pairwise_idxOf_dedupFirst (xs : List α) :
    (dedupFirst xs).Pairwise fun a b => xs.idxOf a < xs.idxOf b := by
  induction xs using List.reverseRecOn with
  | nil => exact List.Pairwise.nil
  | append_singleton xs x ih =>
      have before : (dedupFirst xs).Pairwise fun a b =>
          (xs ++ [x]).idxOf a < (xs ++ [x]).idxOf b := by
        refine ih.imp_of_mem fun insideA insideB less => ?_
        rwa [List.idxOf_append_of_mem (mem_dedupFirst.mp insideA),
          List.idxOf_append_of_mem (mem_dedupFirst.mp insideB)]
      rw [dedupFirst_concat]
      split
      · exact before
      · rename_i new
        refine List.pairwise_append.mpr ⟨before, List.pairwise_singleton _ _, ?_⟩
        intro a inside b last
        obtain rfl := List.mem_singleton.mp last
        have old := mem_dedupFirst.mp inside
        rw [List.idxOf_append_of_mem old, List.idxOf_append_of_notMem new]
        exact Nat.lt_add_right _ (List.idxOf_lt_length_of_mem old)

end DedupFirst

namespace OrderedMap

variable {κ : Type u} {α : Type v} [DecidableEq κ]

/-- A key that is loaded again keeps its first place. -/
theorem keys_ofList (pairs : List (κ × α)) : (ofList pairs).keys = dedupFirst (pairs.map Prod.fst) := by
  induction pairs using List.reverseRecOn with
  | nil => rfl
  | append_singleton pairs e ih =>
      rw [ofList_concat, keys_insert, ih, List.map_append, List.map_cons, List.map_nil,
        dedupFirst_concat]
      simp only [mem_dedupFirst]

/-- The value that is loaded last under a key counts. -/
theorem get?_ofList {before after : List (κ × α)} {k : κ} {v : α}
    (last : k ∉ after.map Prod.fst) : (ofList (before ++ (k, v) :: after)).get? k = some v := by
  induction after using List.reverseRecOn with
  | nil => rw [ofList_concat, get?_insert, if_pos rfl]
  | append_singleton after e ih =>
      simp only [List.map_append, List.map_cons, List.map_nil, List.mem_append, List.mem_singleton,
        not_or] at last
      rw [← List.cons_append, ← List.append_assoc, ofList_concat, get?_insert, if_neg last.2,
        ih last.1]

/-- The value under a key is the last one that was loaded under it. -/
theorem get?_ofList_filterMap_iff {β : Type w} {f : β → Option (κ × α)} {bs : List β} {k : κ} {v : α} :
    (ofList (bs.filterMap f)).get? k = some v ↔
      ∃ before b after, bs = before ++ b :: after ∧ f b = some (k, v) ∧
        ∀ c ∈ after, ∀ w, f c ≠ some (k, w) := by
  constructor
  · intro found
    induction bs using List.reverseRecOn with
    | nil => cases found
    | append_singleton bs b ih =>
      rw [List.filterMap_append] at found
      by_cases loads : ∃ w, f b = some (k, w)
      · obtain ⟨w, loads⟩ := loads
        rw [List.filterMap_cons, loads, List.filterMap_nil, ofList_concat, get?_insert,
          if_pos rfl] at found
        obtain rfl := Option.some.inj found
        exact ⟨bs, b, [], rfl, loads, by simp⟩
      · have earlier : (ofList (bs.filterMap f)).get? k = some v := by
          cases held : f b with
          | none => simpa [held] using found
          | some e =>
            rw [List.filterMap_cons, held, List.filterMap_nil, ofList_concat, get?_insert] at found
            rwa [if_neg fun same => loads ⟨e.2, by rw [held, same]⟩] at found
        obtain ⟨before, c, after, rfl, held, last⟩ := ih earlier
        refine ⟨before, c, after ++ [b], by simp, held, fun d hd w => ?_⟩
        rcases List.mem_append.mp hd with hd | hd
        · exact last d hd w
        · obtain rfl := List.mem_singleton.mp hd
          exact fun same => loads ⟨w, same⟩
  · rintro ⟨before, b, after, rfl, held, last⟩
    rw [List.filterMap_append, List.filterMap_cons, held]
    refine get?_ofList fun member => ?_
    obtain ⟨e, he, rfl⟩ := List.mem_map.mp member
    obtain ⟨c, hc, loads⟩ := List.mem_filterMap.mp he
    exact last c hc e.2 loads

theorem mem_keys_iff_exists {m : OrderedMap κ α} {k : κ} : k ∈ m.keys ↔ ∃ v, m.get? k = some v := by
  rw [← Option.ne_none_iff_exists', ne_eq, get?_eq_none_iff, not_not]

theorem entries_insertLast (m : OrderedMap κ α) (k : κ) (v : α) :
    (m.insertLast k v).entries = m.entries.filter (·.1 ≠ k) ++ [(k, v)] := by
  have absent : ¬(m.erase k).contains k = true := by simp [contains, erase]
  rw [insertLast, insert, dif_neg absent]
  rfl

theorem keys_insertLast (m : OrderedMap κ α) (k : κ) (v : α) :
    (m.insertLast k v).keys = m.keys.filter (· ≠ k) ++ [k] := by
  rw [keys, entries_insertLast, List.map_append, keys, List.filter_map]
  rfl

theorem get?_insertLast (m : OrderedMap κ α) (k other : κ) (v : α) :
    (m.insertLast k v).get? other = if other = k then some v else m.get? other := by
  rw [insertLast, get?_insert]
  split
  · rfl
  · rename_i apart
    ext w
    simp [get?_eq_some_iff, erase, apart]

/-! ## Two ways to load

Members are loaded one after another under their keys. A key that is loaded again either keeps its
place or moves to the end; look-up finds the last member of the key both ways.
-/

section Loading

variable {β : Type w} (key : β → κ) (value : β → α)

theorem get?_ofList_map (bs : List β) (k : κ) :
    (ofList (bs.map fun b => (key b, value b))).get? k =
      (bs.reverse.find? (key · = k)).map value := by
  induction bs using List.reverseRecOn with
  | nil => rfl
  | append_singleton bs b ih =>
      rw [List.map_append, List.map_singleton, ofList_concat, get?_insert, ih,
        List.reverse_concat, List.find?_cons]
      by_cases here : key b = k
      · simp [here]
      · simp [here, Ne.symm here]

theorem get?_foldl_insertLast (bs : List β) (k : κ) :
    (bs.foldl (fun m b => m.insertLast (key b) (value b)) empty).get? k =
      (bs.reverse.find? (key · = k)).map value := by
  induction bs using List.reverseRecOn with
  | nil => rfl
  | append_singleton bs b ih =>
      rw [List.foldl_append, List.foldl_cons, List.foldl_nil, get?_insertLast, ih,
        List.reverse_concat, List.find?_cons]
      by_cases here : key b = k
      · simp [here]
      · simp [here, Ne.symm here]

/-- Moved to the end each time, the keys stand in the order of their last members. -/
theorem keys_foldl_insertLast (bs : List β) :
    (bs.foldl (fun m b => m.insertLast (key b) (value b)) empty).keys = (bs.map key).dedup := by
  induction bs using List.reverseRecOn with
  | nil => rfl
  | append_singleton bs b ih =>
      rw [List.foldl_append, List.foldl_cons, List.foldl_nil, keys_insertLast, ih, List.map_append,
        List.map_singleton, dedup_concat]

end Loading

/-! ## Groups -/

/-- Entries are the keys with what look-up finds. -/
theorem entries_eq_map_keys {m : OrderedMap κ α} {f : κ → α}
    (found : ∀ k v, m.get? k = some v → f k = v) : m.entries = m.keys.map fun k => (k, f k) := by
  rw [keys, List.map_map]
  refine (List.map_id m.entries).symm.trans (List.map_congr_left fun e member => ?_)
  rw [Function.comp_apply, found e.1 e.2 (get?_eq_some_iff.mpr member)]
  rfl

/-- Values in groups, each group under its key, in the order in which they come. -/
def grouped {β : Type w} (key : β → κ) (value : β → α) (bs : List β) : OrderedMap κ (List α) :=
  bs.foldl (fun m b => m.modify (key b) [] (· ++ [value b])) empty

variable {β : Type w} (key : β → κ) (value : β → α)

theorem grouped_concat (bs : List β) (b : β) : grouped key value (bs ++ [b]) =
    (grouped key value bs).insert (key b)
      (((grouped key value bs).get? (key b)).getD [] ++ [value b]) :=
  List.foldl_append

theorem keys_grouped (bs : List β) : (grouped key value bs).keys = dedupFirst (bs.map key) := by
  induction bs using List.reverseRecOn with
  | nil => rfl
  | append_singleton bs b ih =>
      rw [grouped_concat, keys_insert, ih, List.map_append, List.map_cons, List.map_nil,
        dedupFirst_concat]
      simp only [mem_dedupFirst]

theorem getD_get?_grouped (bs : List β) (k : κ) :
    ((grouped key value bs).get? k).getD [] = (bs.filter (key · = k)).map value := by
  induction bs using List.reverseRecOn with
  | nil => rfl
  | append_singleton bs b ih =>
      rw [grouped_concat, get?_insert, List.filter_append, List.map_append, ← ih]
      by_cases here : k = key b
      · simp [here]
      · simp [here, Ne.symm here]

/-- The groups in the order of their first members, each with all of its members. -/
theorem entries_grouped (bs : List β) :
    (grouped key value bs).entries =
      (dedupFirst (bs.map key)).map fun k => (k, (bs.filter (key · = k)).map value) := by
  rw [← keys_grouped key value]
  refine entries_eq_map_keys fun k v found => ?_
  rw [← getD_get?_grouped, found, Option.getD_some]

/-- A filter that takes all or nothing of what an element gives selects elements. -/
theorem filter_flatMap_of_iff {γ : Type x} {parts : β → List γ} {ofPart : γ → Bool} {p : β → Bool}
    {bs : List β} (same : ∀ b ∈ bs, ∀ c ∈ parts b, ofPart c = p b) :
    (bs.flatMap parts).filter ofPart = (bs.filter p).flatMap parts := by
  induction bs with
  | nil => rfl
  | cons b bs ih =>
      have first := same b List.mem_cons_self
      have rest := ih fun d hd => same d (List.mem_cons_of_mem b hd)
      rw [List.flatMap_cons, List.filter_append, rest]
      by_cases taken : p b = true
      · rw [List.filter_cons_of_pos taken, List.flatMap_cons,
          List.filter_eq_self.mpr fun c hc => (first c hc).trans taken]
      · rw [List.filter_cons_of_neg taken, List.filter_eq_nil_iff.mpr fun c hc => first c hc ▸ taken,
          List.nil_append]

theorem perm_flatMap_filter {ks : List κ} (distinct : ks.Nodup) {bs : List β}
    (covered : ∀ b ∈ bs, key b ∈ ks) : (ks.flatMap fun k => bs.filter (key · = k)).Perm bs := by
  induction ks generalizing bs with
  | nil =>
      obtain rfl := List.eq_nil_iff_forall_not_mem.mpr fun b hb => nomatch covered b hb
      exact .nil
  | cons k ks ih =>
      obtain ⟨new, distinct⟩ := List.nodup_cons.mp distinct
      have others : (ks.flatMap fun l => bs.filter (key · = l)) =
          ks.flatMap fun l => (bs.filter fun b => !decide (key b = k)).filter (key · = l) := by
        refine List.flatMap_congr fun l hl => ?_
        rw [List.filter_filter]
        refine List.filter_congr fun b _ => ?_
        by_cases here : key b = l
        · have apart : l ≠ k := fun same => new (same ▸ hl)
          simp [here, apart]
        · simp [here]
      rw [List.flatMap_cons, others]
      refine ((ih distinct fun b hb => ?_).append_left _).trans (List.filter_append_perm _ bs)
      obtain ⟨member, apart⟩ := List.mem_filter.mp hb
      exact (List.mem_cons.mp (covered b member)).resolve_left (by simpa using apart)

/-- Whatever is written for each member, the groups together write it for all members. -/
theorem perm_flatMap_grouped {γ : Type x} (write : α → List γ) (bs : List β) :
    ((grouped key value bs).entries.flatMap fun e => e.2.flatMap write).Perm
      (bs.flatMap fun b => write (value b)) := by
  have covered : ∀ b ∈ bs, key b ∈ dedupFirst (bs.map key) := fun b hb =>
    mem_dedupFirst.mpr (List.mem_map_of_mem hb)
  have all := perm_flatMap_filter key (nodup_dedupFirst (bs.map key)) covered
  have written := all.flatMap_right fun b => write (value b)
  rw [List.flatMap_assoc] at written
  simpa only [entries_grouped, List.flatMap_map] using written

end OrderedMap

end WorkflowAudit
