import Mathlib.Data.List.Nodup
import WorkflowAudit.Proofs.Data.Json.Free
import WorkflowAudit.Proofs.Data.OrderedMap
import WorkflowAudit.Proofs.Data.Result

/-! # Values that decoders keep

A decoder accepts many documents for a value, and one form of the value is written. The value is kept
when it is decoded from that form again. A decoder is stable when all that it takes from documents with
whole numbers is kept. Stability goes from items to lists and maps, and from fields to records.
-/

namespace WorkflowAudit

namespace Decoder

variable {ε α σ : Type} {levels : Nat}

/-! ## Keeping -/

/-- A value is decoded from what is written for it. -/
def Reads (decoder : Decoder ε α) (levels : Nat) (v : Json) (a : α) : Prop :=
  v.Whole ∧ decoder levels v.syntaxOf = .ok a

/-- A value is decoded from what is written for it, if anything is. -/
def Kept (decoder : Decoder ε α) (write : α → Option Json) (levels : Nat) (a : α) : Prop :=
  ∀ v, write a = some v → Reads decoder levels v a

/-- Whatever is decoded from a document with whole numbers is kept. -/
def Stable (decoder : Decoder ε α) (write : α → Option Json) (levels : Nat) : Prop :=
  ∀ d a, d.isWhole = true → decoder levels d = .ok a → Kept decoder write levels a

variable {item : Decoder ε α}

theorem kept_some {w : α → Json} {a : α} (reads : Reads item levels (w a) a) :
    Kept item (fun a => some (w a)) levels a := by
  rintro v written
  rwa [← Option.some.inj written]

/-- It does no harm to write less. -/
theorem Stable.sometimes {write sometimes : α → Option Json} (stable : Stable item write levels)
    (fewer : ∀ a v, sometimes a = some v → write a = some v) : Stable item sometimes levels :=
  fun d a whole success v written => stable d a whole success v (fewer a v written)

/-- A value that is not written as null may also be missing. -/
theorem stable_optional {write : α → Option Json} (stable : Stable item write levels)
    (visible : ∀ d a, d.isWhole = true → item levels d = .ok a → d ≠ .null →
      write a ≠ some .null) :
    Stable (optional item) (·.bind write) levels := by
  intro d o whole success v written
  obtain ⟨a, rfl, written⟩ := Option.bind_eq_some_iff.mp written
  have given : d ≠ .null := by
    rintro rfl
    cases success
  have taken : item levels d = .ok a := by
    rw [optional] at success
    · obtain ⟨b, taken, same⟩ := ok_of_map success
      rwa [← Option.some.inj same]
    · exact given
  obtain ⟨wholeAgain, again⟩ := stable d a whole taken v written
  have shown : v ≠ .null := fun null => visible d a whole taken given (null ▸ written)
  refine ⟨wholeAgain, ?_⟩
  rw [optional, again]
  · rfl
  · cases v <;> simp [Json.syntaxOf] at shown ⊢

theorem stable_optional_some {w : α → Json} (stable : Stable item (fun a => some (w a)) levels)
    (visible : ∀ a, w a ≠ .null) : Stable (optional item) (Option.map w) levels := by
  refine (stable_optional stable fun d a _ _ _ null => visible a (Option.some.inj null)).sometimes ?_
  rintro (_ | a) v written
  · cases written
  · exact written

/-! ## Free values, strings and numbers -/

variable [Malformed ε]

theorem ok_of_ofOption {o : Option α} {a : α} (success : (ofOption o : Except ε α) = .ok a) :
    o = some a := by
  cases o with
  | none => cases success
  | some b => rw [Except.ok.inj success]

theorem stable_json : Stable (json : Decoder ε Json) some levels := by
  intro d v whole success
  have free := Json.free_of_json? levels d whole (ok_of_ofOption success)
  refine kept_some (w := id) ⟨free.1, ?_⟩
  simp only [json, id, free.2, ofOption]

theorem stable_optional_json : Stable (optional (json : Decoder ε Json)) id levels := by
  refine (stable_optional stable_json fun d v whole success given null => ?_).sometimes
    fun o v written => ?_
  · obtain rfl := Option.some.inj null
    have found := ok_of_ofOption success
    cases d with
    | null => exact given rfl
    | bool b => cases found
    | number literal =>
        rw [Document.isWhole] at whole
        rw [json?, NumberLiteral.toJson?_of_isWhole whole] at found
        repeat' split at found
        all_goals cases found
    | string content => cases content <;> cases found
    | array items =>
        rw [json?] at found
        split at found
        · cases found
        · obtain ⟨_, _, same⟩ := Option.map_eq_some_iff.mp found
          cases same
    | object members =>
        rw [json?] at found
        split at found
        · cases found
        · obtain ⟨_, _, same⟩ := Option.map_eq_some_iff.mp found
          cases same
    | malformed => cases found
  · cases o
    · cases written
    · exact written

theorem reads_string (s : String) : Reads (string : Decoder ε String) levels (.str s) s :=
  ⟨trivial, rfl⟩

theorem stable_string : Stable (string : Decoder ε String) (fun s => some (.str s)) levels :=
  fun _ s _ _ => kept_some (reads_string s)

theorem reads_natBelow {bound n : Nat} (fits : bound ≤ UInt64.size) (below : n < bound) :
    Reads (natBelow bound : Decoder ε Nat) levels (.nat n) n := by
  have ranged : Json.Ranged n := by
    simp only [Json.Ranged, NumberLiteral.maxSignificand]
    omega
  refine ⟨trivial, ?_⟩
  have found : json? levels (Json.nat n).syntaxOf = some (.int n) := Json.toJson?_literalOf ranged
  simp only [natBelow, found]
  simp [below]

theorem stable_natBelow {bound : Nat} (fits : bound ≤ UInt64.size) :
    Stable (natBelow bound : Decoder ε Nat) (fun n => some (.nat n)) levels := by
  intro d n _ success
  have below : n < bound := by
    rw [natBelow] at success
    split at success
    · split at success
      · rename_i range
        simp only [Bool.and_eq_true, decide_eq_true_eq] at range
        cases success
        omega
      · cases success
    · cases success
  exact kept_some (reads_natBelow fits below)

/-! ## Lists and maps -/

theorem ok_of_descend {inner : Nat} (success : (descend levels : Except ε Nat) = .ok inner) :
    1 < levels ∧ inner = levels - 1 := by
  rw [descend] at success
  split at success
  · cases success
  · rename_i more
    exact ⟨Nat.not_le.mp more, (Except.ok.inj success).symm⟩

theorem descend_of_lt (more : 1 < levels) : (descend levels : Except ε Nat) = .ok (levels - 1) := by
  rw [descend, if_neg (Nat.not_le.mpr more)]

omit [Malformed ε] in
theorem forall₂_syntaxItems {w : α → Json} {as : List α}
    (reads : ∀ a ∈ as, Reads item levels (w a) a) :
    List.Forall₂ (fun d a => item levels d = .ok a) (Json.syntaxItems (as.map w)) as := by
  induction as with
  | nil => exact .nil
  | cons a as ih =>
      obtain ⟨first, rest⟩ := List.forall_mem_cons.mp reads
      exact .cons first.2 (ih rest)

omit [Malformed ε] in
theorem reads_of_forall₂ {w : α → Json} (stable : Stable item (fun a => some (w a)) levels)
    {ds : List Document} {as : List α} (whole : Document.isWholeItems ds = true)
    (taken : List.Forall₂ (fun d a => item levels d = .ok a) ds as) :
    ∀ a ∈ as, Reads item levels (w a) a := by
  induction taken with
  | nil => exact fun a none => nomatch none
  | cons first rest ih =>
      rw [Document.isWholeItems, Bool.and_eq_true] at whole
      exact List.forall_mem_cons.mpr ⟨stable _ _ whole.1 first _ rfl, ih whole.2⟩

theorem reads_list {w : α → Json} (more : 1 < levels) {as : List α}
    (reads : ∀ a ∈ as, Reads item (levels - 1) (w a) a) :
    Reads (list item) levels (.arr (as.map w)) as := by
  refine ⟨Json.wholeItems_iff.mpr ?_, ?_⟩
  · rintro v member
    obtain ⟨a, inside, rfl⟩ := List.mem_map.mp member
    exact (reads a inside).1
  · simp only [Json.syntaxOf, list, descend_of_lt more]
    exact mapM_eq_ok_iff.mpr (forall₂_syntaxItems reads)

theorem stable_list {w : α → Json} (stable : Stable item (fun a => some (w a)) (levels - 1)) :
    Stable (list item) (fun as => some (.arr (as.map w))) levels := by
  intro d as whole success
  cases d with
  | array items =>
      obtain ⟨inner, descended, success⟩ := ok_of_bind success
      obtain ⟨more, rfl⟩ := ok_of_descend descended
      rw [Document.isWhole] at whole
      exact kept_some (reads_list more (reads_of_forall₂ stable whole (mapM_eq_ok_iff.mp success)))
  | null | bool | number | string | object | malformed => cases success

/-- One member of an object put into a map. -/
def insertMember (item : Decoder ε α) (levels : Nat) (m : OrderedMap String α)
    (member : Option String × Document) : Except ε (OrderedMap String α) := do
  let k ← ofOption member.1
  let v ← item levels member.2
  .ok (m.insert k v)

theorem map_object (ms : List (Option String × Document)) :
    map item levels (.object ms) =
      descend levels >>= fun inner => ms.foldlM (insertMember item inner) .empty := rfl

theorem foldlM_syntaxFields {w : α → Json} {pairs : List (String × α)}
    (reads : ∀ e ∈ pairs, Reads item levels (w e.2) e.2) (m : OrderedMap String α) :
    (Json.syntaxFields (pairs.map fun (k, v) => (k, w v))).foldlM (insertMember item levels) m =
      .ok (pairs.foldl (fun n e => n.insert e.1 e.2) m) := by
  induction pairs generalizing m with
  | nil => rfl
  | cons e pairs ih =>
      obtain ⟨first, rest⟩ := List.forall_mem_cons.mp reads
      have inserted : insertMember item levels m (some e.1, (w e.2).syntaxOf) =
          .ok (m.insert e.1 e.2) := by
        simp only [insertMember, first.2]
        rfl
      simp only [List.map_cons, Json.syntaxFields, List.foldlM_cons, inserted, List.foldl_cons]
      exact ih rest _

theorem reads_of_foldlM {w : α → Json} (stable : Stable item (fun a => some (w a)) levels)
    {ms : List (Option String × Document)} {before m : OrderedMap String α}
    (whole : Document.isWholeMembers ms = true)
    (success : ms.foldlM (insertMember item levels) before = .ok m)
    (reads : ∀ e ∈ before.entries, Reads item levels (w e.2) e.2) :
    ∀ e ∈ m.entries, Reads item levels (w e.2) e.2 := by
  induction ms generalizing before with
  | nil => rwa [← Except.ok.inj success]
  | cons member ms ih =>
      rw [Document.isWholeMembers, Bool.and_eq_true] at whole
      obtain ⟨next, inserted, success⟩ := ok_of_bind success
      obtain ⟨k, -, inserted⟩ := ok_of_bind inserted
      obtain ⟨v, taken, inserted⟩ := ok_of_bind inserted
      refine ih whole.2 success fun e inside => ?_
      rw [← Except.ok.inj inserted] at inside
      rcases OrderedMap.mem_entries_insert inside with same | older
      · rw [same]
        exact stable _ v whole.1 taken _ rfl
      · exact reads e older

theorem reads_map {w : α → Json} (more : 1 < levels) {m : OrderedMap String α}
    (reads : ∀ e ∈ m.entries, Reads item (levels - 1) (w e.2) e.2) :
    Reads (map item) levels (.obj (m.entries.map fun (k, v) => (k, w v))) m := by
  refine ⟨Json.wholeFields_iff.mpr ?_, ?_⟩
  · rintro f member
    obtain ⟨e, inside, rfl⟩ := List.mem_map.mp member
    exact (reads e inside).1
  · have loaded : m.entries.foldl (fun n e => n.insert e.1 e.2) .empty = m :=
      OrderedMap.ext_entries (OrderedMap.entries_foldl_insert .empty m.entries m.nodup)
    rw [Json.syntaxOf, map_object, descend_of_lt more]
    exact (foldlM_syntaxFields reads _).trans (by rw [loaded])

theorem stable_map {w : α → Json} (stable : Stable item (fun a => some (w a)) (levels - 1)) :
    Stable (map item) (fun m => some (.obj (m.entries.map fun (k, v) => (k, w v)))) levels := by
  intro d m whole success
  cases d with
  | object ms =>
      rw [map_object] at success
      obtain ⟨inner, descended, success⟩ := ok_of_bind success
      obtain ⟨more, rfl⟩ := ok_of_descend descended
      rw [Document.isWhole] at whole
      refine kept_some (reads_map more ?_)
      exact reads_of_foldlM stable whole success fun e none => nomatch none
  | null | bool | number | string | array | malformed => cases success

/-! ## Records -/

/-- What is written for a field, if anything, changes a record in a given way. -/
def Given (levels : Nat) (f : Field ε σ) (part : List (String × Json)) (r r' : σ) : Prop :=
  (part = [] ∧ r' = r) ∨
    ∃ v, part = [(f.name, v)] ∧ v.Whole ∧ f.load levels v.syntaxOf r = .ok r'

/-- What is written for the fields of a record in turn. -/
inductive Loads (levels : Nat) :
    List (Field ε σ) → List (List (String × Json)) → σ → σ → Prop
  | nil {r : σ} : Loads levels [] [] r r
  | cons {f : Field ε σ} {part : List (String × Json)} {fields : List (Field ε σ)}
      {parts : List (List (String × Json))} {r r' final : σ} (given : Given levels f part r r')
      (rest : Loads levels fields parts r' final) :
      Loads levels (f :: fields) (part :: parts) r final

/-- A property of records that loading a field keeps. -/
def Preserves (levels : Nat) (P : σ → Prop) (f : Field ε σ) : Prop :=
  ∀ d r r', d.isWhole = true → P r → f.load levels d r = .ok r' → P r'

variable {name : String} {set : σ → α → σ} {write : α → Option Json} {fields : List (Field ε σ)}

omit [Malformed ε] in
theorem given_some {v : Json} {r : σ} {a : α} (reads : Reads item levels v a) :
    Given levels (.of name item set) [(name, v)] r (set r a) := by
  refine .inr ⟨v, rfl, reads.1, ?_⟩
  simp only [Field.of, reads.2]
  rfl

omit [Malformed ε] in
/-- A field that is left out must have its first value. -/
theorem given_of {r : σ} {a missing : α} (absent : write a = none → a = missing)
    (unset : set r missing = r) (kept : Kept item write levels a) :
    Given levels (.of name item set) ((write a).map fun v => (name, v)).toList r (set r a) := by
  cases written : write a with
  | none => exact .inl ⟨rfl, absent written ▸ unset⟩
  | some v => exact given_some (kept v written)

omit [Malformed ε] in
theorem preserves_of {P : σ → Prop} (stable : Stable item write levels)
    (step : ∀ r a, P r → Kept item write levels a → P (set r a)) :
    Preserves levels P (.of name item set) := by
  intro d r r' whole holds success
  obtain ⟨a, taken, success⟩ := ok_of_bind success
  rw [← Except.ok.inj success]
  exact step r a holds (stable d a whole taken)

omit [Malformed ε] in
/-- Names are looked up in a record without repeated names. -/
theorem find?_name (distinct : (fields.map Field.name).Nodup) {f : Field ε σ}
    (member : f ∈ fields) : fields.find? (·.name = f.name) = some f := by
  cases found : fields.find? (·.name = f.name) with
  | none =>
      have absent := List.find?_eq_none.mp found f member
      simp at absent
  | some g =>
      have name : g.name = f.name := by simpa using List.find?_some found
      rw [List.inj_on_of_nodup_map distinct (List.mem_of_find?_eq_some found) member name]

theorem loadByName_known {k : String} {d : Document} {ms : List (Option String × Document)}
    {seen : List String} {f : Field ε σ} {r : σ}
    (found : fields.find? (·.name = k) = some f) (unseen : k ∉ seen) :
    loadByName levels fields seen ((some k, d) :: ms) r =
      f.load levels d r >>= loadByName levels fields (k :: seen) ms := by
  simp [loadByName, ofOption, found, unseen, bind, Except.bind]

/-- Members in the order of the fields are loaded one after the other. -/
theorem loadByName_of_loads (distinct : (fields.map Field.name).Nodup)
    {others : List (Field ε σ)} (among : others <:+ fields)
    {parts : List (List (String × Json))} {r final : σ} (loads : Loads levels others parts r final)
    {seen : List String} (fresh : ∀ f ∈ others, f.name ∉ seen) :
    loadByName levels fields seen (Json.syntaxFields parts.flatten) r = .ok final := by
  induction loads generalizing seen with
  | nil => rfl
  | @cons f part others parts r r' final given rest ih =>
      have later : others <:+ fields := (List.suffix_cons f others).trans among
      obtain ⟨unseen, freshLater⟩ := List.forall_mem_cons.mp fresh
      rcases given with ⟨rfl, rfl⟩ | ⟨v, rfl, -, loaded⟩
      · exact ih later freshLater
      · have apart : ∀ g ∈ others, g.name ∉ f.name :: seen := by
          intro g member known
          rcases List.mem_cons.mp known with same | known
          · have names := (among.sublist.map Field.name).nodup distinct
            rw [List.map_cons, List.nodup_cons] at names
            exact names.1 (same ▸ List.mem_map_of_mem member)
          · exact freshLater g member known
        have known := find?_name distinct (among.subset List.mem_cons_self)
        rw [List.flatten_cons, List.cons_append, List.nil_append, Json.syntaxFields,
          loadByName_known known unseen, loaded]
        exact ih later apart

theorem reads_record {initial r : σ} (more : 1 < levels)
    (distinct : (fields.map Field.name).Nodup) {parts : List (List (String × Json))}
    (loads : Loads (levels - 1) fields parts initial r) :
    Reads (record fields initial) levels (.obj parts.flatten) r := by
  refine ⟨Json.wholeFields_iff.mpr ?_, ?_⟩
  · clear distinct
    induction loads with
    | nil => exact fun f none => nomatch none
    | cons given _ ih =>
        rcases given with ⟨rfl, -⟩ | ⟨v, rfl, whole, -⟩
        · exact ih
        · exact List.forall_mem_cons.mpr ⟨whole, ih⟩
  · simp only [Json.syntaxOf, record, descend_of_lt more]
    exact loadByName_of_loads distinct List.suffix_rfl loads fun _ _ => List.not_mem_nil

theorem preserved_inOrder {P : σ → Prop} {ds : List Document}
    (preserves : ∀ f ∈ fields, Preserves levels P f) {r r' : σ}
    (whole : Document.isWholeItems ds = true) (holds : P r)
    (success : loadInOrder levels fields ds r = .ok r') : P r' := by
  induction ds generalizing fields r with
  | nil =>
      rw [loadInOrder] at success
      rwa [← Except.ok.inj success]
  | cons d ds ih =>
      rw [Document.isWholeItems, Bool.and_eq_true] at whole
      cases fields with
      | nil => cases success
      | cons f fields =>
          obtain ⟨first, rest⟩ := List.forall_mem_cons.mp preserves
          obtain ⟨next, loaded, success⟩ := ok_of_bind success
          exact ih rest whole.2 (first d r next whole.1 holds loaded) success

theorem preserved_byName {P : σ → Prop} {ms : List (Option String × Document)}
    (preserves : ∀ f ∈ fields, Preserves levels P f) {seen : List String} {r r' : σ}
    (whole : Document.isWholeMembers ms = true) (holds : P r)
    (success : loadByName levels fields seen ms r = .ok r') : P r' := by
  induction ms generalizing seen r with
  | nil =>
      rw [loadByName] at success
      rwa [← Except.ok.inj success]
  | cons m ms ih =>
      obtain ⟨key, d⟩ := m
      rw [Document.isWholeMembers, Bool.and_eq_true] at whole
      obtain ⟨k, -, success⟩ := ok_of_bind success
      split at success
      · rename_i f found
        split at success
        · cases success
        · obtain ⟨next, loaded, success⟩ := ok_of_bind success
          have known := preserves f (List.mem_of_find?_eq_some found)
          exact ih whole.2 (known d r next whole.1 holds loaded) success
      · split at success
        · exact ih whole.2 holds success
        · cases success

/-- A record is kept when its fields preserve what makes it load again from what is written. -/
theorem stable_record {initial : σ} {P : σ → Prop} {w : σ → Json}
    (distinct : (fields.map Field.name).Nodup) (initially : P initial)
    (preserves : ∀ f ∈ fields, Preserves (levels - 1) P f)
    (loads : ∀ r, P r → ∃ parts, w r = .obj parts.flatten ∧
      Loads (levels - 1) fields parts initial r) :
    Stable (record fields initial) (fun r => some (w r)) levels := by
  intro d r whole success
  have holds : 1 < levels ∧ P r := by
    cases d with
    | object ms =>
        obtain ⟨inner, descended, success⟩ := ok_of_bind success
        obtain ⟨more, rfl⟩ := ok_of_descend descended
        rw [Document.isWhole] at whole
        exact ⟨more, preserved_byName preserves whole initially success⟩
    | array ds =>
        obtain ⟨inner, descended, success⟩ := ok_of_bind success
        obtain ⟨more, rfl⟩ := ok_of_descend descended
        rw [Document.isWhole] at whole
        exact ⟨more, preserved_inOrder preserves whole initially success⟩
    | null | bool | number | string | malformed => cases success
  obtain ⟨parts, written, loaded⟩ := loads r holds.2
  refine kept_some ?_
  rw [written]
  exact reads_record holds.1 distinct loaded

end Decoder

end WorkflowAudit
