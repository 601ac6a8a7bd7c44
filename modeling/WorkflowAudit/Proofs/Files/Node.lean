import WorkflowAudit.Proofs.Data.Lookup
import WorkflowAudit.Proofs.Files.Tree

/-! # Places below a node

What is put or erased at a place changes what is found there and below. Elsewhere the same is found,
except that the directories on the way have other entries. Names that stand once in their directory
still do so afterwards, so nothing that was hidden behind an erased entry comes to light. With such
names every file below a node is listed once, under the place where it is found.
-/

namespace WorkflowAudit.Node

variable {n new : Node} {place rest q : List String} {name key : String}
  {entries : List (String × Node)} {f : Option Node → Option Node}

/-- A file stands alone, and a directory comes after what it holds. -/
@[elab_as_elim]
theorem induction {motive : Node → Prop} (file : ∀ f, motive (.file f))
    (directory : ∀ entries, (∀ e ∈ entries, motive e.2) → motive (.directory entries)) (n : Node) :
    motive n :=
  @Node.rec motive (fun entries => ∀ e ∈ entries, motive e.2) (fun e => motive e.2) file directory
    (fun _ none => nomatch none) (fun _ _ head tail => List.forall_mem_cons.mpr ⟨head, tail⟩)
    (fun _ _ child => child) n

/-! ## Entries -/

theorem lookup_alter_of_ne (other : key ≠ name) (entries : List (String × Node)) :
    (alter name f entries).lookup key = entries.lookup key := by
  have apart := beq_false_of_ne other
  induction entries with
  | nil => cases written : f none <;> simp [alter, written, List.lookup_cons, apart]
  | cons e entries ih =>
      obtain ⟨k, n⟩ := e
      simp only [alter]
      split
      · rename_i same
        subst same
        cases written : f (some n) <;> simp [List.lookup_cons, apart]
      · simp only [List.lookup_cons, ih]

/-- What stands under a name that is not repeated. -/
theorem lookup_alter_self (distinct : (entries.map Prod.fst).Nodup) :
    (alter name f entries).lookup name = f (entries.lookup name) := by
  induction entries with
  | nil => cases written : f none <;> simp [alter, written]
  | cons e entries ih =>
      obtain ⟨k, n⟩ := e
      obtain ⟨fresh, distinct⟩ := List.nodup_cons.mp distinct
      simp only [alter]
      split
      · rename_i same
        subst same
        have absent : entries.lookup k = none := by
          rw [List.lookup_eq_none_iff]
          intro e member
          have apart : k ≠ e.1 := fun same => fresh (List.mem_map.mpr ⟨e, member, same.symm⟩)
          simpa using apart
        cases written : f (some n) <;> simp [written, absent]
      · rename_i other
        have apart := beq_false_of_ne (Ne.symm other)
        simp only [List.lookup_cons, apart, ih distinct]

theorem mem_names_of_alter (member : key ∈ (alter name f entries).map Prod.fst) :
    key = name ∨ key ∈ entries.map Prod.fst := by
  induction entries with
  | nil =>
      cases written : f none <;> simp only [alter, written] at member
      · cases member
      · exact .inl (List.mem_singleton.mp member)
  | cons e entries ih =>
      obtain ⟨k, n⟩ := e
      simp only [alter] at member
      split at member
      · rename_i same
        subst same
        cases written : f (some n) <;> simp only [written] at member
        · exact .inr (List.mem_cons_of_mem k member)
        · exact .inr member
      · rcases List.mem_cons.mp member with here | later
        · exact .inr (List.mem_cons.mpr (.inl here))
        · exact (ih later).imp_right (List.mem_cons_of_mem k)

theorem nodup_names_alter (distinct : (entries.map Prod.fst).Nodup) :
    ((alter name f entries).map Prod.fst).Nodup := by
  induction entries with
  | nil => cases written : f none <;> simp [alter, written]
  | cons e entries ih =>
      obtain ⟨k, n⟩ := e
      obtain ⟨fresh, distinct⟩ := List.nodup_cons.mp distinct
      simp only [alter]
      split
      · rename_i same
        subst same
        cases f (some n)
        · exact distinct
        · exact List.nodup_cons.mpr ⟨fresh, distinct⟩
      · rename_i other
        refine List.nodup_cons.mpr ⟨fun again => ?_, ih distinct⟩
        exact (mem_names_of_alter again).elim other fresh

/-! ## What is found -/

theorem get?_append (place rest : List String) (n : Node) :
    get? (place ++ rest) n = (get? place n).bind (get? rest) := by
  induction place generalizing n with
  | nil => rfl
  | cons name place ih =>
      cases n with
      | file f => rfl
      | directory entries =>
          rw [List.cons_append, get?, get?]
          cases entries.lookup name with
          | none => rfl
          | some child => exact ih child

/-- A place that holds a directory. -/
def DirectoryAt (n : Node) (place : List String) : Prop :=
  ∃ entries, get? place n = some (.directory entries)

/-- Away from a place the same is found in another node, apart from the entries of directories. -/
def Spares (place : List String) (n n' : Node) : Prop :=
  ∀ q, ¬ place <+: q → get? q n' = get? q n ∨ (n.DirectoryAt q ∧ n'.DirectoryAt q)

theorem spares_self : Spares place n n := fun _ _ => .inl rfl

theorem spares_alter_last : Spares [name] (.directory entries) (.directory (alter name f entries)) := by
  rintro (_ | ⟨key, q⟩) apart
  · exact .inr ⟨⟨_, rfl⟩, ⟨_, rfl⟩⟩
  · refine .inl ?_
    have other : key ≠ name := by
      rintro rfl
      exact apart (List.prefix_append [key] q)
    rw [get?, get?, lookup_alter_of_ne other]

theorem spares_alter {change : Node → Node} (inner : ∀ child, Spares rest child (change child)) :
    Spares (name :: rest) (.directory entries)
      (.directory (alter name (fun n => n.map change) entries)) := by
  rintro (_ | ⟨key, q⟩) apart
  · exact .inr ⟨⟨_, rfl⟩, ⟨_, rfl⟩⟩
  · simp only [DirectoryAt, get?, lookup_alter _ key (f := fun n => n.map change) fun _ => rfl]
    split
    · rename_i same
      subst same
      cases entries.lookup key with
      | none => exact .inl rfl
      | some child =>
          exact inner child q fun within => apart (List.prefix_cons_inj key |>.mpr within)
    · exact .inl rfl

theorem spares_put (place : List String) (n new : Node) : Spares place n (put place n new) := by
  induction place generalizing n with
  | nil => exact fun q apart => absurd q.nil_prefix apart
  | cons name rest ih =>
      cases n with
      | file f => rw [put]; exact spares_self
      | directory entries =>
          cases rest with
          | nil => rw [put]; exact spares_alter_last
          | cons next rest =>
              rw [put]
              · exact spares_alter ih
              · exact List.cons_ne_nil _ _

theorem spares_erase (place : List String) (n : Node) : Spares place n (erase place n) := by
  induction place generalizing n with
  | nil => exact fun q apart => absurd q.nil_prefix apart
  | cons name rest ih =>
      cases n with
      | file f => rw [erase]; exact spares_self
      | directory entries =>
          cases rest with
          | nil => rw [erase]; exact spares_alter_last
          | cons next rest =>
              rw [erase]
              · exact spares_alter ih
              · exact List.cons_ne_nil _ _

/-- What is put into a directory is found there. -/
theorem get?_put_append (here : n.DirectoryAt place) (rest : List String) :
    get? (place ++ name :: rest) (put (place ++ [name]) n new) = get? rest new := by
  induction place generalizing n with
  | nil =>
      obtain ⟨entries, same⟩ := here
      obtain rfl := Option.some.inj same
      simp [put, get?, lookup_alter name name (f := fun _ => some new) fun _ => rfl]
  | cons next place ih =>
      obtain ⟨entries, found⟩ := here
      cases n with
      | file f => cases found
      | directory others =>
          rw [get?] at found
          obtain ⟨child, known, below⟩ := Option.bind_eq_some_iff.mp found
          have deeper : place ++ [name] ≠ [] := by simp
          rw [List.cons_append, List.cons_append, put, get?,
            lookup_alter next next (f := fun n => n.map fun n => put (place ++ [name]) n new)
              fun _ => rfl, if_pos rfl, known]
          · exact ih ⟨entries, below⟩
          · exact deeper

/-! ## Distinct names -/

/-- No directory holds a name twice. -/
def Distinct (n : Node) : Prop :=
  ∀ place entries, get? place n = some (.directory entries) → (entries.map Prod.fst).Nodup

theorem distinct_file (f : File) : Distinct (.file f) := by
  rintro (_ | ⟨name, place⟩) entries found <;> cases found

theorem distinct_empty : Distinct (.directory []) := by
  rintro (_ | ⟨name, place⟩) entries found
  · cases found
    exact List.nodup_nil
  · cases found

theorem distinct_directory_iff :
    Distinct (.directory entries) ↔ (entries.map Prod.fst).Nodup ∧
      ∀ name child, entries.lookup name = some child → Distinct child := by
  constructor
  · intro distinct
    refine ⟨distinct [] entries rfl, fun name child known place others found => ?_⟩
    refine distinct (name :: place) others ?_
    rw [get?, known]
    exact found
  · rintro ⟨here, below⟩ (_ | ⟨name, place⟩) others found
    · obtain rfl := Node.directory.inj (Option.some.inj found)
      exact here
    · obtain ⟨child, known, found⟩ := Option.bind_eq_some_iff.mp found
      exact below name child known place others found

theorem distinct_alter (distinct : Distinct (.directory entries))
    (changed : ∀ child, f (entries.lookup name) = some child → Distinct child) :
    Distinct (.directory (alter name f entries)) := by
  obtain ⟨here, below⟩ := distinct_directory_iff.mp distinct
  refine distinct_directory_iff.mpr ⟨nodup_names_alter here, fun key child known => ?_⟩
  by_cases same : key = name
  · subst same
    rw [lookup_alter_self here] at known
    exact changed child known
  · rw [lookup_alter_of_ne same] at known
    exact below key child known

theorem distinct_child (distinct : Distinct (.directory entries)) {child : Node}
    (known : entries.lookup name = some child) : Distinct child :=
  (distinct_directory_iff.mp distinct).2 name child known

theorem distinct_of_mem (distinct : Distinct (.directory entries)) (member : (name, n) ∈ entries) :
    entries.lookup name = some n ∧ Distinct n := by
  have known := (lookup_eq_some_iff_mem (distinct_directory_iff.mp distinct).1).mpr member
  exact ⟨known, distinct_child distinct known⟩

theorem distinct_put (distinct : Distinct n) (proper : Distinct new) (place : List String) :
    Distinct (put place n new) := by
  induction place generalizing n with
  | nil => exact proper
  | cons name rest ih =>
      cases n with
      | file f => rw [put]; exact distinct
      | directory entries =>
          cases rest with
          | nil =>
              rw [put]
              exact distinct_alter distinct fun child same => Option.some.inj same ▸ proper
          | cons next rest =>
              rw [put]
              · refine distinct_alter distinct fun child changed => ?_
                obtain ⟨old, known, rfl⟩ := Option.map_eq_some_iff.mp changed
                exact ih (distinct_child distinct known)
              · exact List.cons_ne_nil _ _

theorem distinct_erase (distinct : Distinct n) (place : List String) :
    Distinct (erase place n) := by
  induction place generalizing n with
  | nil => exact distinct
  | cons name rest ih =>
      cases n with
      | file f => rw [erase]; exact distinct
      | directory entries =>
          cases rest with
          | nil =>
              rw [erase]
              exact distinct_alter distinct fun child none => nomatch none
          | cons next rest =>
              rw [erase]
              · refine distinct_alter distinct fun child changed => ?_
                obtain ⟨old, known, rfl⟩ := Option.map_eq_some_iff.mp changed
                exact ih (distinct_child distinct known)
              · exact List.cons_ne_nil _ _

/-- Nothing is found where something was erased. -/
theorem get?_erase_append (distinct : Distinct n) (some : place ≠ []) (rest : List String) :
    get? (place ++ rest) (erase place n) = none := by
  induction place generalizing n with
  | nil => exact absurd rfl some
  | cons name place ih =>
      cases n with
      | file f =>
          rw [erase]
          rfl
      | directory entries =>
          have here := (distinct_directory_iff.mp distinct).1
          cases place with
          | nil =>
              rw [erase, List.cons_append, get?, lookup_alter_self here]
              rfl
          | cons next place =>
              rw [erase, List.cons_append, get?, lookup_alter_self here]
              · cases known : entries.lookup name with
                | none => rfl
                | some child =>
                    exact ih (distinct_child distinct known) (List.cons_ne_nil _ _)
              · exact List.cons_ne_nil _ _

/-! ## The files below a node -/

theorem files_directory (entries : List (String × Node)) :
    files (.directory entries) =
      entries.flatMap fun e => e.2.files.map fun (place, f) => (e.1 :: place, f) := by
  rw [files]
  induction entries with
  | nil => rfl
  | cons e entries ih => rw [filesOf, ih, List.flatMap_cons]

theorem places_directory (entries : List (String × Node)) :
    (files (.directory entries)).map Prod.fst =
      entries.flatMap fun e => (e.2.files.map Prod.fst).map (e.1 :: ·) := by
  rw [files_directory, List.map_flatMap]
  simp only [List.map_map]
  rfl

/-- The files below a node are those that are found there. -/
theorem mem_files_iff {file : File} (distinct : n.Distinct) :
    (place, file) ∈ n.files ↔ get? place n = some (.file file) := by
  induction n using Node.induction generalizing place with
  | file g =>
      cases place with
      | nil => simp [files, get?, eq_comm]
      | cons name place => simp [files, get?]
  | directory entries ih =>
      rw [files_directory, List.mem_flatMap]
      constructor
      · rintro ⟨⟨name, child⟩, member, inside⟩
        obtain ⟨⟨rest, g⟩, below, same⟩ := List.mem_map.mp inside
        obtain ⟨rfl, rfl⟩ := Prod.mk.inj same
        obtain ⟨known, distinct⟩ := distinct_of_mem distinct member
        rw [get?, known]
        exact (ih (name, child) member distinct).mp below
      · intro found
        cases place with
        | nil => cases found
        | cons name rest =>
            obtain ⟨child, known, found⟩ := Option.bind_eq_some_iff.mp found
            have member := mem_of_lookup known
            have below := (ih (name, child) member (distinct_child distinct known)).mpr found
            exact ⟨(name, child), member, List.mem_map.mpr ⟨(rest, file), below, rfl⟩⟩

/-- No place is listed twice. -/
theorem nodup_places (distinct : n.Distinct) : (n.files.map Prod.fst).Nodup := by
  induction n using Node.induction with
  | file g => exact List.nodup_singleton _
  | directory entries ih =>
      rw [places_directory, List.nodup_flatMap]
      constructor
      · intro e member
        exact (ih e member (distinct_of_mem distinct member).2).map List.cons_injective
      · -- Places in different entries begin with different names.
        have names := (distinct_directory_iff.mp distinct).1
        refine (List.pairwise_map.mp names).imp fun {e e'} apart place inside inside' => ?_
        obtain ⟨rest, -, rfl⟩ := List.mem_map.mp inside
        obtain ⟨rest', -, same⟩ := List.mem_map.mp inside'
        exact apart (List.cons.inj same).1.symm

end WorkflowAudit.Node
