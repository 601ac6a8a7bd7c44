import WorkflowAudit.Discovery.Record
import WorkflowAudit.Proofs.Data.Json.Keeping

/-! # Records read back

A record is written as a document, and what is read from the document is the record. Lines beyond 64
bits cannot be read, so a document may also be refused, but it never holds another record. A record
whose lines fit is read again.
-/

namespace WorkflowAudit

/-! ## Fingerprints and kinds -/

namespace Fingerprint

theorem hexDigit_digits : ∀ n < 16,
    Text.isHexDigit (hexDigit n) = true ∧ Text.hexValue (hexDigit n) = n := by
  decide

theorem bytesOfHex_toHex (bytes : List UInt8) :
    bytesOfHex (bytes.flatMap hexByte) = some bytes := by
  induction bytes with
  | nil => rfl
  | cons b bytes ih =>
      have small := b.toNat_lt
      obtain ⟨highDigit, high⟩ := hexDigit_digits (b.toNat / 16) (by omega)
      obtain ⟨lowDigit, low⟩ := hexDigit_digits (b.toNat % 16) (by omega)
      simp only [List.flatMap_cons, hexByte, List.cons_append, List.nil_append, bytesOfHex,
        highDigit, lowDigit, Bool.and_self, if_true, high, low, ih, Option.map_some,
        Nat.div_add_mod, UInt8.ofNat_toNat]

theorem ofHex_toHex (f : Fingerprint) : ofHex f.toHex = .ok f := by
  simp only [ofHex, toHex, String.toList_ofList, bytesOfHex_toHex, f.length_eq, dite_true]

end Fingerprint

theorem ResourceKind.ofLabel?_label (k : ResourceKind) : ofLabel? k.label = some k := by
  cases k <;> rfl

/-- A resource with a line of 64 bits that names no dependency twice. -/
structure Resource.Storable (r : Resource) : Prop where
  line : r.line < UInt64.size
  distinct : r.dependencies.Nodup

namespace ScanRecord

open Decoder

variable {ε α : Type} {levels : Nat}

/-- Nothing but a given value is decoded from a document. -/
def Agrees (decoder : Decoder ε α) (levels : Nat) (d : Document) (a : α) : Prop :=
  ∀ b, decoder levels d = .ok b → b = a

/-! ## Numbers and lists -/

theorem significand_of_absorb {digits : List Char} {n m : Nat}
    (taken : NumberLiteral.absorb n digits = (m, [])) :
    m = digits.foldl (fun n c => 10 * n + Text.digitValue c) n := by
  induction digits generalizing n with
  | nil => exact (Prod.mk.inj taken).1.symm
  | cons c digits ih =>
      simp only [NumberLiteral.absorb] at taken
      split at taken
      · exact ih taken
      · cases (Prod.mk.inj taken).2

/-- A number that does not fit is not read as another one. -/
theorem agrees_natBelow [Malformed ε] (bound n : Nat) :
    Agrees (natBelow bound : Decoder ε Nat) levels (Json.nat n).syntaxOf n := by
  intro m success
  have value : ∀ k : Int, json? levels (Json.nat n).syntaxOf = some (.int k) → k = n := by
    intro k found
    have positive : ¬ ((n : Int) < 0) := by omega
    simp only [Json.nat, Json.syntaxOf, json?, Json.literalOf, Int.natAbs_natCast,
      NumberLiteral.toJson?, positive, decide_false] at found
    cases taken : NumberLiteral.absorb 0 (Nat.toDigits 10 n) with
    | mk m rest =>
        rw [taken] at found
        cases rest with
        | nil =>
            have exact : m = n :=
              (significand_of_absorb taken).trans (Text.decimalValue_toDigits n)
            simpa [exact, eq_comm] using found
        | cons c rest =>
            simp only [NumberLiteral.writtenExponent?] at found
            obtain ⟨x, -, found⟩ := Option.bind_eq_some_iff.mp found
            obtain ⟨scaled, -, found⟩ := Option.bind_eq_some_iff.mp found
            cases found
  rw [natBelow] at success
  split at success
  · rename_i k found
    split at success
    · cases success
      rw [value k found, Int.toNat_natCast]
    · cases success
  · cases success

theorem eq_of_forall₂_agrees {item : Decoder ε α} {w : α → Json} {as bs : List α}
    (agrees : ∀ a ∈ as, Agrees item levels (w a).syntaxOf a)
    (taken : List.Forall₂ (fun d b => item levels d = .ok b) (Json.syntaxItems (as.map w)) bs) :
    bs = as := by
  induction as generalizing bs with
  | nil =>
      cases taken
      rfl
  | cons a as ih =>
      obtain ⟨first, rest⟩ := List.forall_mem_cons.mp agrees
      cases taken with
      | cons here later => rw [first _ here, ih rest later]

theorem agrees_list [Malformed ε] {item : Decoder ε α} {w : α → Json} {as : List α}
    (agrees : ∀ a ∈ as, Agrees item (levels - 1) (w a).syntaxOf a) :
    Agrees (list item) levels (Json.arr (as.map w)).syntaxOf as := by
  intro bs success
  obtain ⟨inner, descended, success⟩ := ok_of_bind success
  obtain ⟨-, rfl⟩ := ok_of_descend descended
  exact eq_of_forall₂_agrees agrees (mapM_eq_ok_iff.mp success)

/-! ## Resources and records -/

theorem agrees_strings [Malformed ε] (texts : List String) :
    Agrees (list (string : Decoder ε String)) levels (Json.ofStrings texts).syntaxOf texts :=
  agrees_list fun _ _ _ success => (Except.ok.inj success).symm

/-- What is decoded for the one field of a member that is always written. -/
theorem agrees_member [Malformed ε] {σ : Type} {fields : List (Field ε σ)} {name : String}
    {item : Decoder ε α} {set : σ → α → σ} {v : Json} {a : α} {ms : List (String × Json)}
    {seen : List String} {r final : σ}
    (known : fields.find? (·.name = name) = some (.of name item set)) (unseen : name ∉ seen)
    (agrees : Agrees item levels v.syntaxOf a)
    (loaded : loadByName levels fields seen (Json.syntaxFields ((name, v) :: ms)) r = .ok final) :
    loadByName levels fields (name :: seen) (Json.syntaxFields ms) (set r a) = .ok final := by
  rw [Json.syntaxFields, loadByName_known known unseen] at loaded
  obtain ⟨next, taken, loaded⟩ := ok_of_bind loaded
  obtain ⟨b, taken, same⟩ := ok_of_bind taken
  rwa [← Except.ok.inj same, agrees b taken] at loaded

theorem agrees_string [Malformed ε] (s : String) :
    Agrees (string : Decoder ε String) levels (Json.str s).syntaxOf s :=
  fun _ success => (Except.ok.inj success).symm

theorem agrees_kind (k : ResourceKind) :
    Agrees Reading.kind levels (Json.str k.label).syntaxOf k := by
  intro b success
  have found := ok_of_ofOption success
  rw [ResourceKind.ofLabel?_label] at found
  exact (Option.some.inj found).symm

theorem agrees_fingerprint (f : Fingerprint) :
    Agrees Reading.fingerprint levels (Json.str f.toHex).syntaxOf f := by
  intro b success
  have found : (Fingerprint.ofHex f.toHex).toOption = some b := ok_of_ofOption success
  rw [Fingerprint.ofHex_toHex] at found
  exact (Option.some.inj found).symm

theorem agrees_resource {r : Resource} (distinct : r.dependencies.Nodup) :
    Agrees Reading.resource levels r.toJson.syntaxOf r := by
  intro b success
  obtain ⟨fields, loaded, success⟩ := ok_of_bind success
  obtain ⟨inner, -, loaded⟩ := ok_of_bind loaded
  have loaded := agrees_member rfl (by decide) (agrees_string r.name) loaded
  have loaded := agrees_member rfl (by decide) (agrees_kind r.kind) loaded
  have loaded := agrees_member rfl (by decide) (agrees_string r.filePath) loaded
  have loaded := agrees_member rfl (by decide) (agrees_natBelow _ r.line) loaded
  have loaded := agrees_member rfl (by decide) (agrees_string r.moduleId) loaded
  have loaded := agrees_member rfl (by decide) (agrees_strings r.dependencies) loaded
  cases loaded
  have found := ok_of_ofOption success
  simp only [Reading.ResourceFields.resource?, dedupFirst_of_nodup distinct] at found
  exact (Option.some.inj found).symm

theorem agrees_scanRecord {r : ScanRecord}
    (distinct : ∀ resource ∈ r.resources, resource.dependencies.Nodup) :
    Agrees Reading.scanRecord levels r.toJson.syntaxOf r := by
  intro b success
  obtain ⟨fields, loaded, success⟩ := ok_of_bind success
  obtain ⟨inner, -, loaded⟩ := ok_of_bind loaded
  have resources : Agrees (list Reading.resource) inner
      (Json.arr (r.resources.map Resource.toJson)).syntaxOf r.resources :=
    agrees_list fun resource member => agrees_resource (distinct resource member)
  have loaded := agrees_member rfl (by decide) (agrees_string r.filePath) loaded
  have loaded := agrees_member rfl (by decide) (agrees_fingerprint r.fingerprint) loaded
  have loaded := agrees_member rfl (by decide) resources loaded
  cases loaded
  exact (Option.some.inj (ok_of_ofOption success)).symm

/-! ## Documents -/

theorem whole_toJson (r : ScanRecord) : r.toJson.Whole := by
  have names : ∀ texts : List String, (Json.ofStrings texts).Whole := by
    intro texts
    refine Json.wholeItems_iff.mpr fun v member => ?_
    obtain ⟨text, -, rfl⟩ := List.mem_map.mp member
    trivial
  have resources : Json.WholeItems (r.resources.map Resource.toJson) := by
    refine Json.wholeItems_iff.mpr fun v member => ?_
    obtain ⟨resource, -, rfl⟩ := List.mem_map.mp member
    exact ⟨trivial, trivial, trivial, trivial, trivial, names _, trivial⟩
  exact ⟨trivial, trivial, resources, trivial⟩

/-- No other record is read from the document of a record. -/
theorem eq_of_ofDocument? {r s : ScanRecord}
    (distinct : ∀ resource ∈ r.resources, resource.dependencies.Nodup)
    (read : ofDocument? r.toDocument = some s) : s = r := by
  rw [ofDocument?, run, toDocument, Document.read_pretty (whole_toJson r)] at read
  cases decoded : Reading.scanRecord Document.levelLimit r.toJson.syntaxOf with
  | error e => simp [decoded, bind, Except.bind, Except.toOption] at read
  | ok b =>
      have same : b = s := by
        simpa [decoded, bind, Except.bind, Except.toOption] using read
      rw [← same, agrees_scanRecord distinct b decoded]

/-! ## Records that fit -/

theorem reads_kind (k : ResourceKind) : Reads Reading.kind levels (.str k.label) k := by
  refine ⟨trivial, ?_⟩
  rw [Json.syntaxOf, Reading.kind, ResourceKind.ofLabel?_label, ofOption]

theorem reads_fingerprint (f : Fingerprint) :
    Reads Reading.fingerprint levels (.str f.toHex) f := by
  refine ⟨trivial, ?_⟩
  have text : (string : Decoder BadDocument String) levels (Json.str f.toHex).syntaxOf =
      .ok f.toHex := rfl
  rw [Reading.fingerprint, text]
  simp only [bind, Except.bind, Fingerprint.ofHex_toHex, Except.toOption, ofOption]

theorem reads_strings [Malformed ε] (more : 1 < levels) (texts : List String) :
    Reads (list (string : Decoder ε String)) levels (Json.ofStrings texts) texts :=
  reads_list more fun text _ => reads_string text

/-- A value made of what was decoded. -/
theorem reads_bind {β : Type} {item : Decoder ε α} {next : α → Except ε β} {v : Json} {a : α}
    {b : β} (reads : Reads item levels v a) (made : next a = .ok b) :
    Reads (fun levels d => item levels d >>= next) levels v b :=
  ⟨reads.1, by simp only [reads.2]; exact made⟩

theorem reads_resource (more : 2 < levels) {r : Resource} (storable : r.Storable) :
    Reads Reading.resource levels r.toJson r := by
  have written : r.toJson = .obj (List.flatten [[("name", .str r.name)],
      [("kind", .str r.kind.label)], [("file_path", .str r.filePath)], [("line", .nat r.line)],
      [("module_id", .str r.moduleId)], [("dependencies", Json.ofStrings r.dependencies)]]) := rfl
  rw [written]
  refine reads_bind (reads_record (by omega) (by decide)
    (.cons (given_some (reads_string r.name)) <| .cons (given_some (reads_kind r.kind)) <|
      .cons (given_some (reads_string r.filePath)) <|
      .cons (given_some (reads_natBelow (Nat.le_refl _) storable.line)) <|
      .cons (given_some (reads_string r.moduleId)) <|
      .cons (given_some (reads_strings (by omega) r.dependencies)) .nil)) ?_
  simp only [Reading.ResourceFields.resource?, dedupFirst_of_nodup storable.distinct]
  rfl

theorem reads_scanRecord (more : 4 < levels) {r : ScanRecord}
    (storable : ∀ resource ∈ r.resources, resource.Storable) :
    Reads Reading.scanRecord levels r.toJson r := by
  have written : r.toJson = .obj (List.flatten [[("file_path", .str r.filePath)],
      [("fingerprint", .str r.fingerprint.toHex)],
      [("resources", .arr (r.resources.map Resource.toJson))]]) := rfl
  have resources : Reads (list Reading.resource) (levels - 1)
      (.arr (r.resources.map Resource.toJson)) r.resources :=
    reads_list (by omega) fun resource member =>
      reads_resource (by omega) (storable resource member)
  rw [written]
  exact reads_bind (reads_record (by omega) (by decide)
    (.cons (given_some (reads_string r.filePath)) <|
      .cons (given_some (reads_fingerprint r.fingerprint)) <|
      .cons (given_some resources) .nil)) rfl

/-- A record is read from its document if its resources can be stored. -/
theorem ofDocument?_toDocument {r : ScanRecord}
    (storable : ∀ resource ∈ r.resources, resource.Storable) :
    ofDocument? r.toDocument = some r := by
  have reads : Reads Reading.scanRecord Document.levelLimit r.toJson r :=
    reads_scanRecord (by decide) storable
  rw [ofDocument?, run, toDocument, Document.read_pretty reads.1]
  simp only [reads.2, bind, Except.bind, if_true, Except.toOption]

end ScanRecord

end WorkflowAudit
