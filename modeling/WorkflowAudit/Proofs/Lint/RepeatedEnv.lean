import WorkflowAudit.Lint.StructureRules
import WorkflowAudit.Proofs.Data.OrderedMap
import WorkflowAudit.Proofs.Text.Digits

/-!
# Environment variables of several steps

The rule on repeated environment variables counts entries of dictionaries. A key that each step
lists at most once is counted once for each step that has it. A key that one step lists twice is
counted twice, as if two steps had it.
-/

namespace WorkflowAudit.Lint

open Script

/-- The string keys of the inline environment of a step. -/
def envKeys (step : Call) : List String :=
  match step.keyword? "env" with
  | some (.dict _ items) => items.filterMap fun item => item.key.bind Expr.asString?
  | _ => []

/-- All keys that steps list, in the order in which they list them. -/
def listedKeys (u : SourceUnit) : List String := (u.callsTo "Step").flatMap envKeys

/-- The steps whose inline environment has a key. -/
def stepsWith (u : SourceUnit) (key : String) : List Call :=
  (u.callsTo "Step").filter fun step => key ∈ envKeys step

/-- What is reported of a key that is counted `n` times. -/
def repeatedEnv (u : SourceUnit) (key : String) (n : Nat) : Violation where
  ruleId := "WAG005"
  severity := .low
  message := s!"Env variable '{key}' defined in {n} steps; consider extracting to job-level env"
  location := .source u.path (u.lineOf (((stepsWith u key).map (·.span.start)).headD 0)) 1
  suggestion := some "Move to Job(env=\x7b...\x7d) or Workflow(env=\x7b...\x7d)"

/-- The report on the keys that are counted at least twice, each once, in the order of their first
occurrences. -/
def envReport (u : SourceUnit) (count : String → Nat) : List Violation :=
  ((dedupFirst (listedKeys u)).filter (2 ≤ count ·)).map fun key => repeatedEnv u key (count key)

/-! ## Entries and steps -/

section Entries

variable {α : Type u} {κ : Type v} {β : Type w} (keys : α → List κ) (place : α → β)

theorem map_fst_flatMap_keys (as : List α) :
    (as.flatMap fun a => (keys a).map (·, place a)).map Prod.fst = as.flatMap keys := by
  simp [List.map_flatMap, Function.comp_def]

variable [DecidableEq κ] (k : κ)

/-- The first entry with a key stands where the first member with the key does. -/
theorem head?_entries (as : List α) :
    (((as.flatMap fun a => (keys a).map (·, place a)).filter (·.1 = k)).map Prod.snd).head? =
      ((as.filter (k ∈ keys ·)).map place).head? := by
  induction as with
  | nil => rfl
  | cons a as ih =>
      rw [List.flatMap_cons, List.filter_append, List.map_append, List.filter_cons, List.filter_map,
        List.map_map]
      have same : ((keys a).filter ((·.1 = k) ∘ (·, place a))) = (keys a).filter (· = k) := rfl
      by_cases listed : k ∈ keys a
      · have own : ((keys a).filter (· = k)) ≠ [] := by simpa [List.filter_eq_nil_iff] using listed
        obtain ⟨own, more, found⟩ := List.exists_cons_of_ne_nil own
        simp [same, found, listed]
      · have own : ((keys a).filter (· = k)) = [] := by
          rw [List.filter_eq_nil_iff]
          rintro own member here
          exact listed (of_decide_eq_true here ▸ member)
        simpa [same, own, listed] using ih

theorem length_filter_le_count (as : List α) :
    (as.filter (k ∈ keys ·)).length ≤ (as.flatMap keys).count k := by
  induction as with
  | nil => exact Nat.le_refl 0
  | cons a as ih =>
      rw [List.flatMap_cons, List.count_append, List.filter_cons]
      by_cases listed : k ∈ keys a
      · have := List.count_pos_iff.mpr listed
        simp only [listed, decide_true, if_true, List.length_cons]
        omega
      · simpa [listed] using Nat.le_add_left_of_le ih

/-- Entries are as many as members that have the key if and only if no member has it twice. -/
theorem count_flatMap_eq_iff (as : List α) :
    (as.flatMap keys).count k = (as.filter (k ∈ keys ·)).length ↔
      ∀ a ∈ as, (keys a).count k ≤ 1 := by
  induction as with
  | nil => simp
  | cons a as ih =>
      have atMost := length_filter_le_count keys k as
      rw [List.flatMap_cons, List.count_append, List.filter_cons, List.forall_mem_cons, ← ih]
      by_cases listed : k ∈ keys a
      · have := List.count_pos_iff.mpr listed
        simp only [listed, decide_true, if_true, List.length_cons]
        omega
      · simp [listed, List.count_eq_zero.mpr listed]

end Entries

/-! ## The report -/

theorem stepEnvKeys_eq (u : SourceUnit) :
    stepEnvKeys u = (u.callsTo "Step").flatMap fun step =>
      (envKeys step).map (·, step.span.start) := by
  refine List.flatMap_congr fun step _ => ?_
  split
  case h_1 found =>
    simp only [envKeys, found, List.map_filterMap]
    refine List.filterMap_congr fun item _ => ?_
    cases item.key with
    | none => rfl
    | some key => cases named : key.asString? <;> simp [named]
  case h_2 other =>
    unfold envKeys
    split
    case h_1 found => exact absurd found (other _ _)
    case h_2 => rfl

/-- The report of the rule counts entries. -/
theorem evaluate_repeatedStepEnv (u : SourceUnit) :
    repeatedStepEnv.evaluate u = envReport u ((listedKeys u).count ·) := by
  have listed : (stepEnvKeys u).map Prod.fst = listedKeys u := by
    rw [stepEnvKeys_eq, map_fst_flatMap_keys, listedKeys]
  have occurrences : (keyOccurrences u).entries = (dedupFirst (listedKeys u)).map fun key =>
      (key, ((stepEnvKeys u).filter (·.1 = key)).map Prod.snd) := by
    rw [← listed]
    exact OrderedMap.entries_grouped Prod.fst Prod.snd (stepEnvKeys u)
  have counted : ∀ key, (((stepEnvKeys u).filter (·.1 = key)).map Prod.snd).length =
      (listedKeys u).count key := by
    intro key
    rw [List.length_map, ← listed, List.count_eq_length_filter, List.filter_map, List.length_map]
    rfl
  have first : ∀ key, (((stepEnvKeys u).filter (·.1 = key)).map Prod.snd).headD 0 =
      ((stepsWith u key).map (·.span.start)).headD 0 := by
    intro key
    rw [List.headD_eq_head?_getD, List.headD_eq_head?_getD, stepEnvKeys_eq, head?_entries,
      stepsWith]
  simp only [repeatedStepEnv, check, occurrences, List.filter_map, List.map_map, envReport,
    Function.comp_def, counted, first]
  rfl

theorem repeatedEnv_inj {u : SourceUnit} {key : String} {m n : Nat} :
    repeatedEnv u key m = repeatedEnv u key n ↔ m = n := by
  refine ⟨fun same => ?_, congrArg (repeatedEnv u key)⟩
  have spelled : ∀ n : Nat, (repeatedEnv u key n).message.toList =
      ("Env variable '".toList ++ key.toList ++ "' defined in ".toList) ++ Nat.toDigits 10 n ++
        " steps; consider extracting to job-level env".toList := by
    intro n
    have parts : (repeatedEnv u key n).message = "Env variable '" ++ key ++ "' defined in " ++
        n.repr ++ " steps; consider extracting to job-level env" := rfl
    rw [parts]
    simp
  have messages := congrArg (fun v => v.message.toList) same
  rw [spelled, spelled, List.append_cancel_right_eq, List.append_cancel_left_eq] at messages
  exact Text.toDigits_injective messages

/-- Of two counts the lower one gives another report, unless it is the same for what is reported. -/
theorem eq_of_envReport_eq {u : SourceUnit} {high low : String → Nat}
    (lower : ∀ key, low key ≤ high key) (same : envReport u high = envReport u low) {key : String}
    (listed : key ∈ listedKeys u) (reported : 2 ≤ high key) : high key = low key := by
  have fewer : ((dedupFirst (listedKeys u)).filter (2 ≤ low ·)).Sublist
      ((dedupFirst (listedKeys u)).filter (2 ≤ high ·)) :=
    List.monotone_filter_right _ fun key hlow =>
      decide_eq_true (Nat.le_trans (of_decide_eq_true hlow) (lower key))
  have keys := fewer.eq_of_length (by simpa [envReport] using (congrArg List.length same).symm)
  unfold envReport at same
  rw [keys, List.map_inj_left] at same
  have member : key ∈ (dedupFirst (listedKeys u)).filter (2 ≤ high ·) := by
    simp [listed, reported]
  exact repeatedEnv_inj.mp (same key member)

/-- The report of the rule counts entries, which are at least as many as the steps that have the
key. It is the report that counts steps if and only if no step lists a key twice. -/
theorem repeatedStepEnv_counts (u : SourceUnit) :
    repeatedStepEnv.evaluate u = envReport u ((listedKeys u).count ·) ∧
      (∀ key, (stepsWith u key).length ≤ (listedKeys u).count key) ∧
      (repeatedStepEnv.evaluate u = envReport u (fun key => (stepsWith u key).length) ↔
        ∀ step ∈ u.callsTo "Step", (envKeys step).Nodup) := by
  have atMost : ∀ key, (stepsWith u key).length ≤ (listedKeys u).count key := fun key =>
    length_filter_le_count envKeys key (u.callsTo "Step")
  refine ⟨evaluate_repeatedStepEnv u, atMost, ?_⟩
  rw [evaluate_repeatedStepEnv]
  constructor
  · intro same step member
    rw [List.nodup_iff_count_le_one]
    intro key
    by_contra twice
    have own : (envKeys step).Sublist (listedKeys u) :=
      List.sublist_flatten_of_mem (List.mem_map_of_mem member)
    have listed : key ∈ listedKeys u := own.subset (List.count_pos_iff.mp (by omega))
    have reported : 2 ≤ (listedKeys u).count key :=
      Nat.le_trans (by omega) (own.count_le key)
    have counted := eq_of_envReport_eq atMost same listed reported
    have once := (count_flatMap_eq_iff envKeys key _).mp counted step member
    omega
  · intro distinct
    have same : (fun key => (listedKeys u).count key) = fun key => (stepsWith u key).length := by
      funext key
      exact (count_flatMap_eq_iff envKeys key _).mpr fun step member =>
        List.nodup_iff_count_le_one.mp (distinct step member) key
    rw [same]

-- One step lists a key twice, as if there were two steps.
example : (repeatedStepEnv.evaluate
    (.ofText "ci.py" "x = Step(env=\x7b'A': 1, 'A': 2\x7d)\n")).map (·.message) =
      ["Env variable 'A' defined in 2 steps; consider extracting to job-level env"] := by
  decide +kernel

end WorkflowAudit.Lint
