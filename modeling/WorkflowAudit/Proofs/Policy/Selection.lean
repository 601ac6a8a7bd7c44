import WorkflowAudit.Policy.Selection
import WorkflowAudit.Proofs.Data.OrderedMap
import WorkflowAudit.Proofs.Data.Result
import WorkflowAudit.Proofs.Policy.Report

/-! # Which rules settings select

What settings say of a rule is read off here rule by rule: whether it is on, and how many jobs are
allowed. The selection goes another way: it merges whole maps of settings, builds every rule from its
merged settings and disables those that are off. Both ways agree on every settings and every
workflow, and settings that are refused are refused for the first of their faults.
-/

namespace WorkflowAudit

/-! ## What settings say -/

namespace PolicySettings

variable (s : PolicySettings)

/-- The preset, which is `standard` unless one is named. -/
def presetName : String := s.preset.getD "standard"

/-- Whether a rule is on: as its settings say, else as the preset says. -/
def isOn (kind : Policy.RuleKind) : Bool :=
  ((s.rules.get? kind.id).bind (·.enabled)).getD (Policy.presetEnables s.presetName kind)

/-- The number of jobs that is set for the job limit, else the one of the preset. -/
def maxJobs? : Option Json :=
  ((s.rules.get? Policy.RuleKind.limitJobCount.id).bind fun top =>
    top.params.get? Policy.maxJobsParam).or
    ((Policy.presetParams s.presetName .limitJobCount).get? Policy.maxJobsParam)

/-- So many jobs are allowed. -/
def Allows (jobs : Nat) : Prop :=
  s.maxJobs? = some (.int jobs) ∨ (s.maxJobs? = none ∧ jobs = Policy.defaultMaxJobs)

/-- Why settings select nothing. Each fault counts only without those before it, and of several
unknown rules the first one counts. -/
inductive Refused : PolicyError → Prop
  | preset (unknown : s.presetName ∉ Policy.presets) : Refused (.unknownPreset s.presetName)
  | rule {id : String} (preset : s.presetName ∈ Policy.presets)
      (first : s.rules.keys.find? (fun id => id ∉ Policy.ruleIds) = some id) :
      Refused (.unknownRule id)
  | param {value : Json} (preset : s.presetName ∈ Policy.presets)
      (rules : ∀ id ∈ s.rules.keys, id ∈ Policy.ruleIds) (given : s.maxJobs? = some value)
      (wrong : ∀ jobs : Nat, value ≠ .int jobs) :
      Refused (.invalidParam "limit_job_count" "max_jobs" "expected a non-negative integer")

end PolicySettings

namespace Policy

/-! ## Kinds of rules -/

namespace RuleKind

theorem mem_all (kind : RuleKind) : kind ∈ all := by cases kind <;> decide

theorem id_rule (kind : RuleKind) (maxJobs : Nat) : (kind.rule maxJobs).id = kind.id := by
  cases kind <;> rfl

theorem ofId?_id (kind : RuleKind) : ofId? kind.id = some kind := by cases kind <;> decide

theorem id_injective : Function.Injective id := by
  intro a b same
  have found := ofId?_id a
  rw [same, ofId?_id b] at found
  exact (Option.some.inj found).symm

theorem nodup_ids : (all.map id).Nodup := by decide

/-- Only the job limit reads the number of jobs. -/
theorem rule_eq_of_ne {kind : RuleKind} (other : kind ≠ .limitJobCount) (m n : Nat) :
    kind.rule m = kind.rule n := by
  cases kind <;> first | rfl | exact absurd rfl other

end RuleKind

/-! ## Merging settings -/

/-- Settings of a rule, with those given for it laid over. -/
def laidOver (tops : List (String × RuleSettings)) (id : String) (base : RuleSettings) :
    RuleSettings :=
  (((tops.find? fun e => e.1 = id).map Prod.snd).map (overlay base)).getD base

theorem laidOver_of_absent {tops : List (String × RuleSettings)} {id : String}
    (absent : id ∉ tops.map Prod.fst) (base : RuleSettings) : laidOver tops id base = base := by
  have none : tops.find? (fun e => e.1 = id) = none := by
    rw [List.find?_eq_none]
    intro e member
    have apart : e.1 ≠ id := fun same => absent (List.mem_map.mpr ⟨e, member, same⟩)
    simpa using apart
  rw [laidOver, none]
  rfl

theorem get?_params_overlay (base top : RuleSettings) (key : String) :
    (overlay base top).params.get? key = (top.params.get? key).or (base.params.get? key) :=
  OrderedMap.get?_foldl_insert top.params.nodup base.params key

/-- Settings of known rules change the settings of these rules and nothing else. -/
theorem override_known {tops : List (String × RuleSettings)} (base : Selection)
    (distinct : (tops.map Prod.fst).Nodup) (known : ∀ e ∈ tops, e.1 ∈ base.keys) :
    ∃ merged, tops.foldlM (fun m e => override m e.1 e.2) base = .ok merged ∧
      merged.keys = base.keys ∧
      ∀ id, merged.get? id = (base.get? id).map (laidOver tops id) := by
  induction tops generalizing base with
  | nil => exact ⟨base, rfl, rfl, fun id => by cases base.get? id <;> rfl⟩
  | cons e tops ih =>
      obtain ⟨here, later⟩ := List.forall_mem_cons.mp known
      obtain ⟨fresh, distinct⟩ := List.nodup_cons.mp distinct
      obtain ⟨current, found⟩ : ∃ current, base.get? e.1 = some current :=
        Option.ne_none_iff_exists'.mp fun none => OrderedMap.get?_eq_none_iff.mp none here
      have keys : (base.insert e.1 (overlay current e.2)).keys = base.keys := by
        rw [OrderedMap.keys_insert, if_pos here]
      obtain ⟨merged, success, sameKeys, values⟩ := ih _ distinct (by rwa [keys])
      refine ⟨merged, ?_, sameKeys.trans keys, fun id => ?_⟩
      · have step : override base e.1 e.2 = .ok (base.insert e.1 (overlay current e.2)) := by
          rw [override, found]
        rw [List.foldlM_cons, step]
        exact success
      · rw [values, OrderedMap.get?_insert]
        by_cases same : id = e.1
        · subst same
          rw [if_pos rfl, found, Option.map_some, Option.map_some, laidOver_of_absent fresh]
          simp [laidOver]
        · have skipped : laidOver (e :: tops) id = laidOver tops id := by
            funext settings
            simp [laidOver, Ne.symm same]
          rw [if_neg same, skipped]

/-- The first unknown rule ends the merging. -/
theorem override_unknown {tops : List (String × RuleSettings)} {base : Selection} {id : String}
    (distinct : (tops.map Prod.fst).Nodup)
    (first : (tops.map Prod.fst).find? (fun id => id ∉ base.keys) = some id) :
    tops.foldlM (fun m e => override m e.1 e.2) base = .error (.unknownRule id) := by
  obtain ⟨unknown, before, after, spelled, known⟩ := List.find?_eq_some_iff_append.mp first
  obtain ⟨knownTops, rest, rfl, rfl, others⟩ := List.map_eq_append_iff.mp spelled
  obtain ⟨e, later, rfl, rfl, rfl⟩ := List.map_eq_cons_iff.mp others
  rw [List.map_append] at distinct
  obtain ⟨merged, success, keys, -⟩ :=
    override_known base (List.nodup_append.mp distinct).1 fun e member => by
      simpa using known e.1 (List.mem_map_of_mem member)
  have absent : merged.get? e.1 = none := by
    rw [OrderedMap.get?_eq_none_iff, keys]
    simpa using unknown
  rw [List.foldlM_append, success]
  simp only [List.foldlM_cons, override, absent, bind, Except.bind]

/-! ## Merged settings -/

/-- The settings of all rules by a preset. -/
def presetMap (preset : String) : Selection :=
  .ofList (RuleKind.all.map fun kind => (kind.id, presetSettings preset kind))

theorem entries_presetMap (preset : String) :
    (presetMap preset).entries =
      RuleKind.all.map fun kind => (kind.id, presetSettings preset kind) := by
  have distinct : ((RuleKind.all.map fun kind => (kind.id, presetSettings preset kind)).map
      Prod.fst).Nodup := by
    simpa only [List.map_map, Function.comp_def] using RuleKind.nodup_ids
  have loaded := OrderedMap.entries_foldl_insert OrderedMap.empty
    (RuleKind.all.map fun kind => (kind.id, presetSettings preset kind))
    (by simpa [OrderedMap.keys, OrderedMap.empty] using distinct)
  exact loaded

theorem keys_presetMap (preset : String) : (presetMap preset).keys = ruleIds := by
  rw [OrderedMap.keys, entries_presetMap, List.map_map, ruleIds]
  rfl

theorem get?_presetMap (preset : String) (kind : RuleKind) :
    (presetMap preset).get? kind.id = some (presetSettings preset kind) := by
  rw [OrderedMap.get?_eq_some_iff, entries_presetMap]
  exact List.mem_map.mpr ⟨kind, kind.mem_all, rfl⟩

/-- The settings of a rule once all are merged. -/
def mergedSettings (s : PolicySettings) (kind : RuleKind) : RuleSettings :=
  laidOver s.rules.entries kind.id (presetSettings s.presetName kind)

theorem mergedSettings_eq (s : PolicySettings) (kind : RuleKind) :
    mergedSettings s kind = ((s.rules.get? kind.id).map
      (overlay (presetSettings s.presetName kind))).getD (presetSettings s.presetName kind) := rfl

theorem enabled_mergedSettings (s : PolicySettings) (kind : RuleKind) :
    (mergedSettings s kind).enabled = some (s.isOn kind) := by
  rw [mergedSettings_eq, PolicySettings.isOn]
  cases s.rules.get? kind.id with
  | none => rfl
  | some top => cases given : top.enabled <;> simp [overlay, presetSettings, given]

theorem maxJobs_mergedSettings (s : PolicySettings) :
    (mergedSettings s .limitJobCount).params.get? maxJobsParam = s.maxJobs? := by
  rw [mergedSettings_eq, PolicySettings.maxJobs?]
  cases s.rules.get? RuleKind.limitJobCount.id with
  | none => rfl
  | some top => exact get?_params_overlay _ top maxJobsParam

/-- A merged map lists the rules in their order. -/
theorem entries_of_merged {s : PolicySettings} {merged : Selection} (keys : merged.keys = ruleIds)
    (values : ∀ id, merged.get? id =
      ((presetMap s.presetName).get? id).map (laidOver s.rules.entries id)) :
    merged.entries = RuleKind.all.map fun kind => (kind.id, mergedSettings s kind) := by
  let listed : Selection := ⟨RuleKind.all.map fun kind => (kind.id, mergedSettings s kind), by
    simpa only [List.map_map, Function.comp_def] using RuleKind.nodup_ids⟩
  have listedKeys : listed.keys = ruleIds := by
    rw [OrderedMap.keys, List.map_map, ruleIds]
    rfl
  have same : merged = listed := by
    refine OrderedMap.ext_get? (keys.trans listedKeys.symm) fun id => ?_
    by_cases member : id ∈ ruleIds
    · obtain ⟨kind, -, rfl⟩ := List.mem_map.mp member
      have entry : (kind.id, mergedSettings s kind) ∈ listed.entries :=
        List.mem_map.mpr ⟨kind, kind.mem_all, rfl⟩
      rw [values, get?_presetMap, OrderedMap.get?_eq_some_iff.mpr entry]
      rfl
    · rw [OrderedMap.get?_eq_none_iff.mpr (by rwa [keys]),
        OrderedMap.get?_eq_none_iff.mpr (by rwa [listedKeys])]
  rw [same]

/-! ## Building rules -/

theorem jobLimit_eq_ok_iff {s : PolicySettings} {jobs : Nat} :
    jobLimit (mergedSettings s .limitJobCount) = .ok jobs ↔ s.Allows jobs := by
  rw [PolicySettings.Allows, ← maxJobs_mergedSettings, jobLimit, RuleSettings.natParam?]
  cases given : (mergedSettings s .limitJobCount).params.get? maxJobsParam with
  | none =>
      have absent := OrderedMap.get?_eq_none_iff.mp given
      rw [← OrderedMap.contains_iff, Bool.not_eq_true] at absent
      simp [absent, eq_comm]
  | some value =>
      have present := mt OrderedMap.get?_eq_none_iff.mpr (by rw [given]; exact Option.some_ne_none _)
      rw [not_not, ← OrderedMap.contains_iff] at present
      rw [if_pos present]
      cases value with
      | int n =>
          by_cases natural : 0 ≤ n
          · simp only [natural, if_true, Except.ok.injEq, Option.some.injEq, Json.int.injEq,
              reduceCtorEq, false_and, or_false]
            omega
          · simp only [natural, if_false, reduceCtorEq, Option.some.injEq, Json.int.injEq,
              false_and, or_false, false_iff]
            omega
      | _ => simp

/-- What is said of a job limit that is no number. -/
def wrongLimit : PolicyError :=
  .invalidParam "limit_job_count" "max_jobs" "expected a non-negative integer"

theorem eq_wrongLimit_of_jobLimit {settings : RuleSettings} {e : PolicyError}
    (failed : jobLimit settings = .error e) : e = wrongLimit := by
  rw [jobLimit] at failed
  split at failed
  · split at failed
    · cases failed
    · exact (Except.error.inj failed).symm
  · cases failed

theorem buildRule_id (kind : RuleKind) (settings : RuleSettings) :
    buildRule kind.id settings =
      if kind = .limitJobCount then (jobLimit settings).map RuleKind.limitJobCount.rule
      else .ok (kind.rule defaultMaxJobs) := by
  rw [buildRule, RuleKind.ofId?_id]
  cases kind <;> rfl

section Build

variable {s : PolicySettings} {merged : Selection} {jobs : Nat}

theorem buildRule_of_allows (allowed : s.Allows jobs) (kind : RuleKind) :
    buildRule kind.id (mergedSettings s kind) = .ok (kind.rule jobs) := by
  rw [buildRule_id]
  split
  · rename_i limit
    subst limit
    rw [jobLimit_eq_ok_iff.mpr allowed]
    rfl
  · rename_i other
    rw [RuleKind.rule_eq_of_ne other]

variable (listed : merged.entries = RuleKind.all.map fun kind => (kind.id, mergedSettings s kind))

include listed

/-- With a number for the job limit all rules are built, and those that are off are disabled. -/
theorem rulesOf_of_allows (allowed : s.Allows jobs) :
    rulesOf merged = .ok ⟨RuleKind.all.map (·.rule jobs),
      (RuleKind.all.filter fun kind => !s.isOn kind).map RuleKind.id⟩ := by
  have built : (merged.entries.mapM fun e => buildRule e.1 e.2) =
      .ok (RuleKind.all.map (·.rule jobs)) := by
    rw [mapM_eq_ok_iff, listed, List.forall₂_map_left_iff, List.forall₂_map_right_iff,
      List.forall₂_same]
    exact fun kind _ => buildRule_of_allows allowed kind
  have off : (merged.entries.filter fun e => e.2.enabled = some false).map Prod.fst =
      (RuleKind.all.filter fun kind => !s.isOn kind).map RuleKind.id := by
    rw [listed, List.filter_map, List.map_map]
    simp [Function.comp_def, enabled_mergedSettings]
  rw [← off]
  simp only [rulesOf, built, bind, Except.bind]

/-- The job limit is checked whether or not it is on. -/
theorem rulesOf_of_not_allows (none : ∀ jobs, ¬ s.Allows jobs) :
    rulesOf merged = .error wrongLimit := by
  have failed : (merged.entries.mapM fun e => buildRule e.1 e.2) = .error wrongLimit := by
    rw [listed]
    refine mapM_eq_error ⟨(RuleKind.limitJobCount.id, mergedSettings s .limitJobCount),
      List.mem_map.mpr ⟨_, RuleKind.mem_all _, rfl⟩, ?_⟩ ?_
    · rw [buildRule_id, if_pos rfl]
      cases limit : jobLimit (mergedSettings s .limitJobCount) with
      | ok jobs => exact absurd (jobLimit_eq_ok_iff.mp limit) (none jobs)
      | error e => rw [eq_wrongLimit_of_jobLimit limit]; rfl
    · intro e member e' failed
      obtain ⟨kind, -, rfl⟩ := List.mem_map.mp member
      rw [buildRule_id] at failed
      split at failed
      · cases limit : jobLimit (mergedSettings s kind) with
        | ok jobs => rw [limit] at failed; cases failed
        | error wrong =>
            rw [limit] at failed
            rw [← Except.error.inj failed]
            exact eq_wrongLimit_of_jobLimit limit
      · cases failed
  simp only [rulesOf, failed, bind, Except.bind]

end Build

/-- The rules that run are those that are on. -/
theorem enabled_rules (s : PolicySettings) (jobs : Nat) :
    RuleSet.enabled ⟨RuleKind.all.map (·.rule jobs),
      (RuleKind.all.filter fun kind => !s.isOn kind).map RuleKind.id⟩ =
      (RuleKind.all.filter fun kind => s.isOn kind).map (·.rule jobs) := by
  rw [RuleSet.enabled, List.filter_map]
  congr 1
  refine List.filter_congr fun kind _ => ?_
  have listed : kind.id ∈ (RuleKind.all.filter fun kind => !s.isOn kind).map RuleKind.id ↔
      s.isOn kind = false := by
    rw [List.mem_map_of_injective RuleKind.id_injective]
    simp [RuleKind.mem_all]
  simp only [Function.comp_apply, RuleKind.id_rule]
  cases on : s.isOn kind <;> simp [listed, on]

/-! ## Selecting -/

section Select

variable {s : PolicySettings}

theorem select_of_unknown_preset (unknown : s.presetName ∉ presets) :
    select s = .error (.unknownPreset s.presetName) := by
  have missing : presetSelection? (s.preset.getD "standard") = none :=
    if_neg fun known => unknown (List.contains_iff_mem.mp known)
  simp only [select, missing, bind, Except.bind]
  rfl

theorem select_of_known_preset (known : s.presetName ∈ presets) :
    select s = (s.rules.entries.foldlM (fun m e => override m e.1 e.2) (presetMap s.presetName))
      >>= rulesOf := by
  have found : presetSelection? (s.preset.getD "standard") = some (presetMap s.presetName) :=
    if_pos (List.contains_iff_mem.mpr known)
  simp only [select, found]
  rfl

theorem select_of_unknown_rule (known : s.presetName ∈ presets) {id : String}
    (first : s.rules.keys.find? (fun id => id ∉ ruleIds) = some id) :
    select s = .error (.unknownRule id) := by
  rw [← keys_presetMap s.presetName] at first
  rw [select_of_known_preset known, override_unknown s.rules.nodup first]
  rfl

/-- Known rules under a known preset are merged into one list of settings. -/
theorem select_of_known_rules (known : s.presetName ∈ presets)
    (rules : ∀ id ∈ s.rules.keys, id ∈ ruleIds) :
    ∃ merged : Selection, select s = rulesOf merged ∧
      merged.entries = RuleKind.all.map fun kind => (kind.id, mergedSettings s kind) := by
  obtain ⟨merged, success, keys, values⟩ :=
    override_known (presetMap s.presetName) s.rules.nodup fun e member => by
      rw [keys_presetMap]
      exact rules e.1 (List.mem_map_of_mem member)
  refine ⟨merged, ?_, entries_of_merged (keys.trans (keys_presetMap _)) values⟩
  rw [select_of_known_preset known, success]
  rfl

theorem not_allows_iff : (∀ jobs, ¬ s.Allows jobs) ↔
    ∃ value, s.maxJobs? = some value ∧ ∀ jobs : Nat, value ≠ .int jobs := by
  simp only [PolicySettings.Allows, not_or, not_and]
  cases s.maxJobs? with
  | none => simp
  | some value => simp

theorem select_of_refused {e : PolicyError} (refused : s.Refused e) : select s = .error e := by
  cases refused with
  | preset unknown => exact select_of_unknown_preset unknown
  | rule preset first => exact select_of_unknown_rule preset first
  | param preset rules given wrong =>
      obtain ⟨merged, selected, listed⟩ := select_of_known_rules preset rules
      rw [selected]
      exact rulesOf_of_not_allows listed (not_allows_iff.mpr ⟨_, given, wrong⟩)

/-- Settings that are not refused allow some number of jobs and select the rules that are on. -/
theorem select_of_not_refused (sound : ∀ e, ¬ s.Refused e) :
    ∃ rules jobs, select s = .ok rules ∧ s.Allows jobs ∧
      rules.enabled = (RuleKind.all.filter fun kind => s.isOn kind).map (·.rule jobs) := by
  have preset : s.presetName ∈ presets := by
    by_contra unknown
    exact sound _ (.preset unknown)
  have known : ∀ id ∈ s.rules.keys, id ∈ ruleIds := by
    have none : s.rules.keys.find? (fun id => id ∉ ruleIds) = none := by
      by_contra some
      obtain ⟨id, first⟩ := Option.ne_none_iff_exists'.mp some
      exact sound _ (.rule preset first)
    simpa using none
  obtain ⟨jobs, allowed⟩ : ∃ jobs, s.Allows jobs := by
    by_contra none
    obtain ⟨value, given, wrong⟩ := not_allows_iff.mp (not_exists.mp none)
    exact sound _ (.param preset known given wrong)
  obtain ⟨merged, selected, listed⟩ := select_of_known_rules preset known
  exact ⟨_, jobs, selected.trans (rulesOf_of_allows listed allowed), allowed, enabled_rules s jobs⟩

end Select

/-- Settings select the rules that are on, or are refused for the first of their faults. -/
theorem select_follows_settings (s : PolicySettings) :
    (∀ e, select s = .error e ↔ s.Refused e) ∧
    ((∀ e, ¬ s.Refused e) → ∃ rules jobs, select s = .ok rules ∧ s.Allows jobs ∧ ∀ w,
      let report := PolicyReport.of rules w
      report.violations = (RuleKind.all.filter fun kind => s.isOn kind).flatMap
          (fun kind => (kind.rule jobs).evaluate w) ∧
        (∀ severity n, (severity, n) ∈ report.counts ↔
          n = report.violations.countP (fun v => v.severity = severity) ∧ 0 < n) ∧
        (∀ severity, report.count severity =
          report.violations.countP fun v => v.severity = severity) ∧
        ∀ floor, report.passed floor = true ↔
          ∀ v ∈ report.violations, v.severity.rank < floor.rank) := by
  refine ⟨fun e => ⟨fun failed => ?_, select_of_refused⟩, fun sound => ?_⟩
  · by_contra other
    by_cases sound : ∀ e, ¬ s.Refused e
    · obtain ⟨rules, jobs, selected, -⟩ := select_of_not_refused sound
      cases selected.symm.trans failed
    · obtain ⟨e', refused⟩ := not_forall_not.mp sound
      obtain rfl := Except.error.inj ((select_of_refused refused).symm.trans failed)
      exact other refused
  · obtain ⟨rules, jobs, selected, allowed, enabled⟩ := select_of_not_refused sound
    refine ⟨rules, jobs, selected, allowed, fun w => ⟨?_, ?_, ?_, ?_⟩⟩
    · simp only [PolicyReport.of, PolicyReport.ofViolations, RuleSet.evaluate, enabled,
        List.flatMap_map]
    · exact fun severity n => PolicyReport.mem_tally_iff
    · exact fun severity => PolicyReport.count_ofViolations w.name _ severity
    · exact fun floor => PolicyReport.passed_ofViolations_iff

end Policy

end WorkflowAudit
