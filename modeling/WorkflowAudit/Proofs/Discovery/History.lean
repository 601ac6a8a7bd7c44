import WorkflowAudit.Proofs.Discovery.Event

/-! # Histories of a cache directory

A record is found as long as the last one under its fingerprint was put for the same path and the
directory was not cleared since. The fingerprint of a path that leads nowhere is no exception: what was
put under it is found.
-/

namespace WorkflowAudit.DiscoveryCache

open FileTree

variable {ι : Type} [DecidableEq ι] {dir path : String} {start : Shared ι} {events : List (Event ι)}
  {e : Event ι} {f : Fingerprint} {r : ScanRecord} {resources : List Resource}

/-! ## Records that were written last -/

/-- An event of a history that records under a fingerprint, and nothing later replaces the record. -/
structure LastRecord (start : Shared ι) (events : List (Event ι)) (f : Fingerprint) (r : ScanRecord)
    (before : List (Event ι)) (e : Event ι) (after : List (Event ι)) : Prop where
  split : events = before ++ e :: after
  records : e.Records (runEvents start before) r
  under : r.fingerprint = f
  stays : ∀ middle other rest, after = middle ++ other :: rest →
    ¬ other.Replaces (runEvents start (before ++ e :: middle)) f

/-- The last record under a fingerprint since the directory was cleared. -/
def LastRecorded (start : Shared ι) (events : List (Event ι)) (f : Fingerprint) (r : ScanRecord) :
    Prop := ∃ before e after, LastRecord start events f r before e after

theorem not_lastRecorded_nil : ¬ LastRecorded start [] f r := by
  rintro ⟨before, e, after, last⟩
  exact absurd last.split.symm (List.append_ne_nil_of_right_ne_nil _ (List.cons_ne_nil _ _))

/-- The last event records, or it does not replace what was recorded before. -/
theorem lastRecorded_concat_iff :
    LastRecorded start (events ++ [e]) f r ↔
      (e.Records (runEvents start events) r ∧ r.fingerprint = f) ∨
      (LastRecorded start events f r ∧ ¬ e.Replaces (runEvents start events) f) := by
  constructor
  · rintro ⟨before, first, after, split, records, under, stays⟩
    rcases List.eq_nil_or_concat after with rfl | ⟨middle, final, rfl⟩
    · obtain ⟨rfl, same⟩ := List.append_inj' split rfl
      obtain rfl := List.singleton_inj.mp same
      exact .inl ⟨records, under⟩
    · rw [List.concat_eq_append, ← List.cons_append, ← List.append_assoc] at split
      obtain ⟨rfl, same⟩ := List.append_inj' split rfl
      obtain rfl := List.singleton_inj.mp same
      refine .inr ⟨⟨before, first, middle, rfl, records, under, ?_⟩, ?_⟩
      · rintro front other rest rfl
        refine stays front other (rest ++ [e]) ?_
        rw [List.concat_eq_append, List.append_assoc, List.cons_append]
      · exact stays middle e [] (List.concat_eq_append)
  · rintro (⟨records, under⟩ | ⟨⟨before, first, after, rfl, records, under, stays⟩, last⟩)
    · refine ⟨events, e, [], rfl, records, under, fun middle other rest none => ?_⟩
      exact absurd none.symm (List.append_ne_nil_of_right_ne_nil _ (List.cons_ne_nil _ _))
    · refine ⟨before, first, after ++ [e], by simp, records, under, fun middle other rest cut => ?_⟩
      rcases List.eq_nil_or_concat rest with rfl | ⟨rest, final, rfl⟩
      · obtain ⟨rfl, same⟩ := List.append_inj' cut rfl
        obtain rfl := List.singleton_inj.mp same
        exact last
      · rw [List.concat_eq_append, ← List.cons_append, ← List.append_assoc] at cut
        obtain ⟨rfl, -⟩ := List.append_inj' cut rfl
        exact stays middle other rest rfl

/-! ## Histories -/

/-- A history of one directory inside the tree. It starts without records, the caches alone write
records and remove them, and the resources that are recorded can be stored. -/
structure History (dir : String) (start : Shared ι) (events : List (Event ι)) : Prop where
  dirs : ∀ i, (start.cache i).dir = dir
  inside : Inside (destination dir)
  distinct : start.tree.top.Distinct
  unrecorded : ∀ f, Keeps dir start.tree f none
  apart : ∀ e ∈ events, e.Apart dir
  storable : ∀ before e r, before ++ [e] <+: events → e.Records (runEvents start before) r →
    ∀ resource ∈ r.resources, resource.Storable

/-- The directory keeps under each fingerprint what was recorded last. -/
structure Faithful (dir : String) (start : Shared ι) (events : List (Event ι)) : Prop where
  dirs : ∀ i, ((runEvents start events).cache i).dir = dir
  distinct : (runEvents start events).tree.top.Distinct
  keeps : ∀ f, ∃ kept, Keeps dir (runEvents start events).tree f kept ∧
    ∀ r, kept = some r ↔ LastRecorded start events f r

theorem History.of_concat (history : History dir start (events ++ [e])) :
    History dir start events where
  dirs := history.dirs
  inside := history.inside
  distinct := history.distinct
  unrecorded := history.unrecorded
  apart other member := history.apart other (List.mem_append_left _ member)
  storable before other r earlier :=
    history.storable before other r (earlier.trans (List.prefix_append _ _))

/-- One event: what it records is kept, what it clears is not, and the rest stays. -/
theorem Faithful.concat (faithful : Faithful dir start events) (inside : Inside (destination dir))
    (apart : e.Apart dir) : Faithful dir start (events ++ [e]) where
  dirs i := by
    rw [runEvents_concat, dir_apply]
    exact faithful.dirs i
  distinct := by
    rw [runEvents_concat]
    exact distinct_apply faithful.distinct e
  keeps f := by
    obtain ⟨kept, keeps, last⟩ := faithful.keeps f
    rw [runEvents_concat]
    by_cases replaces : e.Replaces (runEvents start events) f
    · rcases replaces with clears | ⟨r, records, rfl⟩
      · refine ⟨none, clears.keeps keeps faithful.dirs faithful.distinct, fun r => ?_⟩
        refine ⟨fun none => (nomatch none), fun recorded => ?_⟩
        rcases lastRecorded_concat_iff.mp recorded with ⟨records, -⟩ | ⟨-, stays⟩
        · exact absurd clears records.not_clears
        · exact absurd (.inl clears) stays
      · refine ⟨some r, records.keeps inside faithful.dirs, fun s => ?_⟩
        rw [lastRecorded_concat_iff, Option.some.injEq]
        constructor
        · rintro rfl
          exact .inl ⟨records, rfl⟩
        · rintro (⟨again, -⟩ | ⟨-, stays⟩)
          · exact (records.fingerprint again).symm
          · exact absurd (.inr ⟨r, records, rfl⟩) stays
    · refine ⟨kept, keeps.apply faithful.dirs faithful.distinct apart replaces, fun r => ?_⟩
      rw [lastRecorded_concat_iff, last r]
      constructor
      · exact fun recorded => .inr ⟨recorded, replaces⟩
      · rintro (⟨records, under⟩ | ⟨recorded, -⟩)
        · exact absurd (.inr ⟨r, records, under⟩) replaces
        · exact recorded

theorem History.faithful (history : History dir start events) : Faithful dir start events := by
  induction events using List.reverseRecOn with
  | nil =>
      refine ⟨history.dirs, history.distinct, fun f => ⟨none, history.unrecorded f, fun r => ?_⟩⟩
      exact ⟨fun none => (nomatch none), fun recorded => absurd recorded not_lastRecorded_nil⟩
  | append_singleton events e ih =>
      refine (ih history.of_concat).concat history.inside ?_
      exact history.apart e (List.mem_append_right _ List.mem_cons_self)

/-- A lookup at the end of a history finds what was recorded last, if it is about the path. -/
theorem History.lookup_iff (history : History dir start events) (i : ι) :
    ((runEvents start events).cache i).lookup (runEvents start events).tree path f = some resources ↔
      LastRecorded start events f ⟨path, f, resources⟩ := by
  have faithful := history.faithful
  obtain ⟨kept, keeps, last⟩ := faithful.keeps f
  rw [← faithful.dirs i] at keeps
  rw [lookup_eq_some_iff keeps, last]
  intro r same
  obtain ⟨before, e, after, split, records, -, -⟩ := (last r).mp same
  refine history.storable before e r ⟨after, ?_⟩ records
  rw [split, List.append_assoc, List.singleton_append]

/-! ## Lookups -/

/-- A lookup finds what was recorded last under the fingerprint since the directory was cleared, if it was
recorded for the path, and misses otherwise. A directory without a name is not cleared. -/
theorem get_iff_lastRecorded (history : History dir start events) (i : ι) (path : String)
    (f : Fingerprint) :
    (∀ resources, (((runEvents start events).cache i).get (runEvents start events).tree path f).1 =
        some resources ↔ LastRecorded start events f ⟨path, f, resources⟩) ∧
    ((∀ resources, ¬ LastRecorded start events f ⟨path, f, resources⟩) →
      ((runEvents start events).cache i).get (runEvents start events).tree path f =
        (none, { (runEvents start events).cache i with
          misses := ((runEvents start events).cache i).misses + 1 })) ∧
    (dir = "" → ∀ j, (runEvents start (events ++ [.call j .clear])).tree =
      (runEvents start events).tree) ∧
    ∀ r : ScanRecord, (∀ resource ∈ r.resources, resource.Storable) →
      ScanRecord.ofDocument? r.toDocument = some r := by
  refine ⟨fun resources => ?_, fun missing => get_of_lookup ?_, fun unnamed j => ?_,
    fun r => ScanRecord.ofDocument?_toDocument⟩
  · rw [get_fst]
    exact history.lookup_iff i
  · rw [Option.eq_none_iff_forall_ne_some]
    exact fun resources found => missing resources ((history.lookup_iff i).mp found)
  · rw [runEvents_concat]
    have named : ((runEvents start events).cache j).dir = "" := (history.faithful.dirs j).trans unnamed
    simp only [Event.apply, Call.apply, clear_of_unnamed named]

/-- Two caches of one directory in an empty tree. -/
def twoCaches : Shared Bool where
  tree := {}
  cache := fun _ => { dir := "cache" }

def zeroFingerprint : Fingerprint := ⟨List.replicate 32 0, List.length_replicate⟩

/-- A job that needs two others. -/
def buildJob : Resource := ⟨"build", .job, "ci.py", 3, "ci", ["tests", "Prüfung"]⟩

/-- One cache puts a record, the other one clears the directory and puts a record of its own. -/
def replacedHistory : List (Event Bool) :=
  [.call true (.put "old.py" zeroFingerprint []), .call false .clear,
    .call false (.put "ci.py" zeroFingerprint [buildJob]), .call true (.get "old.py")]

theorem unrecorded_empty (f : Fingerprint) : Keeps "cache" {} f none := by
  have place : destination "cache" = ["cache"] := by decide +kernel
  intro file found
  rw [recordPlace, place] at found
  cases found

theorem history_replaced : History "cache" twoCaches replacedHistory where
  dirs _ := rfl
  inside := by decide +kernel
  distinct := Node.distinct_empty
  unrecorded := unrecorded_empty
  apart e member := by
    simp only [replacedHistory, List.mem_cons, List.not_mem_nil, or_false] at member
    rcases member with rfl | rfl | rfl | rfl <;> trivial
  storable := by
    rintro before e r earlier ⟨i, c, rfl, own, -⟩ resource inside
    have member : Event.call i c ∈ replacedHistory :=
      earlier.subset (List.mem_append_right _ List.mem_cons_self)
    simp only [replacedHistory, List.mem_cons, List.not_mem_nil, or_false, Event.call.injEq]
      at member
    rcases member with ⟨-, rfl⟩ | ⟨-, rfl⟩ | ⟨-, rfl⟩ | ⟨-, rfl⟩ <;> cases own
    · cases inside
    · rw [List.mem_singleton.mp inside]
      exact ⟨by decide, by decide⟩

theorem lastRecorded_replaced :
    LastRecorded twoCaches replacedHistory zeroFingerprint ⟨"ci.py", zeroFingerprint, [buildJob]⟩ := by
  refine ⟨replacedHistory.take 2, replacedHistory[2], [replacedHistory[3]], rfl,
    ⟨false, _, rfl, rfl, by decide +kernel⟩, rfl, fun middle other rest cut => ?_⟩
  have last : other = replacedHistory[3] := by
    have member : other ∈ [replacedHistory[3]] := cut ▸ List.mem_append_right _ List.mem_cons_self
    exact List.mem_singleton.mp member
  rw [last]
  rintro (⟨i, clear, -⟩ | ⟨r, ⟨i, c, get, own, -⟩, -⟩)
  · cases clear
  · cases get
    cases own

theorem get_iff_lastRecorded_replacedHistory :
    History "cache" twoCaches replacedHistory ∧
      (((runEvents twoCaches replacedHistory).cache true).get
        (runEvents twoCaches replacedHistory).tree "ci.py" zeroFingerprint).1 = some [buildJob] :=
  ⟨history_replaced, ((get_iff_lastRecorded history_replaced true "ci.py" zeroFingerprint).1 _).mpr
    lastRecorded_replaced⟩

/-- A call that puts resources for a path under the fingerprint that it has when it leads nowhere. -/
def Event.PutsUnreachable (shared : Shared ι) (e : Event ι) (path : String)
    (resources : List Resource) : Prop :=
  ∃ i, e = .call i (.put path (.ofText path) resources) ∨
    (e = .call i (.set path resources) ∧ ∃ error, shared.tree.find path = .error error)

/-- What is hashed for a path in a history has another hash than the path, unless it is the path. -/
def PathUncollided (start : Shared ι) (events : List (Event ι)) (path : String) : Prop :=
  ∀ before, before <+: events →
    Fingerprint.ofText ((runEvents start before).tree.hashedText path) = .ofText path →
    (runEvents start before).tree.hashedText path = path

/-- A record for a path under the fingerprint of the path itself comes from no scan. -/
theorem LastRecord.putsUnreachable {before after : List (Event ι)}
    (last : LastRecord start events f ⟨path, f, resources⟩ before e after) (own : f = .ofText path)
    (uncollided : PathUncollided start events path) :
    e.PutsUnreachable (runEvents start before) path resources := by
  obtain ⟨split, ⟨i, c, rfl, recorded, -⟩, -, -⟩ := last
  have earlier : before <+: events := ⟨_, split.symm⟩
  have unreachable : (runEvents start before).tree.fingerprint path = .ofText path →
      ∃ error, (runEvents start before).tree.find path = .error error := by
    intro same
    rw [fingerprint_eq] at same
    exact hashedText_eq_self_iff.mp (uncollided before earlier same)
  cases c with
  | put path' f' resources' =>
      cases recorded
      exact ⟨i, .inl (by rw [own])⟩
  | set path' resources' =>
      obtain ⟨rfl, rfl, rfl⟩ := ScanRecord.mk.inj (Option.some.inj recorded)
      exact ⟨i, .inr ⟨rfl, unreachable own⟩⟩
  | scan s path' =>
      unfold Call.record? at recorded
      dsimp only at recorded
      split at recorded
      · cases recorded
      · split at recorded
        · cases recorded
        · rename_i text read
          obtain ⟨found, -, same⟩ := Option.map_eq_some_iff.mp recorded
          obtain ⟨rfl, rfl, -⟩ := ScanRecord.mk.inj same
          obtain ⟨error, failed⟩ := unreachable own
          obtain ⟨file, readFile, -⟩ := ok_of_bind read
          obtain ⟨n, reached, -⟩ := ok_of_bind readFile
          rw [failed] at reached
          cases reached
  | getFingerprinted | get | clear => cases recorded

/-- A path that leads nowhere is looked up under a fingerprint of its own. What is found there was put by
a caller who held that fingerprint, or who set resources for the path when it led nowhere. A lookup misses
if this never happened, whatever was scanned. -/
theorem get_of_unreachable (history : History dir start events) (i : ι) {path : String}
    {error : FileError} (gone : (runEvents start events).tree.find path = .error error)
    (uncollided : PathUncollided start events path) :
    (∀ resources, (((runEvents start events).cache i).get (runEvents start events).tree path
        ((runEvents start events).tree.fingerprint path)).1 = some resources ↔
      ∃ before e after,
        LastRecord start events (.ofText path) ⟨path, .ofText path, resources⟩ before e after ∧
          e.PutsUnreachable (runEvents start before) path resources) ∧
    ((∀ before e after resources, events = before ++ e :: after →
        ¬ e.PutsUnreachable (runEvents start before) path resources) →
      ((runEvents start events).cache i).get (runEvents start events).tree path
          ((runEvents start events).tree.fingerprint path) =
        (none, { (runEvents start events).cache i with
          misses := ((runEvents start events).cache i).misses + 1 })) := by
  have own : (runEvents start events).tree.fingerprint path = .ofText path := by
    rw [fingerprint_eq, hashedText_eq_self_iff.mpr ⟨error, gone⟩]
  have found : ∀ resources,
      ((runEvents start events).cache i).lookup (runEvents start events).tree path
        ((runEvents start events).tree.fingerprint path) = some resources ↔
      ∃ before e after,
        LastRecord start events (.ofText path) ⟨path, .ofText path, resources⟩ before e after ∧
          e.PutsUnreachable (runEvents start before) path resources := by
    intro resources
    rw [own, history.lookup_iff i]
    constructor
    · rintro ⟨before, e, after, last⟩
      exact ⟨before, e, after, last, last.putsUnreachable rfl uncollided⟩
    · rintro ⟨before, e, after, last, -⟩
      exact ⟨before, e, after, last⟩
  refine ⟨fun resources => ?_, fun never => get_of_lookup ?_⟩
  · rw [get_fst]
    exact found resources
  · rw [Option.eq_none_iff_forall_ne_some]
    intro resources known
    obtain ⟨before, e, after, last, puts⟩ := (found resources).mp known
    exact never before e after resources last.split puts

/-- A cache of a directory in an empty tree. -/
def oneCache : Shared Unit where
  tree := {}
  cache := fun _ => { dir := "cache" }

/-- Resources are set for a path that leads nowhere. -/
def ghostHistory : List (Event Unit) := [.call () (.set "ci.py" [buildJob])]

theorem history_ghost : History "cache" oneCache ghostHistory where
  dirs _ := rfl
  inside := by decide +kernel
  distinct := Node.distinct_empty
  unrecorded := unrecorded_empty
  apart e member := by
    rw [List.mem_singleton.mp member]
    trivial
  storable := by
    rintro before e r earlier ⟨i, c, rfl, own, -⟩ resource inside
    have member : Event.call i c ∈ ghostHistory :=
      earlier.subset (List.mem_append_right _ List.mem_cons_self)
    obtain ⟨-, rfl⟩ := Event.call.inj (List.mem_singleton.mp member)
    cases own
    rw [List.mem_singleton.mp inside]
    exact ⟨by decide, by decide⟩

theorem hashedText_ghost {before : List (Event Unit)} (earlier : before <+: ghostHistory) :
    (runEvents oneCache before).tree.hashedText "ci.py" = "ci.py" := by
  simp only [ghostHistory, List.prefix_cons_iff, List.prefix_nil] at earlier
  obtain rfl | ⟨_, rfl, rfl⟩ := earlier
  · decide +kernel
  · decide +kernel

theorem lastRecord_ghost :
    LastRecord oneCache ghostHistory (.ofText "ci.py") ⟨"ci.py", .ofText "ci.py", [buildJob]⟩
      [] (.call () (.set "ci.py" [buildJob])) [] := by
  have own : (runEvents oneCache []).tree.fingerprint "ci.py" = .ofText "ci.py" := by
    rw [fingerprint_eq, hashedText_ghost List.nil_prefix]
  refine ⟨rfl, ⟨(), _, rfl, ?_, by decide +kernel⟩, rfl, fun middle other rest cut => ?_⟩
  · rw [← own]
    rfl
  · exact absurd cut.symm (List.append_ne_nil_of_right_ne_nil _ (List.cons_ne_nil _ _))

theorem get_of_unreachable_ghostHistory :
    History "cache" oneCache ghostHistory ∧ PathUncollided oneCache ghostHistory "ci.py" ∧
      (∃ error, (runEvents oneCache ghostHistory).tree.find "ci.py" = .error error) ∧
      (((runEvents oneCache ghostHistory).cache ()).get (runEvents oneCache ghostHistory).tree "ci.py"
        ((runEvents oneCache ghostHistory).tree.fingerprint "ci.py")).1 = some [buildJob] := by
  have uncollided : PathUncollided oneCache ghostHistory "ci.py" :=
    fun before earlier _ => hashedText_ghost earlier
  have missing := hashedText_eq_self_iff.mp (hashedText_ghost List.prefix_rfl)
  obtain ⟨error, gone⟩ := missing
  refine ⟨history_ghost, uncollided, ⟨error, gone⟩,
    ((get_of_unreachable history_ghost () gone uncollided).1 _).mpr ⟨_, _, _, lastRecord_ghost, ?_⟩⟩
  exact ⟨(), .inr ⟨rfl, hashedText_eq_self_iff.mp (hashedText_ghost List.nil_prefix)⟩⟩

end WorkflowAudit.DiscoveryCache
