import WorkflowAudit.Proofs.Discovery.Scanner
import WorkflowAudit.Proofs.Discovery.Store

/-! # Calls of caches

Any number of caches may use one directory, and files come and go in between. An event records under one
fingerprint, or it clears the directory, or it leaves all records as they are.
-/

namespace WorkflowAudit.DiscoveryCache

open FileTree

/-! ## Events -/

/-- What a program may ask of a cache. -/
inductive Call where
  | put (path : String) (f : Fingerprint) (resources : List Resource)
  /-- A put under the fingerprint that the path has. -/
  | set (path : String) (resources : List Resource)
  | getFingerprinted (path : String) (f : Fingerprint)
  | get (path : String)
  | scan (s : Scanner) (path : String)
  | clear

def Call.apply (c : DiscoveryCache) (t : FileTree) : Call → FileTree × DiscoveryCache
  | .put path f resources => c.put t path f resources
  | .set path resources => c.put t path (t.fingerprint path) resources
  | .getFingerprinted path f => (t, (c.get t path f).2)
  | .get path => (t, (c.get t path (t.fingerprint path)).2)
  | .scan s path =>
    let session := (s.scanFile path { tree := t, cache := some c }).2
    (session.tree, session.cache.getD c)
  | .clear => ((c.clear t).1, c)

/-- The record that a call tries to write. A scan has one if nothing is recorded for its file. -/
def Call.record? (c : DiscoveryCache) (t : FileTree) : Call → Option ScanRecord
  | .put path f resources => some ⟨path, f, resources⟩
  | .set path resources => some ⟨path, t.fingerprint path, resources⟩
  | .scan s path =>
    match c.lookup t path (t.fingerprint path) with
    | some _ => none
    | none =>
      match t.readText path with
      | .error _ => none
      | .ok text =>
        (s.scanText? path text).map fun resources => ⟨path, t.fingerprint path, resources⟩
  | .getFingerprinted _ _ | .get _ | .clear => none

/-- Files and the caches that are used on them. -/
structure Shared (ι : Type) where
  tree : FileTree
  cache : ι → DiscoveryCache

/-- What happens to files and caches. -/
inductive Event (ι : Type) where
  | call (i : ι) (c : Call)
  | write (path : String) (file : File)
  | remove (path : String)
  | makeDirectory (path : String)

variable {ι : Type} [DecidableEq ι]

/-- What an event leaves. A file that cannot be written or removed stays as it is. -/
def Event.apply (shared : Shared ι) : Event ι → Shared ι
  | .call i c =>
    let (tree, cache) := c.apply (shared.cache i) shared.tree
    { tree, cache := Function.update shared.cache i cache }
  | .write path file =>
    match shared.tree.write path file with
    | .ok tree => { shared with tree }
    | .error _ => shared
  | .remove path =>
    match shared.tree.remove path with
    | .ok tree => { shared with tree }
    | .error _ => shared
  | .makeDirectory path => { shared with tree := (shared.tree.makeDirectory path).1 }

def runEvents (start : Shared ι) (events : List (Event ι)) : Shared ι :=
  events.foldl Event.apply start

/-- A call that writes a record, which is counted. -/
def Event.Records (shared : Shared ι) (e : Event ι) (r : ScanRecord) : Prop :=
  ∃ i c, e = .call i c ∧ c.record? (shared.cache i) shared.tree = some r ∧
    (shared.cache i).writes < ((e.apply shared).cache i).writes

/-- A call that clears the directory. A directory without a name is not cleared. -/
def Event.Clears (shared : Shared ι) (e : Event ι) : Prop :=
  ∃ i, e = .call i .clear ∧ (shared.cache i).dir ≠ ""

/-- An event after which nothing that was recorded before is left under a fingerprint. -/
def Event.Replaces (shared : Shared ι) (e : Event ι) (f : Fingerprint) : Prop :=
  e.Clears shared ∨ ∃ r, e.Records shared r ∧ r.fingerprint = f

/-- No record is written or removed by anything but a cache. -/
def Event.Apart (dir : String) : Event ι → Prop
  | .write path _ | .remove path => ∀ f, destination path ≠ recordPlace dir f
  | .call _ _ | .makeDirectory _ => True

variable {dir path : String} {shared start : Shared ι} {events : List (Event ι)} {e : Event ι}
  {f : Fingerprint} {r : ScanRecord} {resources : List Resource}

theorem runEvents_concat (start : Shared ι) (events : List (Event ι)) (e : Event ι) :
    runEvents start (events ++ [e]) = e.apply (runEvents start events) := by
  simp only [runEvents, List.foldl_append, List.foldl_cons, List.foldl_nil]

/-! ## One event -/

/-- What a call does: it clears, or it leaves the tree alone, or it puts its record. -/
theorem Call.apply_cases (c : DiscoveryCache) (t : FileTree) (call : Call) :
    (call = .clear ∧ call.apply c t = ((c.clear t).1, c)) ∨
    ∃ c' : DiscoveryCache, c'.dir = c.dir ∧ c'.writes = c.writes ∧
      ((call.record? c t = none ∧ call.apply c t = (t, c')) ∨
        ∃ r, call.record? c t = some r ∧
          call.apply c t = c'.put t r.filePath r.fingerprint r.resources) := by
  have looked : ∀ path f, (c.get t path f).2.dir = c.dir ∧ (c.get t path f).2.writes = c.writes := by
    intro path f
    unfold DiscoveryCache.get
    split <;> exact ⟨rfl, rfl⟩
  cases call with
  | put path f resources => exact .inr ⟨c, rfl, rfl, .inr ⟨_, rfl, rfl⟩⟩
  | set path resources => exact .inr ⟨c, rfl, rfl, .inr ⟨_, rfl, rfl⟩⟩
  | getFingerprinted path f =>
      exact .inr ⟨_, (looked path f).1, (looked path f).2, .inl ⟨rfl, rfl⟩⟩
  | get path => exact .inr ⟨_, (looked path _).1, (looked path _).2, .inl ⟨rfl, rfl⟩⟩
  | scan s path =>
      unfold Call.apply Call.record? Scanner.scanFile DiscoveryCache.get
      dsimp only
      cases c.lookup t path (t.fingerprint path) with
      | some resources => exact .inr ⟨{ c with hits := c.hits + 1 }, rfl, rfl, .inl ⟨rfl, rfl⟩⟩
      | none =>
          refine .inr ⟨{ c with misses := c.misses + 1 }, rfl, rfl, ?_⟩
          unfold Scanner.scanUncached
          dsimp only
          cases t.readText path with
          | error e => exact .inl ⟨rfl, rfl⟩
          | ok text =>
              dsimp only
              cases s.scanText? path text with
              | none => exact .inl ⟨rfl, rfl⟩
              | some resources =>
                  refine .inr ⟨⟨path, t.fingerprint path, resources⟩, rfl, ?_⟩
                  dsimp only
                  generalize DiscoveryCache.put _ t path (t.fingerprint path) resources = saved
                  cases saved
                  rfl
  | clear => exact .inl ⟨rfl, rfl⟩

theorem Event.Records.fingerprint {r' : ScanRecord} (records : e.Records shared r)
    (again : e.Records shared r') : r' = r := by
  obtain ⟨i, c, rfl, own, -⟩ := records
  obtain ⟨j, d, same, other, -⟩ := again
  obtain ⟨rfl, rfl⟩ := Event.call.inj same
  exact Option.some.inj (other.symm.trans own)

theorem Event.Records.not_clears (records : e.Records shared r) : ¬ e.Clears shared := by
  rintro ⟨i, rfl, -⟩
  obtain ⟨j, c, same, own, -⟩ := records
  obtain ⟨rfl, rfl⟩ := Event.call.inj same
  cases own

/-- Every cache goes on using its directory. -/
theorem dir_apply (e : Event ι) (i : ι) :
    ((e.apply shared).cache i).dir = (shared.cache i).dir := by
  cases e with
  | call j c =>
      by_cases same : i = j
      · subst same
        simp only [Event.apply, Function.update_self]
        rcases Call.apply_cases (shared.cache i) shared.tree c with
          ⟨-, applied⟩ | ⟨c', dir, -, ⟨-, applied⟩ | ⟨r, -, applied⟩⟩
        · rw [applied]
        · rw [applied]
          exact dir
        · rw [applied, dir_put]
          exact dir
      · simp only [Event.apply, Function.update_of_ne same]
  | write path file =>
      rw [Event.apply]
      split <;> rfl
  | remove path =>
      rw [Event.apply]
      split <;> rfl
  | makeDirectory path => rfl

theorem distinct_apply (distinct : shared.tree.top.Distinct) (e : Event ι) :
    (e.apply shared).tree.top.Distinct := by
  cases e with
  | call i c =>
      simp only [Event.apply]
      rcases Call.apply_cases (shared.cache i) shared.tree c with
        ⟨-, applied⟩ | ⟨c', -, -, ⟨-, applied⟩ | ⟨r, -, applied⟩⟩
      · rw [applied]
        exact distinct_clear distinct
      · rwa [applied]
      · rw [applied]
        exact (spares_put _ _ _ _ _).2 distinct
  | write path file =>
      rw [Event.apply]
      split
      · rename_i written
        exact (spares_write written).2 distinct
      · exact distinct
  | remove path =>
      rw [Event.apply]
      split
      · rename_i removed
        exact (spares_remove distinct removed).2.2
      · exact distinct
  | makeDirectory path => exact (spares_makeDirectory rfl).2 distinct

/-- What is recorded is kept. -/
theorem Event.Records.keeps (inside : Inside (destination dir))
    (dirs : ∀ i, (shared.cache i).dir = dir) (records : e.Records shared r) :
    Keeps dir (e.apply shared).tree r.fingerprint (some r) := by
  obtain ⟨i, c, rfl, own, counted⟩ := records
  simp only [Event.apply, Function.update_self] at counted ⊢
  rcases Call.apply_cases (shared.cache i) shared.tree c with
    ⟨rfl, -⟩ | ⟨c', same, writes, ⟨none, -⟩ | ⟨s, some, applied⟩⟩
  · cases own
  · rw [own] at none
    cases none
  · obtain rfl := Option.some.inj (own.symm.trans some)
    rw [applied] at counted ⊢
    rw [← writes] at counted
    rw [← dirs i, ← same] at inside ⊢
    exact keeps_put inside counted

/-- What is not replaced goes on being kept. -/
theorem Keeps.apply {kept : Option ScanRecord} (keeps : Keeps dir shared.tree f kept)
    (dirs : ∀ i, (shared.cache i).dir = dir) (distinct : shared.tree.top.Distinct)
    (apart : e.Apart dir) (stays : ¬ e.Replaces shared f) :
    Keeps dir (e.apply shared).tree f kept := by
  cases e with
  | call i c =>
      rcases Call.apply_cases (shared.cache i) shared.tree c with
        ⟨rfl, applied⟩ | ⟨c', same, writes, ⟨-, applied⟩ | ⟨r, own, applied⟩⟩
      · have unnamed : (shared.cache i).dir = "" := by
          by_contra named
          exact stays (.inl ⟨i, rfl, named⟩)
        simp only [Event.apply, applied, clear_of_unnamed unnamed]
        exact keeps
      · simp only [Event.apply, applied]
        exact keeps
      · have counted : (Event.apply shared (.call i c)).cache i =
            (c'.put shared.tree r.filePath r.fingerprint r.resources).2 := by
          simp only [Event.apply, applied, Function.update_self]
        simp only [Event.apply, applied]
        refine keeps.of_spares (spares_put _ _ _ _ _).1 ?_
        rintro ⟨written, place⟩
        rw [same, dirs i] at place
        refine stays (.inr ⟨r, ⟨i, c, rfl, own, ?_⟩, (recordPlace_injective place).symm⟩)
        rwa [counted, ← writes]
  | write path file =>
      rw [Event.apply]
      split
      · rename_i written
        exact keeps.of_spares (spares_write written).1 fun same => apart f same.symm
      · exact keeps
  | remove path =>
      rw [Event.apply]
      split
      · rename_i removed
        exact keeps.of_spares (spares_remove distinct removed).1 fun same => apart f same.symm
      · exact keeps
  | makeDirectory path => exact keeps.of_spares (spares_makeDirectory rfl).1 id

/-- Nothing is kept when the directory was cleared. -/
theorem Event.Clears.keeps {kept : Option ScanRecord} (keeps : Keeps dir shared.tree f kept)
    (dirs : ∀ i, (shared.cache i).dir = dir) (distinct : shared.tree.top.Distinct)
    (clears : e.Clears shared) : Keeps dir (e.apply shared).tree f none := by
  obtain ⟨i, rfl, named⟩ := clears
  rw [← dirs i] at keeps ⊢
  exact keeps_clear distinct named keeps

end WorkflowAudit.DiscoveryCache
