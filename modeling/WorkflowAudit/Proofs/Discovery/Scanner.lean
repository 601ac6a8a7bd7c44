import WorkflowAudit.Discovery.Scanner
import WorkflowAudit.Proofs.Discovery.Cache

/-! # Scans with a cache

Records outlive the scans that wrote them: a later scan may come from a scanner with another package,
and the file may have changed in between. A record is found again when the file has the size and time
that it had then, so a scan finds what some scan of the same path found without the cache when the
file had its present size and time. That is what it finds itself if the package and the text were the
same.
-/

namespace WorkflowAudit

/-! ## Scans -/

namespace Discovery

/-- No resource names a dependency twice. -/
theorem nodup_dependencies_scanStep {package path moduleId : String} {lines : LineIndex}
    {state : ScanState} {stmt : Script.Stmt}
    (distinct : ∀ e ∈ state.found.entries, e.2.dependencies.Nodup) :
    ∀ e ∈ (scanStep package path moduleId lines state stmt).found.entries,
      e.2.dependencies.Nodup := by
  unfold scanStep
  repeat' split
  all_goals try exact distinct
  intro e inserted
  rcases OrderedMap.mem_entries_insert inserted with new | old
  · rw [new]
    exact nodup_dedupFirst _
  · exact distinct e (List.mem_of_mem_filter old)

theorem nodup_dependencies_scanModule (package path : String) (m : Script.Module) :
    ∀ r ∈ scanModule package path m, r.dependencies.Nodup := by
  intro r member
  obtain ⟨e, inside, rfl⟩ := List.mem_map.mp member
  refine List.foldlRecOn (motive := fun state : ScanState =>
    ∀ e ∈ state.found.entries, e.2.dependencies.Nodup) m.statements _
    (fun e none => absurd none List.not_mem_nil) (fun state distinct stmt _ => ?_) e inside
  exact nodup_dependencies_scanStep distinct

end Discovery

namespace Scanner

variable {s s' : Scanner} {path : String} {session session' : ScanSession}

/-- What a scan finds. -/
def warm (s : Scanner) (path : String) (session : ScanSession) : List Resource :=
  (s.scanFile path session).1

/-- What a scan finds when no cache is used. -/
def cold (s : Scanner) (path : String) (session : ScanSession) : List Resource :=
  (s.scanFile path { session with cache := none }).1

theorem scanUncached_fst (fingerprint : Option Fingerprint) :
    (s.scanUncached path fingerprint session).1 =
      match session.tree.readText path with
      | .error _ => []
      | .ok text => (s.scanText? path text).getD [] := by
  unfold scanUncached
  cases session.tree.readText path with
  | error e => rfl
  | ok text =>
      dsimp only
      cases s.scanText? path text <;> cases session.cache <;> cases fingerprint <;> rfl

theorem cold_eq (s : Scanner) (path : String) (session : ScanSession) :
    s.cold path session =
      match session.tree.readText path with
      | .error _ => []
      | .ok text => (s.scanText? path text).getD [] :=
  scanUncached_fst none

/-- Without a cache only the package and the text count. -/
theorem cold_congr (package : s'.package = s.package)
    (text : session'.tree.readText path = session.tree.readText path) :
    s'.cold path session' = s.cold path session := by
  rw [cold_eq, cold_eq, text]
  simp only [scanText?, package]

theorem nodup_dependencies_cold : ∀ r ∈ s.cold path session, r.dependencies.Nodup := by
  rw [cold_eq]
  split
  · exact fun r none => nomatch none
  · rename_i text _
    rw [scanText?]
    split
    · exact Discovery.nodup_dependencies_scanModule _ _ _
    · exact fun r none => nomatch none

/-- A scan finds what is recorded, or what it finds without the cache. -/
theorem warm_cases (s : Scanner) (path : String) (session : ScanSession) :
    (∃ cache, DiscoveryCache.lookup cache session.tree path (session.tree.fingerprint path) =
      some (s.warm path session)) ∨ s.warm path session = s.cold path session := by
  unfold warm scanFile
  cases used : session.cache with
  | none =>
      refine .inr ?_
      rw [cold_eq]
      exact scanUncached_fst none
  | some cache =>
      dsimp only
      unfold DiscoveryCache.get
      cases found : cache.lookup session.tree path (session.tree.fingerprint path) with
      | some resources => exact .inl ⟨cache, found⟩
      | none =>
          refine .inr ?_
          rw [cold_eq]
          exact scanUncached_fst _

theorem file_of_scanUncached {fingerprint : Option Fingerprint} {other : List String} {g : File}
    (found : (s.scanUncached path fingerprint session).2.tree.get? other = some (.file g)) :
    (∃ f, fingerprint = some f ∧ other.getLast? = some (DiscoveryCache.recordName f) ∧
      g.text? = some (ScanRecord.toDocument ⟨path, f, s.cold path session⟩)) ∨
    session.tree.get? other = some (.file g) := by
  rw [cold_eq]
  unfold scanUncached at found
  cases read : session.tree.readText path with
  | error e =>
      rw [read] at found
      exact .inr found
  | ok text =>
      rw [read] at found
      dsimp only at found ⊢
      cases scanned : s.scanText? path text with
      | none =>
          rw [scanned] at found
          exact .inr found
      | some resources =>
          rw [scanned] at found
          cases used : session.cache with
          | none =>
              rw [used] at found
              exact .inr found
          | some cache =>
              rw [used] at found
              cases fingerprint with
              | none => exact .inr found
              | some f =>
                  refine (DiscoveryCache.file_of_put found).imp_left ?_
                  exact fun record => ⟨f, rfl, record⟩

/-- A file that is found after a scan is a record of what the scan finds without the cache, or was
there before. -/
theorem file_of_scanFile {other : List String} {g : File}
    (found : (s.scanFile path session).2.tree.get? other = some (.file g)) :
    (other.getLast? = some (DiscoveryCache.recordName (session.tree.fingerprint path)) ∧
      g.text? = some (ScanRecord.toDocument
        ⟨path, session.tree.fingerprint path, s.cold path session⟩)) ∨
    session.tree.get? other = some (.file g) := by
  unfold scanFile at found
  cases used : session.cache with
  | none =>
      rw [used] at found
      rcases file_of_scanUncached found with ⟨f, none, -⟩ | before
      · cases none
      · exact .inr before
  | some cache =>
      rw [used] at found
      dsimp only at found
      cases looked : cache.get session.tree path (session.tree.fingerprint path) with
      | mk answer cache =>
          rw [looked] at found
          cases answer with
          | some resources => exact .inr found
          | none =>
              refine (file_of_scanUncached found).imp_left ?_
              rintro ⟨f, same, record⟩
              rw [Option.some.inj same]
              rwa [cold_eq] at record ⊢

/-! ## Histories -/

/-- What happens to files and a cache that scanners share. -/
inductive Event where
  | scan (s : Scanner) (path : String)
  | rewrite (path : String) (f : File)

/-- The session after an event. A file that cannot be written stays as it is. -/
def Event.apply (session : ScanSession) : Event → ScanSession
  | .scan s path => (s.scanFile path session).2
  | .rewrite path f =>
    match session.tree.write path f with
    | .ok tree => { session with tree }
    | .error _ => session

def run (start : ScanSession) (events : List Event) : ScanSession := events.foldl Event.apply start

variable {start : ScanSession} {events : List Event}

/-- A scan in a history, when the path had a fingerprint, that finds resources without the cache. -/
def Found (start : ScanSession) (events : List Event) (path : String) (f : Fingerprint)
    (resources : List Resource) : Prop :=
  ∃ before s, before ++ [.scan s path] <+: events ∧ (run start before).tree.fingerprint path = f ∧
    s.cold path (run start before) = resources

/-- Every record in a tree says what a scan in the history found. -/
def Recorded (start : ScanSession) (events : List Event) (t : FileTree) : Prop :=
  ∀ place file f text r, t.get? place = some (.file file) →
    place.getLast? = some (DiscoveryCache.recordName f) → file.text? = some text →
    ScanRecord.ofDocument? text = some r → r.fingerprint = f →
    Found start events r.filePath f r.resources

theorem run_concat (start : ScanSession) (events : List Event) (e : Event) :
    run start (events ++ [e]) = e.apply (run start events) :=
  List.foldl_append

theorem Found.concat {f : Fingerprint} {resources : List Resource} (e : Event)
    (found : Found start events path f resources) :
    Found start (events ++ [e]) path f resources := by
  obtain ⟨before, s, earlier, rest⟩ := found
  exact ⟨before, s, earlier.trans (List.prefix_append _ _), rest⟩

/-- One event: a scan adds a record of its own, a file that is no record adds none. -/
theorem recorded_apply {e : Event} (recorded : Recorded start events (run start events).tree)
    (apart : ∀ target file f, e = .rewrite target file →
      (FileTree.parts target).getLast? ≠ some (DiscoveryCache.recordName f)) :
    Recorded start (events ++ [e]) (e.apply (run start events)).tree := by
  intro place file f text r here name content decoded mine
  have older : (run start events).tree.get? place = some (.file file) →
      Found start (events ++ [e]) r.filePath f r.resources :=
    fun before => (recorded place file f text r before name content decoded mine).concat e
  cases e with
  | scan s path =>
      rcases file_of_scanFile here with ⟨-, record⟩ | before
      · rw [content] at record
        rw [Option.some.inj record] at decoded
        obtain rfl := ScanRecord.eq_of_ofDocument? nodup_dependencies_cold decoded
        exact ⟨events, s, List.prefix_rfl, mine, rfl⟩
      · exact older before
  | rewrite target new =>
      rw [Event.apply] at here
      split at here
      · rename_i written
        rcases FileTree.file_of_write written here with ⟨same, -⟩ | before
        · exact absurd (same.symm.trans name) (apart target new f rfl)
        · exact older before
      · exact older here

/-- No file has the name of a record. -/
def Unrecorded (t : FileTree) : Prop :=
  ∀ place file f, t.get? place = some (.file file) →
    place.getLast? ≠ some (DiscoveryCache.recordName f)

/-- No file is written under the name of a record. -/
def SparesRecords (events : List Event) : Prop :=
  ∀ target file f, .rewrite target file ∈ events →
    (FileTree.parts target).getLast? ≠ some (DiscoveryCache.recordName f)

/-- What was hashed for a path before and has the hash of what is hashed now is the same text. -/
def NoCollision (start : ScanSession) (events : List Event) (path : String) : Prop :=
  ∀ before, before <+: events →
    Fingerprint.ofText ((run start before).tree.hashedText path) =
      .ofText ((run start events).tree.hashedText path) →
    (run start before).tree.hashedText path = (run start events).tree.hashedText path

theorem recorded_run (unrecorded : Unrecorded start.tree) (spares : SparesRecords events) :
    Recorded start events (run start events).tree := by
  induction events using List.reverseRecOn with
  | nil =>
      intro place file f text r here name
      exact absurd name (unrecorded place file f here)
  | append_singleton events e ih =>
      rw [run_concat]
      refine recorded_apply (ih fun target file f member => ?_) ?_
      · exact spares target file f (List.mem_append_left _ member)
      · rintro target file f rfl
        exact spares target file f (List.mem_append_right _ List.mem_cons_self)

/-- A scan with the cache finds what a scan of the same path, now or before, found without it when the
path had its present time and size. So it finds what it would find without the cache if those scans had
its package and its text. -/
theorem warm_eq_cold_of_same_stamp (s : Scanner) (path : String)
    (unrecorded : Unrecorded start.tree) (spares : SparesRecords events)
    (apart : NoCollision start events path) :
    (∃ before s', before ++ [.scan s' path] <+: events ++ [.scan s path] ∧
      (run start before).tree.stamp? path = (run start events).tree.stamp? path ∧
      s.warm path (run start events) = s'.cold path (run start before)) ∧
    ((∀ before s', before ++ [.scan s' path] <+: events →
        (run start before).tree.stamp? path = (run start events).tree.stamp? path →
        s'.package = s.package ∧
          (run start before).tree.readText path = (run start events).tree.readText path) →
      s.warm path (run start events) = s.cold path (run start events)) := by
  have answer : s.warm path (run start events) = s.cold path (run start events) ∨
      ∃ before s', before ++ [.scan s' path] <+: events ∧
        (run start before).tree.stamp? path = (run start events).tree.stamp? path ∧
        s.warm path (run start events) = s'.cold path (run start before) := by
    rcases warm_cases s path (run start events) with ⟨cache, found⟩ | same
    · obtain ⟨place, file, text, here, name, content, decoded⟩ :=
        DiscoveryCache.exists_record_of_lookup found
      obtain ⟨before, s', earlier, hash, found⟩ :=
        recorded_run unrecorded spares place file _ text _ here name content decoded rfl
      rw [FileTree.fingerprint_eq, FileTree.fingerprint_eq] at hash
      have hashed := apart before ((List.prefix_append _ _).trans earlier) hash
      exact .inr ⟨before, s', earlier, FileTree.hashedText_eq_iff.mp hashed, found.symm⟩
    · exact .inl same
  constructor
  · rcases answer with same | ⟨before, s', earlier, rest⟩
    · exact ⟨events, s, List.prefix_rfl, rfl, same⟩
    · exact ⟨before, s', earlier.trans (List.prefix_append _ _), rest⟩
  · intro steady
    rcases answer with same | ⟨before, s', earlier, stamp, same⟩
    · exact same
    · obtain ⟨package, text⟩ := steady before s' earlier stamp
      rw [same, cold_congr package text]

/-- A file that is neither scanned nor recorded so far. -/
def freshSession : ScanSession where
  tree := { entries := [("ci.py", .file (.ofText "x = Workflow()\n" 1))] }
  cache := some { dir := "cache" }

/-- The file is written again and then scanned. -/
def rewriteHistory : List Event :=
  [.rewrite "ci.py" (.ofText "build = Job()\n" 2), .scan {} "ci.py"]

theorem warm_eq_cold_of_same_stamp_rewriteHistory :
    Unrecorded freshSession.tree ∧ SparesRecords rewriteHistory ∧
    NoCollision freshSession rewriteHistory "ci.py" ∧
    warm {} "ci.py" (run freshSession rewriteHistory) =
      cold {} "ci.py" (run freshSession rewriteHistory) := by
  have differs : ∀ f, "ci.py" ≠ DiscoveryCache.recordName f := by
    intro f same
    have ends := congrArg (List.getLast? ∘ String.toList) same
    simp [DiscoveryCache.toList_recordName] at ends
  have unrecorded : Unrecorded freshSession.tree := by
    rintro (_ | ⟨first, rest⟩) file f here last
    · cases here
    · by_cases known : first = "ci.py"
      · subst known
        cases rest with
        | nil => exact differs f (Option.some.inj last)
        | cons next rest => cases here
      · have missing : freshSession.tree.entries.lookup first = none := by
          simp [freshSession, List.lookup_cons, beq_false_of_ne known]
        simp [FileTree.get?, FileTree.top, Node.get?, missing] at here
  have spares : SparesRecords rewriteHistory := by
    intro target file f member
    have name : (FileTree.parts "ci.py").getLast? = some "ci.py" := by decide +kernel
    obtain ⟨rfl, -⟩ : target = "ci.py" ∧ file = .ofText "build = Job()\n" 2 := by
      simpa [rewriteHistory] using member
    rw [name]
    exact fun same => differs f (Option.some.inj same)
  obtain ⟨first, second, last, text, textLast⟩ :
      (run freshSession []).tree.stamp? "ci.py" = some (1, 15) ∧
      (run freshSession [rewriteHistory[0]]).tree.stamp? "ci.py" = some (2, 14) ∧
      (run freshSession rewriteHistory).tree.stamp? "ci.py" = some (2, 14) ∧
      (run freshSession [rewriteHistory[0]]).tree.readText "ci.py" = .ok "build = Job()\n" ∧
      (run freshSession rewriteHistory).tree.readText "ci.py" = .ok "build = Job()\n" := by
    decide +kernel
  have apart : NoCollision freshSession rewriteHistory "ci.py" := by
    have hashes : Fingerprint.ofText (Fingerprint.fileKey "ci.py" 1 15) ≠
        .ofText (Fingerprint.fileKey "ci.py" 2 14) := by decide +kernel
    intro before earlier same
    simp only [rewriteHistory, List.prefix_cons_iff, List.prefix_nil] at earlier
    obtain rfl | ⟨_, rfl, rfl | ⟨_, rfl, rfl⟩⟩ := earlier
    · simp only [FileTree.hashedText, first, last] at same
      exact absurd same hashes
    · exact FileTree.hashedText_eq_iff.mpr (second.trans last.symm)
    · rfl
  refine ⟨unrecorded, spares, apart,
    (warm_eq_cold_of_same_stamp {} "ci.py" unrecorded spares apart).2 fun before s' earlier _ => ?_⟩
  simp only [rewriteHistory, List.prefix_cons_iff, List.prefix_nil] at earlier
  obtain none | ⟨_, same, rfl | ⟨_, rfl, rfl⟩⟩ := earlier
  · exact absurd none (List.append_ne_nil_of_right_ne_nil _ (List.cons_ne_nil _ _))
  · have final := congrArg List.getLast? same
    simp at final
  · have cut : before ++ [.scan s' "ci.py"] = [_] ++ [.scan {} "ci.py"] := same
    obtain ⟨rfl, scan⟩ := List.append_inj' cut rfl
    cases scan
    exact ⟨rfl, text.trans textLast.symm⟩

end Scanner

end WorkflowAudit
