import WorkflowAudit.Proofs.Discovery.Scanner
import WorkflowAudit.Proofs.Discovery.Store

/-! # Steps of a scan

A scan with a cache takes a fingerprint, looks it up, reads the file and records what it found. Other
scans of the file and rewrites of it may come in between. If nothing does, the steps are the scan.
-/

namespace WorkflowAudit.Scanner

open FileTree DiscoveryCache

/-! ## Steps of a scan -/

/-- How far a scan has come. -/
inductive Progress where
  | waiting
  /-- The fingerprint was taken. -/
  | stamped (f : Fingerprint)
  /-- Nothing was recorded under it. -/
  | missed (f : Fingerprint)
  /-- The file was read and scanned. -/
  | scanned (f : Fingerprint) (resources : List Resource)
  | finished (resources : List Resource)
deriving DecidableEq

/-- After the first step of a scan and before its last one. -/
def Progress.UnderWay : Progress → Prop
  | .stamped _ | .missed _ | .scanned _ _ => True
  | .waiting | .finished _ => False

/-- The next step of a scan. -/
def Progress.next (s : Scanner) (path : String) (t : FileTree) (c : DiscoveryCache) :
    Progress → Progress × FileTree × DiscoveryCache
  | .waiting => (.stamped (t.fingerprint path), t, c)
  | .stamped f =>
    match c.get t path f with
    | (some resources, c) => (.finished resources, t, c)
    | (none, c) => (.missed f, t, c)
  | .missed f =>
    match t.readText path with
    | .error _ => (.finished [], t, c)
    | .ok text =>
      match s.scanText? path text with
      | some resources => (.scanned f resources, t, c)
      | none => (.finished [], t, c)
  | .scanned f resources => (.finished resources, c.put t path f resources)
  | .finished resources => (.finished resources, t, c)

/-- A tree, a cache, and the scans that use them. -/
structure Scene (ι : Type) where
  tree : FileTree
  cache : DiscoveryCache
  progress : ι → Progress

inductive Action (ι : Type) where
  | advance (i : ι)
  | rewrite (file : File)

variable {ι : Type} [DecidableEq ι]

/-- What an action leaves. A file that cannot be written stays as it is. -/
def Action.apply (s : Scanner) (path : String) (scene : Scene ι) : Action ι → Scene ι
  | .advance i =>
    let (progress, tree, cache) := (scene.progress i).next s path scene.tree scene.cache
    { tree, cache, progress := Function.update scene.progress i progress }
  | .rewrite file =>
    match scene.tree.write path file with
    | .ok tree => { scene with tree }
    | .error _ => scene

def runActions (s : Scanner) (path : String) (start : Scene ι) (actions : List (Action ι)) : Scene ι :=
  actions.foldl (Action.apply s path) start

variable {s : Scanner} {path : String} {scene start : Scene ι} {actions : List (Action ι)}
  {a : Action ι} {i : ι} {f : Fingerprint} {resources : List Resource}

theorem runActions_concat (s : Scanner) (path : String) (start : Scene ι) (actions : List (Action ι))
    (a : Action ι) :
    runActions s path start (actions ++ [a]) = a.apply s path (runActions s path start actions) := by
  simp only [runActions, List.foldl_append, List.foldl_cons, List.foldl_nil]

/-! ## What a step does -/

/-- A lookup ends a scan if it hits. -/
theorem next_stamped (s : Scanner) (path : String) (t : FileTree) (c : DiscoveryCache)
    (f : Fingerprint) :
    (∃ resources c', c.get t path f = (some resources, c') ∧
      (Progress.stamped f).next s path t c = (.finished resources, t, c')) ∨
    ∃ c', c.get t path f = (none, c') ∧
      (Progress.stamped f).next s path t c = (.missed f, t, c') := by
  unfold Progress.next
  dsimp only
  split
  · rename_i resources c' looked
    exact .inl ⟨resources, c', looked, rfl⟩
  · rename_i c' looked
    exact .inr ⟨c', looked, rfl⟩

/-- A file that cannot be read or does not parse ends a scan. -/
theorem next_missed (s : Scanner) (path : String) (t : FileTree) (c : DiscoveryCache)
    (f : Fingerprint) :
    (∃ e, t.readText path = .error e ∧
      (Progress.missed f).next s path t c = (.finished [], t, c)) ∨
    (∃ text, t.readText path = .ok text ∧ s.scanText? path text = none ∧
      (Progress.missed f).next s path t c = (.finished [], t, c)) ∨
    ∃ text resources, t.readText path = .ok text ∧ s.scanText? path text = some resources ∧
      (Progress.missed f).next s path t c = (.scanned f resources, t, c) := by
  unfold Progress.next
  dsimp only
  split
  · rename_i e unread
    exact .inl ⟨e, unread, rfl⟩
  · rename_i text readable
    split
    · rename_i resources scanned
      exact .inr (.inr ⟨text, resources, readable, scanned, rfl⟩)
    · rename_i scanned
      exact .inr (.inl ⟨text, readable, scanned, rfl⟩)

/-- A step leaves the tree alone, or it puts what was scanned. -/
theorem next_cases (s : Scanner) (path : String) (progress : Progress) (t : FileTree)
    (c : DiscoveryCache) :
    (progress.next s path t c).2.2.dir = c.dir ∧
      ((progress.next s path t c).2.1 = t ∨ ∃ f resources, progress = .scanned f resources ∧
        (progress.next s path t c).2.1 = (c.put t path f resources).1) := by
  cases progress with
  | waiting => exact ⟨rfl, .inl rfl⟩
  | stamped f =>
      have dir := dir_get c t path f
      rcases next_stamped s path t c f with ⟨resources, c', looked, next⟩ | ⟨c', looked, next⟩
      · rw [looked] at dir
        rw [next]
        exact ⟨dir, .inl rfl⟩
      · rw [looked] at dir
        rw [next]
        exact ⟨dir, .inl rfl⟩
  | missed f =>
      rcases next_missed s path t c f with
        ⟨e, -, next⟩ | ⟨text, -, -, next⟩ | ⟨text, resources, -, -, next⟩ <;> rw [next]
      · exact ⟨rfl, .inl rfl⟩
      · exact ⟨rfl, .inl rfl⟩
      · exact ⟨rfl, .inl rfl⟩
  | scanned f resources => exact ⟨dir_put c t path f resources, .inr ⟨f, resources, rfl, rfl⟩⟩
  | finished resources => exact ⟨rfl, .inl rfl⟩

/-! ## A scan alone -/

/-- The next step of a scan that has a tree and a cache for itself. -/
def stepAlone (s : Scanner) (path : String) (state : Progress × FileTree × DiscoveryCache) :
    Progress × FileTree × DiscoveryCache := state.1.next s path state.2.1 state.2.2

theorem runActions_replicate (n : Nat) :
    runActions s path scene (List.replicate n (.advance i)) =
      let state := (stepAlone s path)^[n] (scene.progress i, scene.tree, scene.cache)
      { tree := state.2.1, cache := state.2.2,
        progress := Function.update scene.progress i state.1 } := by
  induction n generalizing scene with
  | zero => simp [runActions]
  | succ n ih =>
      rw [List.replicate_succ, runActions, List.foldl_cons]
      refine ih.trans ?_
      simp only [Action.apply, Function.update_self, Function.update_idem, Prod.mk.eta,
        Function.iterate_succ_apply, stepAlone]

/-- A scan that returned takes no more steps. -/
theorem iterate_finished (n : Nat) (t : FileTree) (c : DiscoveryCache) :
    (stepAlone s path)^[n] (.finished resources, t, c) = (.finished resources, t, c) :=
  Function.iterate_fixed rfl n

/-- Reading and recording are the last two steps. -/
theorem iterate_eq_scanUncached (s : Scanner) (path : String) (t : FileTree) (c : DiscoveryCache)
    (f : Fingerprint) :
    ∃ c', (s.scanUncached path (some f) { tree := t, cache := some c }).2.cache = some c' ∧
      (stepAlone s path)^[2] (.missed f, t, c) =
        (.finished (s.scanUncached path (some f) { tree := t, cache := some c }).1,
          (s.scanUncached path (some f) { tree := t, cache := some c }).2.tree, c') := by
  rw [Function.iterate_succ_apply, stepAlone]
  rcases next_missed s path t c f with ⟨e, unread, next⟩ | ⟨text, readable, unparsed, next⟩ |
    ⟨text, resources, readable, scanned, next⟩
  · refine ⟨c, ?_⟩
    rw [next, iterate_finished]
    simp only [scanUncached, unread, and_self]
  · refine ⟨c, ?_⟩
    rw [next, iterate_finished]
    simp only [scanUncached, readable, unparsed, and_self]
  · refine ⟨(c.put t path f resources).2, ?_⟩
    have last : stepAlone s path (.scanned f resources, t, c) =
        (.finished resources, c.put t path f resources) := rfl
    rw [next, Function.iterate_succ_apply, last, iterate_finished]
    simp only [scanUncached, readable, scanned, and_self]

/-- Four steps are a scan. -/
theorem iterate_eq_scanFile (s : Scanner) (path : String) (t : FileTree) (c : DiscoveryCache) :
    ∃ c', (s.scanFile path { tree := t, cache := some c }).2.cache = some c' ∧
      (stepAlone s path)^[4] (.waiting, t, c) =
        (.finished (s.scanFile path { tree := t, cache := some c }).1,
          (s.scanFile path { tree := t, cache := some c }).2.tree, c') := by
  have first : stepAlone s path (.waiting, t, c) = (.stamped (t.fingerprint path), t, c) := rfl
  rw [Function.iterate_succ_apply, first, Function.iterate_succ_apply, stepAlone]
  unfold scanFile
  dsimp only
  rcases next_stamped s path t c (t.fingerprint path) with
    ⟨resources, c', looked, next⟩ | ⟨c', looked, next⟩
  · rw [next, looked, iterate_finished]
    exact ⟨c', rfl, rfl⟩
  · rw [next, looked]
    exact iterate_eq_scanUncached s path t c' _

/-- Four steps of a scan are what a scan does, if nothing comes between them. -/
theorem runActions_alone (waiting : scene.progress i = .waiting) :
    ∃ c, (s.scanFile path { tree := scene.tree, cache := some scene.cache }).2.cache = some c ∧
      runActions s path scene (List.replicate 4 (.advance i)) =
        { tree := (s.scanFile path { tree := scene.tree, cache := some scene.cache }).2.tree
          cache := c
          progress := Function.update scene.progress i
            (.finished (s.scanFile path { tree := scene.tree, cache := some scene.cache }).1) } := by
  obtain ⟨c, cache, steps⟩ := iterate_eq_scanFile s path scene.tree scene.cache
  refine ⟨c, cache, ?_⟩
  rw [runActions_replicate, waiting, steps]

/-! ## One action -/

theorem progress_advance (s : Scanner) (path : String) (scene : Scene ι) (i : ι) :
    ((Action.advance i).apply s path scene).progress i =
      ((scene.progress i).next s path scene.tree scene.cache).1 :=
  Function.update_self i _ _

theorem tree_advance (s : Scanner) (path : String) (scene : Scene ι) (i : ι) :
    ((Action.advance i).apply s path scene).tree =
      ((scene.progress i).next s path scene.tree scene.cache).2.1 := rfl

theorem cache_advance (s : Scanner) (path : String) (scene : Scene ι) (i : ι) :
    ((Action.advance i).apply s path scene).cache =
      ((scene.progress i).next s path scene.tree scene.cache).2.2 := rfl

theorem progress_of_ne (other : a ≠ .advance i) :
    (a.apply s path scene).progress i = scene.progress i := by
  cases a with
  | advance j => exact Function.update_of_ne (fun same => other (by rw [same])) _ _
  | rewrite file =>
      rw [Action.apply]
      split <;> rfl

theorem dir_apply (a : Action ι) : (a.apply s path scene).cache.dir = scene.cache.dir := by
  cases a with
  | advance i =>
      rw [cache_advance]
      exact (next_cases s path _ _ _).1
  | rewrite file =>
      rw [Action.apply]
      split <;> rfl

/-- The cache goes on using its directory. -/
theorem dir_runActions (s : Scanner) (path : String) (start : Scene ι) (actions : List (Action ι)) :
    (runActions s path start actions).cache.dir = start.cache.dir := by
  induction actions using List.reverseRecOn with
  | nil => rfl
  | append_singleton actions a ih => rw [runActions_concat, dir_apply, ih]

theorem tree_apply_cases (s : Scanner) (path : String) (scene : Scene ι) (a : Action ι) :
    (a.apply s path scene).tree = scene.tree ∨
    (∃ i f resources, scene.progress i = .scanned f resources ∧
      (a.apply s path scene).tree = (scene.cache.put scene.tree path f resources).1) ∨
    ∃ file, a = .rewrite file ∧ scene.tree.write path file = .ok (a.apply s path scene).tree := by
  cases a with
  | advance i =>
      rw [tree_advance]
      rcases (next_cases s path (scene.progress i) scene.tree scene.cache).2 with
        same | ⟨f, resources, scanned, put⟩
      · exact .inl same
      · exact .inr (.inl ⟨i, f, resources, scanned, put⟩)
  | rewrite file =>
      rw [Action.apply]
      split
      · rename_i written
        exact .inr (.inr ⟨file, rfl, written⟩)
      · exact .inl rfl

/-- The file stays, or it is rewritten. -/
theorem find_apply (apart : ∀ f, destination path ≠ recordPlace scene.cache.dir f) {old : File}
    (found : scene.tree.find path = .ok (.file old)) :
    (a.apply s path scene).tree.find path = scene.tree.find path ∨
      ∃ file, a = .rewrite file ∧ (a.apply s path scene).tree.find path = .ok (.file file) := by
  rcases tree_apply_cases s path scene a with
    same | ⟨i, f, resources, -, put⟩ | ⟨file, rfl, written⟩
  · exact .inl (by rw [same])
  · refine .inl ?_
    rw [put, found]
    exact (DiscoveryCache.spares_put _ _ _ _ _).1.find found fun ⟨_, same⟩ => apart f same
  · refine .inr ⟨file, rfl, find_of_write written ?_⟩
    exact inside_of_file (find_eq_ok_iff.mp found).2

/-- The file stays while it is not rewritten. -/
theorem find_of_steps (apart : ∀ f, destination path ≠ recordPlace scene.cache.dir f) {old : File}
    (found : scene.tree.find path = .ok (.file old)) (steps : ∀ file, .rewrite file ∉ actions) :
    (runActions s path scene actions).tree.find path = .ok (.file old) := by
  induction actions generalizing scene with
  | nil => exact found
  | cons a actions ih =>
      have still : (a.apply s path scene).tree.find path = .ok (.file old) := by
        rcases find_apply (s := s) (a := a) apart found with same | ⟨file, rfl, -⟩
        · exact same.trans found
        · exact absurd List.mem_cons_self (steps file)
      refine ih ?_ still fun file member => steps file (List.mem_cons_of_mem a member)
      rwa [dir_apply]

/-- Where the file is the same, scans find the same. -/
theorem cold_eq_of_find {t u : FileTree} (same : t.find path = u.find path) :
    s.cold path { tree := t } = s.cold path { tree := u } := by
  refine cold_congr rfl ?_
  simp only [readText, FileTree.read, same]

end WorkflowAudit.Scanner
