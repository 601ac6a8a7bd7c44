import WorkflowAudit.Proofs.Discovery.Steps

/-! # Scans at the same time

When the steps of scans and rewrites of a file interleave, resources of a newer text can be recorded
under an older fingerprint. A scan that finds them there took its own fingerprint before that text was
replaced: a fingerprint stands for one stretch of time, in which the file did not change. So what a scan
returns was in the file after its first step and before its last one.
-/

namespace WorkflowAudit.Scanner

open FileTree DiscoveryCache

variable {ι : Type} [DecidableEq ι] {s : Scanner} {path : String} {start : Scene ι}
  {actions : List (Action ι)} {a : Action ι} {i : ι} {f : Fingerprint} {resources : List Resource}

/-! ## Files in an interleaving -/

/-- Scans of one file and rewrites of it. The file has no records at first, and it is no record. Every
rewrite gives it a time after 1970 and a size that it did not have together before, and there are no
collisions among the hashes that are taken. -/
structure Interleaving (s : Scanner) (path : String) (start : Scene ι) (actions : List (Action ι)) :
    Prop where
  waiting : ∀ i, start.progress i = .waiting
  present : ∃ file, start.tree.find path = .ok (.file file)
  unrecorded : ∀ f file text resources,
    start.tree.get? (recordPlace start.cache.dir f) = some (.file file) → file.text? = some text →
    ScanRecord.ofDocument? text ≠ some ⟨path, f, resources⟩
  apart : ∀ f, destination path ≠ recordPlace start.cache.dir f
  fresh : ∀ before file, before ++ [.rewrite file] <+: actions → 0 < file.modified ∧
    ∀ earlier old, earlier <+: before →
      (runActions s path start earlier).tree.find path = .ok (.file old) →
      (old.modified, old.size) ≠ (file.modified, file.size)
  uncollided : ∀ p q, p <+: actions → q <+: actions →
    Fingerprint.ofText ((runActions s path start p).tree.hashedText path) =
      .ofText ((runActions s path start q).tree.hashedText path) →
    (runActions s path start p).tree.hashedText path =
      (runActions s path start q).tree.hashedText path

namespace Interleaving

theorem earlier (interleaving : Interleaving s path start actions) {p : List (Action ι)}
    (within : p <+: actions) : Interleaving s path start p where
  waiting := interleaving.waiting
  present := interleaving.present
  unrecorded := interleaving.unrecorded
  apart := interleaving.apart
  fresh before file inside := interleaving.fresh before file (inside.trans within)
  uncollided q r inside inside' :=
    interleaving.uncollided q r (inside.trans within) (inside'.trans within)

theorem apart_after (interleaving : Interleaving s path start actions) (f : Fingerprint) :
    destination path ≠ recordPlace (runActions s path start actions).cache.dir f := by
  rw [dir_runActions]
  exact interleaving.apart f

/-- The file is always there. -/
theorem present_after (interleaving : Interleaving s path start actions) :
    ∃ file, (runActions s path start actions).tree.find path = .ok (.file file) := by
  induction actions using List.reverseRecOn with
  | nil => exact interleaving.present
  | append_singleton actions a ih =>
      have shorter := interleaving.earlier (List.prefix_append actions [a])
      obtain ⟨old, found⟩ := ih shorter
      rw [runActions_concat]
      rcases find_apply (s := s) (a := a) shorter.apart_after found with same | ⟨file, -, rewritten⟩
      · exact ⟨old, same.trans found⟩
      · exact ⟨file, rewritten⟩

/-- The file has one fingerprint for one stretch of time only. -/
theorem find_between (interleaving : Interleaving s path start actions) {first p : List (Action ι)}
    (after : first <+: p) (within : p <+: actions)
    (same : (runActions s path start first).tree.fingerprint path =
      (runActions s path start actions).tree.fingerprint path) :
    (runActions s path start p).tree.find path = (runActions s path start first).tree.find path := by
  induction actions using List.reverseRecOn generalizing p with
  | nil =>
      obtain rfl := List.prefix_nil.mp within
      obtain rfl := List.prefix_nil.mp after
      rfl
  | append_singleton actions a ih =>
      have shorter := interleaving.earlier (List.prefix_append actions [a])
      rcases List.prefix_concat_iff.mp (after.trans within) with whole | before
      · obtain rfl : p = first := by
          subst whole
          exact within.eq_of_length_le after.length_le
        rfl
      · obtain ⟨old, found⟩ := shorter.present_after
        rcases find_apply (s := s) (a := a) shorter.apart_after found with
          kept | ⟨file, rfl, rewritten⟩
        · rw [← runActions_concat] at kept
          have steady : (runActions s path start first).tree.fingerprint path =
              (runActions s path start actions).tree.fingerprint path := by
            rw [same]
            simp only [FileTree.fingerprint, kept]
          rcases List.prefix_concat_iff.mp within with rfl | inside
          · rw [kept]
            exact ih shorter before List.prefix_rfl steady
          · exact ih shorter after inside steady
        · -- The file has not had the fingerprint of a rewrite before.
          obtain ⟨later, unlike⟩ := interleaving.fresh actions file List.prefix_rfl
          obtain ⟨earliest, known⟩ := (shorter.earlier before).present_after
          rw [← runActions_concat] at rewritten
          rw [fingerprint_eq, fingerprint_eq] at same
          have stamps := hashedText_eq_iff.mp
            (interleaving.uncollided first _ (after.trans within) List.prefix_rfl same)
          simp only [stamp?, known, rewritten, Option.some.injEq, Prod.mk.injEq] at stamps
          refine absurd ?_ (unlike first earliest before known)
          rw [Prod.mk.injEq]
          exact ⟨by omega, stamps.2⟩

end Interleaving

/-! ## What scans return -/

/-- The time since a scan took its fingerprint, while it is under way. -/
structure Window (s : Scanner) (path : String) (start : Scene ι) (actions : List (Action ι)) (i : ι)
    (f : Fingerprint) (before : List (Action ι)) : Prop where
  within : before ++ [.advance i] <+: actions
  waiting : (runActions s path start before).progress i = .waiting
  fingerprint : (runActions s path start before).tree.fingerprint path = f
  underWay : ∀ p, before ++ [.advance i] <+: p → p <+: actions →
    ((runActions s path start p).progress i).UnderWay

/-- Resources are what the file held after some actions. -/
def Seen (s : Scanner) (path : String) (start : Scene ι) (resources : List Resource)
    (p : List (Action ι)) : Prop :=
  resources = s.cold path { tree := (runActions s path start p).tree }

/-- What is known of a scan that has come so far. -/
def Accounted (s : Scanner) (path : String) (start : Scene ι) (actions : List (Action ι)) (i : ι) :
    Progress → Prop
  | .waiting => True
  | .stamped f | .missed f => ∃ before, Window s path start actions i f before
  | .scanned f resources => ∃ before p, Window s path start actions i f before ∧
      before ++ [.advance i] <+: p ∧ p <+: actions ∧ Seen s path start resources p
  | .finished resources => ∃ p, p <+: actions ∧
      ((runActions s path start p).progress i).UnderWay ∧ Seen s path start resources p

/-- Every record holds what the file held at its fingerprint's time or later. -/
def Truthful (s : Scanner) (path : String) (start : Scene ι) (actions : List (Action ι)) : Prop :=
  ∀ f file text resources,
    (runActions s path start actions).tree.get? (recordPlace start.cache.dir f) = some (.file file) →
    file.text? = some text → ScanRecord.ofDocument? text = some ⟨path, f, resources⟩ →
    ∃ before p, before <+: p ∧ p <+: actions ∧
      (runActions s path start before).tree.fingerprint path = f ∧ Seen s path start resources p

theorem Window.concat {before : List (Action ι)} (window : Window s path start actions i f before)
    (still : ((runActions s path start (actions ++ [a])).progress i).UnderWay) :
    Window s path start (actions ++ [a]) i f before where
  within := window.within.trans (List.prefix_append _ _)
  waiting := window.waiting
  fingerprint := window.fingerprint
  underWay p after within := by
    rcases List.prefix_concat_iff.mp within with rfl | inside
    · exact still
    · exact window.underWay p after inside

/-- An action that is not a step of a scan leaves it where it is. -/
theorem Accounted.concat {progress : Progress}
    (accounted : Accounted s path start actions i progress)
    (still : (runActions s path start (actions ++ [a])).progress i = progress) :
    Accounted s path start (actions ++ [a]) i progress := by
  have more := List.prefix_append actions [a]
  cases progress with
  | waiting => trivial
  | stamped f | missed f =>
      obtain ⟨before, window⟩ := accounted
      exact ⟨before, window.concat (by rw [still]; trivial)⟩
  | scanned f resources =>
      obtain ⟨before, p, window, after, within, seen⟩ := accounted
      exact ⟨before, p, window.concat (by rw [still]; trivial), after, within.trans more, seen⟩
  | finished resources =>
      obtain ⟨p, within, underWay, seen⟩ := accounted
      exact ⟨p, within.trans more, underWay, seen⟩

/-- The first step of a scan opens its window. -/
theorem accounted_first (waiting : (runActions s path start actions).progress i = .waiting) :
    Accounted s path start (actions ++ [.advance i]) i
      (.stamped ((runActions s path start actions).tree.fingerprint path)) := by
  refine ⟨actions, List.prefix_rfl, waiting, rfl, fun p after within => ?_⟩
  obtain rfl := after.eq_of_length_le within.length_le
  rw [runActions_concat, progress_advance, waiting]
  trivial

/-- What a scan finds recorded was in the file since the scan took its fingerprint. -/
theorem Window.seen_of_record (interleaving : Interleaving s path start actions)
    {before first p : List (Action ι)} (window : Window s path start actions i f before)
    (fingerprint : (runActions s path start first).tree.fingerprint path = f) (after : first <+: p)
    (within : p <+: actions) (seen : Seen s path start resources p) :
    ∃ instant, instant <+: actions ∧ ((runActions s path start instant).progress i).UnderWay ∧
      Seen s path start resources instant := by
  rcases List.prefix_or_prefix_of_prefix window.within within with inside | earlier
  · exact ⟨p, within, window.underWay p inside within, seen⟩
  · refine ⟨before ++ [.advance i], window.within,
      window.underWay _ List.prefix_rfl window.within, ?_⟩
    have tree : (runActions s path start (before ++ [.advance i])).tree =
        (runActions s path start before).tree := by
      rw [runActions_concat, Action.apply, window.waiting]
      rfl
    rcases List.prefix_concat_iff.mp earlier with rfl | old
    · exact seen
    · -- The fingerprint is the same from the time of the record to the time of the scan.
      have past := interleaving.earlier ((List.prefix_append before _).trans window.within)
      have same := fingerprint.trans window.fingerprint.symm
      have here := past.find_between after old same
      have there := past.find_between (after.trans old) List.prefix_rfl same
      rw [Seen, tree, seen]
      exact cold_eq_of_find (here.trans there.symm)

/-- The next step of a scan. -/
theorem Accounted.next (interleaving : Interleaving s path start actions)
    (truthful : Truthful s path start actions)
    (accounted : Accounted s path start actions i ((runActions s path start actions).progress i)) :
    Accounted s path start (actions ++ [.advance i]) i
      ((runActions s path start (actions ++ [.advance i])).progress i) := by
  have more := List.prefix_append actions [Action.advance i]
  have moved : ∀ progress, (runActions s path start actions).progress i = progress →
      (runActions s path start (actions ++ [.advance i])).progress i =
        (progress.next s path (runActions s path start actions).tree
          (runActions s path start actions).cache).1 := by
    rintro progress rfl
    rw [runActions_concat, progress_advance]
  cases now : (runActions s path start actions).progress i with
  | waiting =>
      rw [moved _ now]
      exact accounted_first now
  | stamped f =>
      rw [now] at accounted
      obtain ⟨before, window⟩ := accounted
      have result := moved _ now
      rcases next_stamped s path (runActions s path start actions).tree
        (runActions s path start actions).cache f with
        ⟨resources, c, looked, next⟩ | ⟨c, -, next⟩ <;> rw [next] at result <;> rw [result]
      · have found : (runActions s path start actions).cache.lookup
            (runActions s path start actions).tree path f = some resources := by
          rw [← get_fst, looked]
        obtain ⟨file, text, here, content, decoded⟩ := file_of_lookup found
        rw [dir_runActions] at here
        obtain ⟨first, p, after, within, fingerprint, seen⟩ :=
          truthful f file text resources here content decoded
        obtain ⟨instant, inside, underWay, seen⟩ :=
          window.seen_of_record interleaving fingerprint after within seen
        exact ⟨instant, inside.trans more, underWay, seen⟩
      · exact ⟨before, window.concat (by rw [result]; trivial)⟩
  | missed f =>
      rw [now] at accounted
      obtain ⟨before, window⟩ := accounted
      have result := moved _ now
      have underWay : ((runActions s path start actions).progress i).UnderWay := by
        rw [now]
        trivial
      rcases next_missed s path (runActions s path start actions).tree
        (runActions s path start actions).cache f with
        ⟨e, unread, next⟩ | ⟨text, readable, unparsed, next⟩ |
        ⟨text, resources, readable, scanned, next⟩ <;> rw [next] at result <;> rw [result]
      · refine ⟨actions, more, underWay, ?_⟩
        rw [Seen, cold_eq, unread]
      · refine ⟨actions, more, underWay, ?_⟩
        rw [Seen, cold_eq, readable]
        simp only [unparsed, Option.getD_none]
      · refine ⟨before, actions, window.concat (by rw [result]; trivial), window.within, more, ?_⟩
        rw [Seen, cold_eq, readable]
        simp only [scanned, Option.getD_some]
  | scanned f resources =>
      rw [now] at accounted
      rw [moved _ now]
      obtain ⟨before, p, window, after, within, seen⟩ := accounted
      exact ⟨p, within.trans more, window.underWay p after within, seen⟩
  | finished resources =>
      rw [now] at accounted
      rw [moved _ now]
      obtain ⟨p, within, underWay, seen⟩ := accounted
      exact ⟨p, within.trans more, underWay, seen⟩

theorem Truthful.concat (interleaving : Interleaving s path start actions)
    (truthful : Truthful s path start actions)
    (accounted : ∀ i, Accounted s path start actions i ((runActions s path start actions).progress i)) :
    Truthful s path start (actions ++ [a]) := by
  intro f file text resources here content decoded
  have more := List.prefix_append actions [a]
  have older : (runActions s path start actions).tree.get? (recordPlace start.cache.dir f) =
      some (.file file) → ∃ before p, before <+: p ∧ p <+: actions ++ [a] ∧
        (runActions s path start before).tree.fingerprint path = f ∧ Seen s path start resources p := by
    intro there
    obtain ⟨before, p, after, within, known⟩ := truthful f file text resources there content decoded
    exact ⟨before, p, after, within.trans more, known⟩
  rw [runActions_concat] at here
  rcases tree_apply_cases s path (runActions s path start actions) a with
    same | ⟨i, f', found, scanned, put⟩ | ⟨new, rfl, written⟩
  · exact older (by rwa [← same])
  · rw [put, ← dir_runActions s path start actions] at here
    rcases file_of_put_record here with ⟨rfl, record⟩ | before
    · have known := accounted i
      rw [scanned] at known
      obtain ⟨before, p, window, after, within, seen⟩ := known
      have distinct : ∀ r ∈ found, r.dependencies.Nodup := by
        rw [seen]
        exact nodup_dependencies_cold
      rw [content] at record
      rw [Option.some.inj record] at decoded
      obtain ⟨-, -, rfl⟩ := ScanRecord.mk.inj (ScanRecord.eq_of_ofDocument? distinct decoded)
      exact ⟨before, p, (List.prefix_append _ _).trans after, within.trans more,
        window.fingerprint, seen⟩
    · rw [dir_runActions] at before
      exact older before
  · refine older (((spares_write written).1.files _ _ fun same => ?_).mp here)
    exact interleaving.apart f same.symm

theorem Interleaving.explained (interleaving : Interleaving s path start actions) :
    (∀ i, Accounted s path start actions i ((runActions s path start actions).progress i)) ∧
      Truthful s path start actions := by
  induction actions using List.reverseRecOn with
  | nil =>
      refine ⟨fun i => ?_, fun f file text resources here content decoded => ?_⟩
      · rw [show (runActions s path start []).progress i = .waiting from interleaving.waiting i]
        trivial
      · exact absurd decoded (interleaving.unrecorded f file text resources here content)
  | append_singleton actions a ih =>
      have shorter := interleaving.earlier (List.prefix_append actions [a])
      obtain ⟨accounted, truthful⟩ := ih shorter
      refine ⟨fun i => ?_, truthful.concat shorter accounted⟩
      by_cases own : a = .advance i
      · rw [own]
        exact (accounted i).next shorter truthful
      · have still : (runActions s path start (actions ++ [a])).progress i =
            (runActions s path start actions).progress i := by
          rw [runActions_concat, progress_of_ne own]
        rw [still]
        exact (accounted i).concat still

/-! ## Calls that return -/

/-- The steps that a scan has taken, at most four. -/
def Progress.rank : Progress → Nat
  | .waiting => 0
  | .stamped _ => 1
  | .missed _ => 2
  | .scanned _ _ => 3
  | .finished _ => 4

theorem rank_next (s : Scanner) (path : String) (progress : Progress) (t : FileTree)
    (c : DiscoveryCache) :
    min 4 (progress.rank + 1) ≤ (progress.next s path t c).1.rank := by
  unfold Progress.next
  repeat' split
  all_goals simp [Progress.rank]

theorem eq_finished_of_rank {progress : Progress} (last : 4 ≤ progress.rank) :
    ∃ resources, progress = .finished resources := by
  cases progress with
  | finished resources => exact ⟨resources, rfl⟩
  | waiting | stamped | missed | scanned => simp [Progress.rank] at last

def Action.isStepOf (i : ι) : Action ι → Bool
  | .advance j => j = i
  | .rewrite _ => false

/-- A scan has come as far as the number of its steps says. -/
theorem rank_runActions (s : Scanner) (path : String) (start : Scene ι) (actions : List (Action ι))
    (i : ι) : min 4 (actions.countP (Action.isStepOf i)) ≤
      ((runActions s path start actions).progress i).rank := by
  induction actions using List.reverseRecOn with
  | nil => simp
  | append_singleton actions a ih =>
      rw [runActions_concat, List.countP_append]
      by_cases own : a = .advance i
      · subst own
        rw [progress_advance]
        have next := rank_next s path ((runActions s path start actions).progress i)
          (runActions s path start actions).tree (runActions s path start actions).cache
        have one : [Action.advance i].countP (Action.isStepOf i) = 1 := by simp [Action.isStepOf]
        omega
      · rw [progress_of_ne own]
        have none : [a].countP (Action.isStepOf i) = 0 := by
          cases a with
          | advance j =>
              have other : j ≠ i := fun same => own (by rw [same])
              simp [Action.isStepOf, other]
          | rewrite file => simp [Action.isStepOf]
        omega

/-- Whatever comes between its steps, a scan returns what the file held at some time after its first step
and before its last one, and it returns after four steps. -/
theorem finished_seen_underWay (interleaving : Interleaving s path start actions) (i : ι) :
    (∀ resources, (runActions s path start actions).progress i = .finished resources →
      ∃ instant, instant <+: actions ∧ ((runActions s path start instant).progress i).UnderWay ∧
        resources = s.cold path { tree := (runActions s path start instant).tree }) ∧
    (4 ≤ actions.countP (Action.isStepOf i) →
      ∃ resources, (runActions s path start actions).progress i = .finished resources) := by
  constructor
  · intro resources finished
    have accounted := interleaving.explained.1 i
    rw [finished] at accounted
    exact accounted
  · intro steps
    have rank := rank_runActions s path start actions i
    exact eq_finished_of_rank (by omega)

/-- A file before and after it is written again. -/
def draftFile : File := .ofText "x = Workflow()\n" 1

def newFile : File := .ofText "build = Job()\n" 2

/-- Two scans are about to look at a file. -/
def overtakenStart : Scene Bool where
  tree := { entries := [("ci.py", .file draftFile)] }
  cache := { dir := "cache" }
  progress := fun _ => .waiting

/-- Both take its fingerprint before it is written again, and one of them goes on before the other. -/
def overtakenActions : List (Action Bool) :=
  [.advance true, .advance false, .rewrite newFile, .advance true, .advance true, .advance true,
    .advance false, .advance false, .advance false]

theorem apart_overtaken (f : Fingerprint) : destination "ci.py" ≠ recordPlace "cache" f := by
  have file : destination "ci.py" = ["ci.py"] := by decide +kernel
  have directory : destination "cache" = ["cache"] := by decide +kernel
  rw [file, recordPlace, directory]
  intro same
  exact absurd (List.cons.inj same).1 (by decide)

theorem find_overtaken {p : List (Action Bool)} (within : p <+: overtakenActions) :
    (runActions {} "ci.py" overtakenStart p).tree.find "ci.py" =
      .ok (.file (if p.length < 3 then draftFile else newFile)) := by
  split
  · rename_i early
    have steps : p <+: [.advance true, .advance false] :=
      (List.prefix_take_iff (i := 2)).mpr ⟨within, by omega⟩
    refine find_of_steps apart_overtaken rfl fun file member => ?_
    simpa using steps.subset member
  · rename_i late
    have front : [.advance true, .advance false, .rewrite newFile] <+: overtakenActions := ⟨_, rfl⟩
    obtain ⟨rest, rfl⟩ := List.prefix_of_prefix_length_le front within (Nat.not_lt.mp late)
    have steps : rest <+: overtakenActions.drop 3 := by simpa [overtakenActions] using within
    rw [runActions, List.foldl_append]
    refine find_of_steps (fun f => ?_) rfl fun file member => ?_
    · exact apart_overtaken f
    · simpa [overtakenActions] using steps.subset member

theorem eq_of_rewrite_overtaken {before : List (Action Bool)} {file : File}
    (within : before ++ [.rewrite file] <+: overtakenActions) :
    before = [.advance true, .advance false] ∧ file = newFile := by
  obtain ⟨rest, whole⟩ := within
  rw [List.append_assoc, List.singleton_append] at whole
  rcases before with _ | ⟨a, _ | ⟨b, _ | ⟨c, before⟩⟩⟩
  · cases whole
  · cases whole
  · cases whole
    exact ⟨rfl, rfl⟩
  · have member : Action.rewrite file ∈ overtakenActions.drop 3 := by
      obtain ⟨-, -, -, later⟩ : _ ∧ _ ∧ _ ∧ before ++ .rewrite file :: rest =
          overtakenActions.drop 3 := by simpa [overtakenActions] using whole
      rw [← later]
      exact List.mem_append_right _ List.mem_cons_self
    simp [overtakenActions] at member

theorem hashedText_overtaken {p : List (Action Bool)} (within : p <+: overtakenActions) :
    (runActions {} "ci.py" overtakenStart p).tree.hashedText "ci.py" =
      if p.length < 3 then Fingerprint.fileKey "ci.py" 1 15
      else Fingerprint.fileKey "ci.py" 2 14 := by
  have sizes : draftFile.size = 15 ∧ newFile.size = 14 := by decide +kernel
  have found := find_overtaken within
  split at found
  · rename_i early
    simp only [hashedText, stamp?, found, sizes.1, if_pos early]
    rfl
  · rename_i late
    simp only [hashedText, stamp?, found, sizes.2, if_neg late]
    rfl

theorem interleaving_overtaken : Interleaving {} "ci.py" overtakenStart overtakenActions where
  waiting _ := rfl
  present := ⟨draftFile, rfl⟩
  unrecorded f file text resources found := by
    have directory : destination "cache" = ["cache"] := by decide +kernel
    rw [recordPlace, show overtakenStart.cache.dir = "cache" from rfl, directory] at found
    cases found
  apart := apart_overtaken
  fresh before file within := by
    obtain ⟨rfl, rfl⟩ := eq_of_rewrite_overtaken within
    refine ⟨by decide, fun earlier old inside found => ?_⟩
    have early : earlier.length < 3 := Nat.lt_succ_of_le inside.length_le
    have past := inside.trans ((List.prefix_append _ _).trans within)
    rw [find_overtaken past, if_pos early] at found
    obtain rfl := Node.file.inj (Except.ok.inj found)
    decide +kernel
  uncollided p q inside inside' same := by
    have hashes : Fingerprint.ofText (Fingerprint.fileKey "ci.py" 1 15) ≠
        .ofText (Fingerprint.fileKey "ci.py" 2 14) := by decide +kernel
    rw [hashedText_overtaken inside, hashedText_overtaken inside'] at same ⊢
    split at same <;> split at same
    · rename_i early early'
      rw [if_pos early, if_pos early']
    · exact absurd same hashes
    · exact absurd same.symm hashes
    · rename_i late late'
      rw [if_neg late, if_neg late']

theorem finished_seen_underWay_overtaken :
    Interleaving {} "ci.py" overtakenStart overtakenActions ∧ ∀ i, ∃ resources,
      (runActions {} "ci.py" overtakenStart overtakenActions).progress i = .finished resources ∧
      ∃ instant, instant <+: overtakenActions ∧
        ((runActions {} "ci.py" overtakenStart instant).progress i).UnderWay ∧
        resources =
          cold {} "ci.py" { tree := (runActions {} "ci.py" overtakenStart instant).tree } := by
  refine ⟨interleaving_overtaken, fun i => ?_⟩
  have known := finished_seen_underWay interleaving_overtaken i
  obtain ⟨resources, finished⟩ := known.2 (by cases i <;> decide)
  exact ⟨resources, finished, known.1 resources finished⟩

end WorkflowAudit.Scanner
