import WorkflowAudit.Proofs.Script.Coverage
import WorkflowAudit.Proofs.Script.Nodes

/-!
# Spans of a tree are laminar

Every node covers a part of the text that is not empty, a node inside another one covers a part
of what that one covers, and nodes that are not inside each other cover nothing in common. The
runs of tokens from which nodes were read have this property, and spans take it from them.
-/

namespace WorkflowAudit

open Text

/-- What lies between the start of a slice and the stop of a later one is a slice. -/
theorem Text.slice?_between {cs x y : List Char} {a b c d : Nat} (hx : slice? cs a b = some x)
    (hy : slice? cs c d = some y) (hlt : a < d) : ∃ z, slice? cs a d = some z ∧ z ≠ [] := by
  obtain ⟨before, after, hcs, rfl, -⟩ := slice?_eq_some_iff.mp hx
  obtain ⟨before', after', hcs', rfl, rfl⟩ := slice?_eq_some_iff.mp hy
  rw [← byteLength_append] at hlt ⊢
  obtain ⟨z, hz, -⟩ := exists_append_of_byteLength_le
    (hcs.symm.trans (hcs'.trans (List.append_assoc ..).symm)) (Nat.le_of_lt hlt)
  refine ⟨z, slice?_eq_some_iff.mpr ⟨before, after', ?_, rfl, ?_⟩, ?_⟩
  · rw [hcs', ← List.append_assoc before z, ← hz, List.append_assoc]
  · rw [hz, byteLength_append]
  · rintro rfl
    rw [hz, List.append_nil] at hlt
    omega

namespace Script

/-- The spans of a script are those of a tree drawn over its text. -/
structure Laminar (text : List Char) (m : Module) : Prop where
  /-- Paths lead to all statements and expressions that the walks over a script meet. -/
  reached : (∀ p ∈ m.statements, ∃ path, m.at? path = some (.statement p.1)) ∧
    ∀ e ∈ m.expressions, ∃ path, m.at? path = some (.expression e)
  /-- Every node covers a part of the text that is not empty. -/
  filled : ∀ {path v}, m.at? path = some v →
    ∃ inside, slice? text v.span.start v.span.stop = some inside ∧ inside ≠ []
  /-- A node inside another one lies inside its span. -/
  within : ∀ {path more v w}, m.at? path = some v → m.at? (path ++ more) = some w →
    v.span.contains w.span = true
  /-- Nodes that are not inside each other are apart. -/
  apart : ∀ {path path' v w}, m.at? path = some v → m.at? path' = some w → ¬path <+: path' →
    ¬path' <+: path → v.span.overlaps w.span = false

/-! ## Tidy trees -/

/-- Whether two nodes cover nothing in common. -/
def Node.Apart (n m : Node) : Prop := n.span.overlaps m.span = false

theorem Node.Apart.symm {n m : Node} (h : n.Apart m) : m.Apart n := by
  simp only [Apart, Span.overlaps, Bool.and_eq_false_iff, decide_eq_false_iff_not] at h ⊢
  exact h.symm

/-- What lies inside spans that are apart is apart. -/
theorem Node.Apart.mono {n m v w : Node} (h : n.Apart m) (hv : n.span.contains v.span = true)
    (hw : m.span.contains w.span = true) : v.Apart w := by
  simp only [Apart, Span.overlaps, Span.contains, Bool.and_eq_true, Bool.and_eq_false_iff,
    decide_eq_true_eq, decide_eq_false_iff_not] at h hv hw ⊢
  omega

/-- A node whose span, like those of all nodes inside it, is as some test says, holds the spans
of the nodes directly inside, and keeps these apart. -/
inductive Node.Tidy (fits : Span → Prop) : Node → Prop
  | intro {n : Node} (fit : fits n.span)
      (within : ∀ c ∈ n.children, n.span.contains c.span = true)
      (apart : n.children.Pairwise Node.Apart) (below : ∀ c ∈ n.children, c.Tidy fits) :
      n.Tidy fits

namespace Node

variable {fits : Span → Prop}

theorem contains_self (n : Node) : n.span.contains n.span = true := by simp [Span.contains]

theorem contains_trans {s t u : Span} (h : s.contains t = true) (h' : t.contains u = true) :
    s.contains u = true := by
  simp only [Span.contains, Bool.and_eq_true, decide_eq_true_eq] at h h' ⊢
  omega

theorem Tidy.at? {n v : Node} {path : List Nat} (h : n.Tidy fits) (hv : n.at? path = some v) :
    v.Tidy fits ∧ n.span.contains v.span = true := by
  induction path generalizing n with
  | nil =>
    cases hv
    exact ⟨h, contains_self _⟩
  | cons i path ih =>
    obtain ⟨c, hc, hv⟩ := Option.bind_eq_some_iff.mp hv
    cases h with
    | intro fit within apart below =>
      have hmem := List.mem_of_getElem? hc
      obtain ⟨htidy, hcontains⟩ := ih (below c hmem) hv
      exact ⟨htidy, contains_trans (within c hmem) hcontains⟩

theorem at?_append {n v : Node} {path : List Nat} (more : List Nat) (h : n.at? path = some v) :
    n.at? (path ++ more) = v.at? more := by
  induction path generalizing n with
  | nil =>
    cases h
    rfl
  | cons i path ih =>
    obtain ⟨c, hc, h⟩ := Option.bind_eq_some_iff.mp h
    rw [List.cons_append, Node.at?, hc, Option.bind_some, ih h]

theorem among?_append {ns : List Node} {v : Node} {path : List Nat} (more : List Nat)
    (h : among? ns path = some v) : among? ns (path ++ more) = v.at? more := by
  cases path with
  | nil => cases h
  | cons i path =>
    obtain ⟨n, hn, hv⟩ := among?_cons.mp h
    rw [List.cons_append, among?, hn, Option.bind_some, at?_append more hv]

theorem tidy_of_among? {ns : List Node} (htidy : ∀ n ∈ ns, n.Tidy fits) {path : List Nat}
    {v : Node} (h : among? ns path = some v) : v.Tidy fits := by
  cases path with
  | nil => cases h
  | cons i path =>
    obtain ⟨n, hn, hv⟩ := among?_cons.mp h
    exact ((htidy n (List.mem_of_getElem? hn)).at? hv).1

/-- Nodes at paths that go apart are apart. -/
theorem apart_of_among? {ns : List Node} (htidy : ∀ n ∈ ns, n.Tidy fits)
    (hapart : ns.Pairwise Apart) {path path' : List Nat} {v w : Node}
    (hv : among? ns path = some v) (hw : among? ns path' = some w) (hpath : ¬path <+: path')
    (hpath' : ¬path' <+: path) : v.Apart w := by
  induction path generalizing ns path' with
  | nil => cases hv
  | cons i path ih =>
    cases path' with
    | nil => cases hw
    | cons j path' =>
      obtain ⟨a, ha, hv⟩ := among?_cons.mp hv
      obtain ⟨b, hb, hw⟩ := among?_cons.mp hw
      have hva := (htidy a (List.mem_of_getElem? ha)).at? hv
      have hwb := (htidy b (List.mem_of_getElem? hb)).at? hw
      rcases Nat.lt_trichotomy i j with hij | rfl | hij
      · refine Apart.mono ?_ hva.2 hwb.2
        obtain ⟨hi, rfl⟩ := List.getElem?_eq_some_iff.mp ha
        obtain ⟨hj, rfl⟩ := List.getElem?_eq_some_iff.mp hb
        exact List.pairwise_iff_getElem.mp hapart i j hi hj hij
      · obtain rfl : a = b := Option.some.inj (ha.symm.trans hb)
        cases htidy a (List.mem_of_getElem? ha) with
        | intro fit within apart below =>
          -- neither path ends here, or it would begin the other one
          rw [List.cons_prefix_cons, not_and] at hpath hpath'
          have hinside := fun {q : List Nat} {u : Node} (hu : a.at? q = some u) (hq : q ≠ []) =>
            (at?_eq_some_iff.mp hu).resolve_left fun h => hq h.1
          have hne : path ≠ [] := by
            rintro rfl
            exact hpath rfl List.nil_prefix
          have hne' : path' ≠ [] := by
            rintro rfl
            exact hpath' rfl List.nil_prefix
          exact ih below apart (hinside hv hne) (hinside hw hne') (hpath rfl) (hpath' rfl)
      · refine (Apart.mono ?_ hwb.2 hva.2).symm
        obtain ⟨hi, rfl⟩ := List.getElem?_eq_some_iff.mp ha
        obtain ⟨hj, rfl⟩ := List.getElem?_eq_some_iff.mp hb
        exact List.pairwise_iff_getElem.mp hapart j i hj hi hij

end Node

/-! ## Runs of tokens -/

/-- Whether a span reaches from the start of one token that stands for text to the stop of
another one. -/
def Bounds (ts : List Token) (s : Span) : Prop :=
  ∃ t ∈ ts, ∃ u ∈ ts, t.kind.isLexical = true ∧ u.kind.isLexical = true ∧
    t.span.start ≤ u.span.start ∧ s = ⟨t.span.start, u.span.stop⟩

theorem Bounds.mono {ts us : List Token} {s : Span} (h : Bounds ts s) (hsub : ts ⊆ us) :
    Bounds us s := by
  obtain ⟨t, ht, u, hu, h⟩ := h
  exact ⟨t, hsub ht, u, hsub hu, h⟩

/-- The last token that stands for text stops last, if there is one. -/
theorem stopAfter_cases {ts : List Token} (h : Ordered ts) (n : Nat) :
    (stopAfter n ts = n ∧ ∀ t ∈ ts, t.kind.isLexical = false) ∨
      ∃ u ∈ ts, u.kind.isLexical = true ∧ stopAfter n ts = u.span.stop ∧
        ∀ t ∈ ts, t.kind.isLexical = true → t.span.stop ≤ u.span.stop := by
  induction ts generalizing n with
  | nil => simp [stopAfter]
  | cons t ts ih =>
    have hrest := h.of_cons
    have hfirst := (List.pairwise_cons.mp h.pairs).1
    rw [show t :: ts = [t] ++ ts from rfl, stopAfter_append]
    rcases ih hrest (stopAfter n [t]) with ⟨heq, hnone⟩ | ⟨u, hu, hlexical, heq, hmax⟩
    · rw [heq]
      by_cases ht : t.kind.isLexical = true
      · refine .inr ⟨t, by simp, ht, by simp [stopAfter, ht], fun v hv hv' => ?_⟩
        rcases List.mem_cons.mp hv with rfl | hv
        · exact Nat.le_refl _
        · rw [hnone v hv] at hv'
          cases hv'
      · exact .inl ⟨by simp [stopAfter, ht], by simpa [ht] using hnone⟩
    · refine .inr ⟨u, by simp [hu], hlexical, heq, fun v hv hv' => ?_⟩
      rcases List.mem_cons.mp hv with rfl | hv
      · have := hfirst u hu
        have := (hrest.spans u hu).1
        omega
      · exact hmax v hv hv'

/-- A covered run of tokens gives the bounds of a span, which holds the bounds of any part. -/
theorem Covers.bounds {ts : List Token} {s : Span} (h : Covers ts s) (hordered : Ordered ts) :
    Bounds ts s ∧ ∀ s', Bounds ts s' → s.contains s' = true := by
  obtain ⟨t, us, rfl, ht, hstart, hstop⟩ := h
  have hfirst : ∀ u ∈ t :: us, t.span.start ≤ u.span.start := by
    intro u hu
    rcases List.mem_cons.mp hu with rfl | hu
    · exact Nat.le_refl _
    · have := (List.pairwise_cons.mp hordered.pairs).1 u hu
      have := (hordered.spans t List.mem_cons_self).1
      omega
  rcases stopAfter_cases hordered 0 with ⟨-, hnone⟩ | ⟨u, hu, hlexical, heq, hmax⟩
  · rw [hnone t List.mem_cons_self] at ht
    cases ht
  have hlast := (hordered.spans u hu).2 hlexical
  have hle := hfirst u hu
  rw [heq] at hstop
  have hspan : s.stop = u.span.stop := by omega
  refine ⟨⟨t, List.mem_cons_self, u, hu, ht, hlexical, hle, by rw [← hstart, ← hspan]⟩, ?_⟩
  rintro s' ⟨v, hv, w, hw, -, hw', -, rfl⟩
  have := hfirst v hv
  have := hmax w hw hw'
  simp only [Span.contains, Bool.and_eq_true, decide_eq_true_eq]
  omega

theorem Parts.bounds {ts : List Token} {ns : List Node} (h : Parts ts ns)
    (hordered : Ordered ts) : ∀ n ∈ ns, Bounds ts n.span := by
  induction h with
  | nil => simp
  | token t _ ih =>
    exact fun n hn => (ih hordered.of_cons n hn).mono
      (List.subset_cons_self t _)
  | @node us ts n ns covers _ _ _ ih =>
    obtain ⟨hus, hts⟩ := hordered.of_append
    intro m hm
    rcases List.mem_cons.mp hm with rfl | hm
    · exact (covers.bounds hus).1.mono (List.subset_append_left us ts)
    · exact (ih hts m hm).mono (List.subset_append_right us ts)
  | perm _ same ih => exact fun n hn => ih hordered n (same.same.symm.subset hn)

/-- A run of tokens stops before the nodes that were read from later ones start. -/
theorem Covers.stop_le_start {us ts : List Token} {ns : List Node} {s : Span} (h : Covers us s)
    (more : Parts ts ns) (hordered : Ordered (us ++ ts)) : ∀ m ∈ ns, s.stop ≤ m.span.start := by
  obtain ⟨hus, hts⟩ := hordered.of_append
  obtain ⟨v, -, u, hu, -, -, -, rfl⟩ := (h.bounds hus).1
  intro m hm
  obtain ⟨t, ht, w, -, -, -, -, hspan⟩ := more.bounds hts m hm
  rw [hspan]
  exact (List.pairwise_append.mp hordered.pairs).2.2 u hu t ht

/-- Statements stop before the ones listed after them start. -/
theorem Parts.inTurn {ts : List Token} {ns : List Node} (h : Parts ts ns)
    (hordered : Ordered ts) :
    (ns.filterMap Node.asStatement?).Pairwise fun r s => r.span.stop ≤ s.span.start := by
  induction h with
  | nil => exact .nil
  | token t _ ih => exact ih hordered.of_cons
  | @node us ts n ns covers _ more _ ih =>
    have hrest := ih hordered.of_append.2
    cases n with
    | expression | argument => exact hrest
    | statement r =>
      refine List.pairwise_cons.mpr ⟨fun s hs => ?_, hrest⟩
      obtain ⟨n, hn, heq⟩ := List.mem_filterMap.mp hs
      cases n <;> cases heq
      exact covers.stop_le_start more hordered _ hn
  | perm _ same ih => exact same.inTurn ▸ ih hordered

/-- Nodes that were read from parts of a run of tokens are tidy, and apart. -/
theorem Parts.tidy {fits : Span → Prop} {ts : List Token} {ns : List Node} (h : Parts ts ns)
    (hordered : Ordered ts) (hfits : ∀ s, Bounds ts s → fits s) :
    (∀ n ∈ ns, n.Tidy fits) ∧ ns.Pairwise Node.Apart := by
  induction h with
  | nil => simp
  | token t _ ih =>
    exact ih hordered.of_cons fun s hs =>
      hfits s (hs.mono (List.subset_cons_self t _))
  | @node us ts n ns covers inside more ihInside ihMore =>
    obtain ⟨hus, hts⟩ := hordered.of_append
    obtain ⟨hbelow, hchildren⟩ := ihInside hus fun s hs =>
      hfits s (hs.mono (List.subset_append_left us ts))
    obtain ⟨htidy, hapart⟩ := ihMore hts fun s hs =>
      hfits s (hs.mono (List.subset_append_right us ts))
    obtain ⟨hbounds, hcontains⟩ := covers.bounds hus
    refine ⟨?_, List.pairwise_cons.mpr ⟨fun m hm => ?_, hapart⟩⟩
    · rw [List.forall_mem_cons]
      exact ⟨.intro (hfits _ (hbounds.mono (List.subset_append_left us ts)))
        (fun c hc => hcontains _ (inside.bounds hus c hc)) hchildren hbelow, htidy⟩
    · have hle := covers.stop_le_start more hordered m hm
      rw [Node.Apart, Span.overlaps, Bool.and_eq_false_iff]
      exact .inr (by simpa using hle)
  | perm _ same ih =>
    obtain ⟨htidy, hapart⟩ := ih hordered hfits
    exact ⟨fun n hn => htidy n (same.same.symm.subset hn),
      (same.same.pairwise_iff fun {_ _} h => h.symm).mp hapart⟩

/-! ## Scripts -/

/-- A span that reaches from one token of a text to another one is filled. -/
theorem Lexed.filled {cs : List Char} {tokens : List Token} (h : Lexed cs tokens) {s : Span}
    (hs : Bounds tokens s) : ∃ inside, slice? cs s.start s.stop = some inside ∧ inside ≠ [] := by
  obtain ⟨t, ht, u, hu, -, hlexical, hle, rfl⟩ := hs
  obtain ⟨x, hx, -⟩ := h.sliced t ht
  obtain ⟨y, hy, hfull⟩ := h.sliced u hu
  exact Text.slice?_between hx hy (Nat.lt_of_le_of_lt hle (hfull hlexical).1)

/-- The statements of a script stand one after another. -/
theorem inTurn_of_parse {text : String} {m : Module} (h : parse text = .ok m) :
    m.body.Pairwise fun r s => r.span.stop ≤ s.span.start := by
  obtain ⟨ts, more, -, hordered, hholds⟩ := exists_holds_of_parse h
  have hparts := hholds.parts.inTurn hordered.of_append.1
  rwa [List.filterMap_map, show Node.asStatement? ∘ Node.statement = some from rfl,
    List.filterMap_some] at hparts

/-- The statements of a script are tidy, and every node in them reaches from one token of the text
to another one. -/
theorem tidy_of_parse {text : String} {m : Module} (h : parse text = .ok m) :
    ∃ tokens, tokenize text = .ok tokens ∧ Ordered tokens ∧
      (∀ n ∈ m.body.map Node.statement, n.Tidy (Bounds tokens)) ∧
      (m.body.map Node.statement).Pairwise Node.Apart := by
  obtain ⟨ts, more, htokens, hordered, hholds⟩ := exists_holds_of_parse h
  exact ⟨ts ++ more, htokens, hordered, hholds.parts.tidy hordered.of_append.1 fun s hs =>
    hs.mono (List.subset_append_left ts more)⟩

theorem Bounds.start_lt_stop {ts : List Token} {s : Span} (h : Bounds ts s)
    (hordered : Ordered ts) : s.start < s.stop := by
  obtain ⟨t, -, u, hu, -, hlexical, hle, rfl⟩ := h
  exact Nat.lt_of_le_of_lt hle ((hordered.spans u hu).2 hlexical)

theorem bounds_of_at? {m : Module} {tokens : List Token}
    (htidy : ∀ n ∈ m.body.map Node.statement, n.Tidy (Bounds tokens)) {path : List Nat} {v : Node}
    (hv : m.at? path = some v) : Bounds tokens v.span := by
  cases Node.tidy_of_among? htidy hv with
  | intro fit => exact fit

theorem start_lt_stop_of_parse {text : String} {m : Module} (h : parse text = .ok m)
    {path : List Nat} {v : Node} (hv : m.at? path = some v) : v.span.start < v.span.stop := by
  obtain ⟨tokens, -, hordered, htidy, -⟩ := tidy_of_parse h
  exact (bounds_of_at? htidy hv).start_lt_stop hordered

theorem laminar_of_parse {text : String} {m : Module} (h : parse text = .ok m) :
    Laminar text.toList m := by
  obtain ⟨tokens, htokens, -, htidy, hapart⟩ := tidy_of_parse h
  refine ⟨⟨fun p hp => Module.exists_path_of_mem_statements hp,
    fun e he => Module.exists_path_of_mem_expressions he⟩, fun hv => ?_, fun hv hw => ?_,
    fun hv hw => Node.apart_of_among? htidy hapart hv hw⟩
  · exact (lexed_of_tokenize htokens).filled (bounds_of_at? htidy hv)
  · have hinside := (Node.among?_append _ hv).symm.trans hw
    exact ((Node.tidy_of_among? htidy hv).at? hinside).2

/-- A script with nodes inside each other and beside each other. -/
def nestedText : String := "if a:\n    f(g('x'), (b), k='y')\n"

theorem laminar_nestedText : ∃ m, parse nestedText = .ok m ∧ Laminar nestedText.toList m := by
  have hparses : (parse nestedText).isOk = true := by decide +kernel
  obtain ⟨m, hparse⟩ := exists_parse_of_isOk hparses
  exact ⟨m, hparse, laminar_of_parse hparse⟩

/-- Of two nodes one lies inside the other, or they are apart. -/
theorem Laminar.nested_or_apart {text : List Char} {m : Module} (h : Laminar text m)
    {path path' : List Nat} {v w : Node} (hv : m.at? path = some v) (hw : m.at? path' = some w) :
    v.span.contains w.span = true ∨ w.span.contains v.span = true ∨
      v.span.overlaps w.span = false := by
  by_cases hpath : path <+: path'
  · obtain ⟨more, rfl⟩ := hpath
    exact .inl (h.within hv hw)
  by_cases hpath' : path' <+: path
  · obtain ⟨more, rfl⟩ := hpath'
    exact .inr (.inl (h.within hw hv))
  · exact .inr (.inr (h.apart hv hw hpath hpath'))

end Script

end WorkflowAudit
