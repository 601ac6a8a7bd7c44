import WorkflowAudit.Proofs.Lint.EditBuffer
import WorkflowAudit.Proofs.Script.Lexemes

/-!
# Edits of a text and its tokens

An edit that replaces a run of tokens by a steady word changes those tokens and no others: what
stands before it ends where it ended, the line state after it is the same, and so is all that
follows. Several such edits are made from left to right.
-/

namespace WorkflowAudit.Script

open Text Lexer

/-- The lexemes of tokens in which those of the span of each edit have given way to the lexemes
    of its text. Edits come from left to right. -/
def rewriteLexemes (ts : List Token) : List Edit → List (TokenKind × String)
  | [] => ts.map Token.lexeme
  | e :: es =>
    (ts.filter (·.span.stop ≤ e.span.start)).map Token.lexeme ++ lexemes e.text ++
      rewriteLexemes (ts.filter (e.span.stop ≤ ·.span.start)) es

/-- A run of tokens with all its brackets matched. -/
structure Matched (ts : List Token) : Prop where
  lexical : ∀ t ∈ ts, t.kind.isLexical = true
  dips : ∀ us, us <+: ts → 0 ≤ balance us
  zero : balance ts = 0

/-- Whether a span covers a run of tokens from its first byte to its last. -/
structure Spans (ts : List Token) (s : Span) : Prop where
  start : ∃ t us, ts = t :: us ∧ t.span.start = s.start
  stop : ∃ us t, ts = us ++ [t] ∧ t.span.stop = s.stop

/-- An edit that puts a steady word in the place of some tokens. -/
structure Replaces (before inside : List Token) (e : Edit) : Prop where
  matched : Matched inside
  spans : Spans inside e.span
  word : ∃ c w found, e.text.toList = c :: w ∧ beginsWord c = true ∧ Steady (c :: w) found ∧
    (∀ l ∈ found, l.1.isLexical = true) ∧
    ∀ t ∈ before, t.span.stop = e.span.start → (Piece.token t.kind).endsBefore c = true

namespace Lexer

/-- A line that is about to start has no open bracket. -/
def State.Coherent (st : State) : Prop := st.atLineStart = true → st.brackets = []

theorem State.Coherent.atLineStart_eq {st : State} (h : st.Coherent)
    (inside : st.isInside = true) : st.atLineStart = false := by
  by_contra hstart
  rw [Bool.not_eq_false] at hstart
  simp [State.isInside, hstart, h hstart] at inside

theorem coherent_of_enterLine {st st' : State} {column offset : Nat} {written : List Token}
    (h : enterLine st.begun column offset = .ok (st', written)) : st'.Coherent := by
  cases enterLine_cases h <;> nofun

theorem Move.coherent {p q : Place} {ts : List Token} (h : Move p ts q)
    (hp : p.state.Coherent) : q.state.Coherent := by
  cases h with
  | skip | feed | emptyLine => exact hp
  | lineEnd inside closed => exact fun _ => closed
  | token inside =>
    intro hstart
    cases (State.Coherent.atLineStart_eq hp inside).symm.trans hstart
  | commentLine | trailing =>
    intro hstart
    cases hstart
  | enter atStart indented content enters =>
    have := coherent_of_enterLine enters
    exact this

theorem Reads.coherent {p q : Place} {ts : List Token} (h : Reads p ts q)
    (hp : p.state.Coherent) : q.state.Coherent := by
  induction h with
  | refl => exact hp
  | step move _ ih => exact ih (move.coherent hp)

theorem ne_lineFeed_of_front {c : Char} {cs : List Char} {kind : TokenKind} {n : Nat}
    (h : front c cs = .ok (.token kind, n)) : c ≠ '\n' := by
  rintro rfl
  cases h

/-- The text of a token, and what follows it. -/
theorem Move.exists_front {p q : Place} {t : Token} (h : Move p [t] q)
    (hlexical : t.kind.isLexical = true) : ∃ c w brackets, p.rest = c :: (w ++ q.rest) ∧
      front c (w ++ q.rest) = .ok (.token t.kind, w.length) ∧
      bracketsAfter t.kind p.state.brackets c = .ok brackets ∧ p.state.isInside = true ∧
      t = tokenAt t.kind p.offset (c :: w) ∧
      q = ⟨{ p.state with brackets, lineOpen := true }, p.offset + byteLength (c :: w), q.rest⟩ := by
  generalize hts : [t] = ts at h
  have hmem : t ∈ ts := by simp [← hts]
  cases h with
  | skip | feed | emptyLine | commentLine | trailing => cases hts
  | lineEnd =>
    unfold lineEnding at hmem
    split at hmem
    · obtain rfl := List.mem_singleton.mp hmem
      cases hlexical
    · cases hmem
  | @token st offset c w rest kind brackets inside reads balance =>
    obtain rfl := List.mem_singleton.mp hmem
    exact ⟨c, w, brackets, rfl, reads, balance, inside, rfl, rfl⟩
  | enter atStart indented content enters =>
    rw [(span_of_enterLine enters t hmem).2] at hlexical
    cases hlexical

/-- The move over a token that stands for text. -/
theorem Move.exists_token {p q : Place} {t : Token} (h : Move p [t] q)
    (hlexical : t.kind.isLexical = true) :
    ∃ c cs brackets, p.rest = c :: cs ∧ c ≠ '\n' ∧ p.state.isInside = true ∧
      t.span.start = p.offset ∧ q.state = { p.state with brackets, lineOpen := true } := by
  obtain ⟨c, w, brackets, hrest, hfront, -, hinside, htoken, hq⟩ := h.exists_front hlexical
  exact ⟨c, w ++ q.rest, brackets, hrest, ne_lineFeed_of_front hfront, hinside,
    congrArg (·.span.start) htoken, congrArg Place.state hq⟩

/-- A run of tokens is read between two places, with the same line state before and after it. -/
theorem Reads.cut_run {p q : Place} {before inside after : List Token} {s : Span}
    (h : Reads p (before ++ (inside ++ after)) q) (hp : p.state.Coherent)
    (hmatched : Matched inside) (hspans : Spans inside s) :
    ∃ m m', Reads p before m ∧ Reads m inside m' ∧ Reads m' after q ∧ m.offset = s.start ∧
      m'.offset = s.stop ∧ m.state.isInside = true ∧
      m'.state = { m.state with lineOpen := true } ∧ ∃ c cs, m.rest = c :: cs ∧ c ≠ '\n' := by
  obtain ⟨first, more, rfl, hstart⟩ := hspans.start
  have hfirst : first.kind.isLexical = true := hmatched.lexical first List.mem_cons_self
  rw [List.cons_append] at h
  obtain ⟨m, m₁, hbefore, hmove, hmore⟩ := h.cut hfirst
  obtain ⟨c, cs, brackets, hrest, hc, hinside, hoffset, hstate⟩ := hmove.exists_token hfirst
  have hend : ∃ m', Reads m₁ more m' ∧ Reads m' after q ∧ m'.offset = s.stop := by
    obtain ⟨init, last, hlast, hstop⟩ := hspans.stop
    rcases List.eq_nil_or_concat more with rfl | ⟨more, last', rfl⟩
    · obtain rfl : last = first := by simpa using (congrArg List.getLast? hlast).symm
      refine ⟨m₁, .refl m₁, hmore, ?_⟩
      rw [← hstop, hmove.stop_eq last List.mem_cons_self]
    · rw [List.concat_eq_append] at *
      have hsame : [last'] = [last] :=
        List.append_inj_right' (show (first :: more) ++ [last'] = init ++ [last] from hlast) rfl
      obtain rfl := (List.cons.inj hsame).1
      have hlexical : last'.kind.isLexical = true := hmatched.lexical last' (by simp)
      rw [List.append_assoc, List.singleton_append] at hmore
      obtain ⟨n, m', hinit, hmove', hafter⟩ := hmore.cut hlexical
      refine ⟨m', hinit.trans hmove'.reads, hafter, ?_⟩
      rw [← hstop, hmove'.stop_eq last' List.mem_cons_self]
  obtain ⟨m', hreads, hafter, hstop⟩ := hend
  have hrun : Reads m (first :: more) m' := .step hmove hreads
  have hbrackets := hrun.brackets_eq hmatched.dips hmatched.zero
  have hbegun := State.Coherent.atLineStart_eq (hbefore.coherent hp) hinside
  have hsame := hreads.state_eq (by rw [hstate]) (by rw [hstate]; exact hbegun)
    fun t ht => hmatched.lexical t (List.mem_cons_of_mem first ht)
  refine ⟨m, m', hbefore, hrun, hafter, by rw [← hstart, hoffset], hstop, hinside, ?_, c, cs, hrest,
    hc⟩
  rw [hsame, hstate, hbrackets]

end Lexer

/-! ## Tokens before and after an edit -/

/-- Tokens as a reading gives them: none ends before it starts, and none starts before the one
    before it ends. -/
structure Ordered (ts : List Token) : Prop where
  spans : ∀ t ∈ ts, t.span.start ≤ t.span.stop ∧
    (t.kind.isLexical = true → t.span.start < t.span.stop)
  pairs : ts.Pairwise fun t u => t.span.stop ≤ u.span.start

theorem Ordered.of_append {ts us : List Token} (h : Ordered (ts ++ us)) :
    Ordered ts ∧ Ordered us := by
  obtain ⟨hts, hus, -⟩ := List.pairwise_append.mp h.pairs
  exact ⟨⟨fun t ht => h.spans t (List.mem_append_left _ ht), hts⟩,
    ⟨fun t ht => h.spans t (List.mem_append_right _ ht), hus⟩⟩

theorem Ordered.of_cons {t : Token} {ts : List Token} (h : Ordered (t :: ts)) : Ordered ts :=
  ⟨fun u hu => h.spans u (List.mem_cons_of_mem t hu), (List.pairwise_cons.mp h.pairs).2⟩

theorem Spans.bounds {ts : List Token} {s : Span} (h : Spans ts s) (hordered : Ordered ts) :
    ∀ t ∈ ts, s.start ≤ t.span.start ∧ t.span.stop ≤ s.stop := by
  obtain ⟨first, more, hfirst, hstart⟩ := h.start
  obtain ⟨init, last, hlast, hstop⟩ := h.stop
  intro t ht
  constructor
  · rw [hfirst] at ht hordered
    rcases List.mem_cons.mp ht with rfl | ht
    · omega
    · have := (List.pairwise_cons.mp hordered.pairs).1 t ht
      have := (hordered.spans first List.mem_cons_self).1
      omega
  · rw [hlast] at ht hordered
    rcases List.mem_append.mp ht with ht | ht
    · have := (List.pairwise_append.mp hordered.pairs).2.2 t ht last List.mem_cons_self
      have := (hordered.spans last (by simp)).1
      omega
    · rw [List.mem_singleton] at ht
      subst ht
      omega

/-- The tokens before a span are those that stop by its start, and those after it start from its
    stop on. -/
theorem filter_spans {before inside after : List Token} {s : Span}
    (hordered : Ordered (before ++ (inside ++ after)))
    (hlexical : ∀ t ∈ inside, t.kind.isLexical = true) (hspans : Spans inside s) :
    (before ++ (inside ++ after)).filter (·.span.stop ≤ s.start) = before ∧
      (before ++ (inside ++ after)).filter (s.stop ≤ ·.span.start) = after := by
  have hrest := hordered.of_append.2
  have hinside := hspans.bounds hrest.of_append.1
  obtain ⟨first, more, hfirst, hstart⟩ := hspans.start
  obtain ⟨init, last, hlast, hstop⟩ := hspans.stop
  have hbefore : ∀ t ∈ before, t.span.start ≤ t.span.stop ∧ t.span.stop ≤ s.start := by
    intro t ht
    have := (List.pairwise_append.mp hordered.pairs).2.2 t ht first (by simp [hfirst])
    exact ⟨(hordered.spans t (List.mem_append_left _ ht)).1, by omega⟩
  have hafter : ∀ t ∈ after, s.stop ≤ t.span.start ∧ t.span.start ≤ t.span.stop := by
    intro t ht
    have := (List.pairwise_append.mp hrest.pairs).2.2 last (by simp [hlast]) t ht
    exact ⟨by omega, (hrest.spans t (List.mem_append_right _ ht)).1⟩
  have hpos : ∀ t ∈ inside, t.span.start < t.span.stop := fun t ht =>
    (hrest.spans t (List.mem_append_left _ ht)).2 (hlexical t ht)
  have hlength : s.start < s.stop := by
    have := hinside first (by simp [hfirst])
    have := hpos first (by simp [hfirst])
    omega
  have hkeep : ∀ {p : Token → Bool} {ts : List Token}, (∀ t ∈ ts, p t = true) →
      ts.filter p = ts := fun h => List.filter_eq_self.mpr h
  have hdrop : ∀ {p : Token → Bool} {ts : List Token}, (∀ t ∈ ts, p t = false) →
      ts.filter p = [] := fun h => List.filter_eq_nil_iff.mpr fun t ht => by simp [h t ht]
  constructor
  · rw [List.filter_append, List.filter_append, hkeep, hdrop, hdrop]
    · simp
    · intro t ht
      have := hafter t ht
      simp only [decide_eq_false_iff_not]
      omega
    · intro t ht
      have := hinside t ht
      have := hpos t ht
      simp only [decide_eq_false_iff_not]
      omega
    · intro t ht
      simpa using (hbefore t ht).2
  · rw [List.filter_append, List.filter_append, hdrop, hdrop, hkeep]
    · simp
    · intro t ht
      simpa using (hafter t ht).1
    · intro t ht
      have := hinside t ht
      have := hpos t ht
      simp only [decide_eq_false_iff_not]
      omega
    · intro t ht
      have := hbefore t ht
      simp only [decide_eq_false_iff_not]
      omega

/-- A run of tokens that a span covers and that begins after other tokens stop lies among the
    tokens after them. -/
theorem exists_append_of_spans {done rest before inside after : List Token} {s : Span}
    (hsplit : done ++ rest = before ++ (inside ++ after)) (hordered : Ordered (done ++ rest))
    (hlexical : ∀ t ∈ inside, t.kind.isLexical = true) (hspans : Spans inside s)
    (hdone : ∀ t ∈ done, t.span.stop ≤ s.start) :
    ∃ excess, before = done ++ excess ∧ rest = excess ++ (inside ++ after) := by
  obtain ⟨first, more, rfl, hstart⟩ := hspans.start
  rcases List.append_eq_append_iff.mp hsplit with ⟨excess, hbefore, hrest⟩ | ⟨excess, hdoneEq, hrest⟩
  · exact ⟨excess, hbefore, hrest⟩
  · cases excess with
    | nil => exact ⟨[], by simpa using hdoneEq.symm, by simpa using hrest.symm⟩
    | cons t excess =>
      obtain ⟨rfl, -⟩ := List.cons.inj hrest
      have hmem : first ∈ done := by simp [hdoneEq]
      have := hdone first hmem
      have := (hordered.spans first (List.mem_append_left _ hmem)).2
        (hlexical first List.mem_cons_self)
      omega

/-- Edits that replace runs of tokens, made from left to right in a text of which there is a
    reading. -/
theorem exists_reads_of_splices {offset : Nat} {cs out : List Char} {es : List Edit}
    (hsplices : EditBuffer.Splices offset cs es out) {st : State} {ts tail : List Token}
    {q : Place} (offset' : Nat) (hreads : Reads ⟨st, offset, cs⟩ ts q) (hst : st.Coherent)
    (hordered : Ordered (ts ++ tail))
    (hes : ∀ e ∈ es, ∃ before inside after, ts = before ++ (inside ++ after) ∧
      Replaces before inside e) :
    ∃ ts' offset'', Reads ⟨st, offset', out⟩ ts' ⟨q.state, offset'', q.rest⟩ ∧
      rewriteLexemes (ts ++ tail) es = ts'.map Token.lexeme ++ tail.map Token.lexeme := by
  induction hsplices generalizing st ts offset' with
  | done =>
    obtain ⟨ts', offset'', hreads', hlexemes⟩ := hreads.shift offset'
    exact ⟨ts', offset'', hreads', by rw [rewriteLexemes, List.map_append, hlexemes]⟩
  | @edit offset e es untouched inside rest out hstart hstop hrest ih =>
    obtain ⟨before, run, after, rfl, hreplaces⟩ := hes e List.mem_cons_self
    obtain ⟨m, m', hbefore, hrun, hafter, hm, hm', hinside, hstate, x, xs, hx, hfeed⟩ :=
      hreads.cut_run hst hreplaces.matched hreplaces.spans
    obtain ⟨c, w, found, htext, hword, hsteady, hfound, hseam⟩ := hreplaces.word
    -- the places of the cut are where the edit says that its span begins and ends
    obtain ⟨before', hcs, hoffset⟩ := hbefore.rest_eq
    obtain ⟨run', hmrest, hoffset'⟩ := hrun.rest_eq
    have hcut : untouched ++ (inside ++ rest) = before' ++ (run' ++ m'.rest) := by
      rw [← hmrest]
      exact hcs
    obtain ⟨rfl, hcut'⟩ := append_inj_of_byteLength_eq hcut (by simp only at hoffset; omega)
    obtain ⟨rfl, rfl⟩ := append_inj_of_byteLength_eq hcut' (by omega)
    -- what comes before the edit is read as before, and then its text
    obtain ⟨before₁, hread₁, hlexemes₁, -⟩ := hbefore.transplant (w ++ out) offset' hcs
      (show m.rest = [] ++ x :: xs from hx) (fun _ => hfeed) (breaks_of_beginsWord hword)
      (fun _ => hword) fun _ t ht hstop => hseam t ht (by rw [hstop, hm])
    obtain ⟨word₁, hread₂, hlexemes₂⟩ := hsteady m.state (offset' + byteLength untouched) out hinside
    have hordered' : Ordered (after ++ tail) := by
      rw [List.append_assoc, List.append_assoc] at hordered
      exact hordered.of_append.2.of_append.2
    have hall : Ordered (before ++ (run ++ (after ++ tail))) := by
      rwa [List.append_assoc, List.append_assoc] at hordered
    have hfilter := filter_spans hall hreplaces.matched.lexical hreplaces.spans
    -- the other edits are made after it
    have hes' : ∀ f ∈ es, ∃ before inside after', after = before ++ (inside ++ after') ∧
        Replaces before inside f := by
      intro f hf
      obtain ⟨before', inside', after', hsplit, hf'⟩ := hes f (List.mem_cons_of_mem e hf)
      rw [← List.append_assoc] at hsplit
      have hstops : ∀ t ∈ before ++ run, t.span.stop ≤ f.span.start := by
        intro t ht
        have hle := hrest.le_start f hf
        rcases List.mem_append.mp ht with ht | ht
        · have := (hbefore.spans.1 t ht).2.2.1
          omega
        · have := (hrun.spans.1 t ht).2.2.1
          omega
      obtain ⟨excess, rfl, rfl⟩ := exists_append_of_spans hsplit
        (by simpa only [List.append_assoc] using hordered.of_append.1) hf'.matched.lexical hf'.spans
        hstops
      obtain ⟨d, v, found', htext', hword', hsteady', hfound', hseam'⟩ := hf'.word
      exact ⟨excess, inside', after', rfl, hf'.matched, hf'.spans, d, v, found', htext', hword',
        hsteady', hfound', fun t ht => hseam' t (List.mem_append_right _ ht)⟩
    have hafter' : Reads ⟨{ m.state with lineOpen := true }, e.span.stop, m'.rest⟩ after q := by
      rw [← hstate, ← hm']
      exact hafter
    obtain ⟨after₁, offset'', hread₃, hlexemes₃⟩ := ih
      (offset' + byteLength untouched + byteLength (c :: w)) hafter'
      (fun hstart => (hbefore.coherent hst) hstart) hordered' hes'
    refine ⟨before₁ ++ (word₁ ++ after₁), offset'', ?_, ?_⟩
    · rw [htext]
      exact hread₁.trans (hread₂.trans hread₃)
    · have hlexemes : lexemes e.text = found := by
        rw [← lexemes_of_steady hsteady hword hfound, ← htext, String.ofList_toList]
      simp only [List.append_assoc] at hfilter ⊢
      rw [rewriteLexemes, hfilter.1, hfilter.2, hlexemes₃, hlexemes, ← hlexemes₂, ← hlexemes₁]
      simp only [List.map_append, List.append_assoc]

/-- What is written at the end of a text comes after all runs of tokens. -/
theorem exists_append_of_closing {ts closing before inside after : List Token} {s : Span}
    (hsplit : ts ++ closing = before ++ (inside ++ after))
    (hclosing : ∀ t ∈ closing, t.kind.isLexical = false)
    (hlexical : ∀ t ∈ inside, t.kind.isLexical = true) (hspans : Spans inside s) :
    ∃ after', ts = before ++ (inside ++ after') := by
  obtain ⟨init, last, rfl, -⟩ := hspans.stop
  have hsplit' : ts ++ closing = (before ++ (init ++ [last])) ++ after := by simpa using hsplit
  rcases List.append_eq_append_iff.mp hsplit' with ⟨excess, hts, hrest⟩ | ⟨excess, hts, hrest⟩
  · rcases List.eq_nil_or_concat excess with rfl | ⟨excess, last', rfl⟩
    · exact ⟨[], by simpa using hts.symm⟩
    · have hsame : [last] = [last'] := List.append_inj_right'
        (show (before ++ init) ++ [last] = (ts ++ excess) ++ [last'] by simpa using hts) rfl
      obtain rfl := (List.cons.inj hsame).1
      have hmem : last ∈ closing := by simp [hrest]
      have := hclosing last hmem
      rw [hlexical last (by simp)] at this
      cases this
  · exact ⟨excess, by simpa using hts⟩

theorem ordered_of_reads {p : Place} {ts closing : List Token} {st : State} {offset : Nat}
    (hreads : Reads p ts ⟨st, offset, []⟩) (hfinish : finish st offset = .ok closing) :
    Ordered (ts ++ closing) := by
  obtain ⟨hspans, hpairs⟩ := hreads.spans
  have hclosing := closing_of_finish hfinish
  constructor
  · intro t ht
    rcases List.mem_append.mp ht with ht | ht
    · exact ⟨(hspans t ht).2.1, (hspans t ht).2.2.2⟩
    · obtain ⟨hkind, hspan⟩ := hclosing t ht
      rw [hkind, hspan]
      exact ⟨Nat.le_refl _, fun h => by cases h⟩
  · refine List.pairwise_append.mpr ⟨hpairs, ?_, fun t ht u hu => ?_⟩
    · refine List.pairwise_of_forall_mem_list fun t ht u hu => ?_
      rw [(hclosing t ht).2, (hclosing u hu).2]
      exact Nat.le_refl _
    · rw [(hclosing u hu).2]
      exact (hspans t ht).2.2.1

/-- Edits that replace runs of tokens change the lexemes of a text to those of their texts and
    leave all others as they are. -/
theorem lexemes_apply {text : String} {old : List Token} {edits : EditBuffer}
    (hold : tokenize text = .ok old)
    (hedits : ∀ e ∈ edits.accepted text, ∃ before inside after,
      old = before ++ (inside ++ after) ∧ Replaces before inside e) :
    ∃ new, tokenize (edits.apply text).1 = .ok new ∧
      new.map Token.lexeme = rewriteLexemes old (edits.accepted text) := by
  obtain ⟨mark, cs, ts, st, offset, closing, htext, hmark, hhead, hreads, hfinish, rfl⟩ :=
    exists_reads_of_tokenize hold
  have hruns : ∀ e ∈ edits.accepted text, ∃ before inside after,
      ts = before ++ (inside ++ after) ∧ Replaces before inside e := by
    intro e he
    obtain ⟨before, inside, after, hsplit, hreplaces⟩ := hedits e he
    obtain ⟨after', hts⟩ := exists_append_of_closing hsplit
      (fun t ht => (closing_of_finish hfinish t ht).1) hreplaces.matched.lexical hreplaces.spans
    exact ⟨before, inside, after', hts, hreplaces⟩
  have hstarts : ∀ e ∈ edits.accepted text, 0 + byteLength mark ≤ e.span.start := by
    intro e he
    obtain ⟨before, inside, after, rfl, hreplaces⟩ := hruns e he
    obtain ⟨first, more, rfl, hstart⟩ := hreplaces.spans.start
    have := (hreads.spans.1 first (by simp)).1
    simp only at this
    omega
  have hsplices := edits.splices_apply text
  rw [htext] at hsplices
  obtain ⟨out, hout, hsplices⟩ := hsplices.of_append hstarts
  rw [Nat.zero_add] at hsplices
  obtain ⟨ts', offset', hreads', hlexemes⟩ := exists_reads_of_splices hsplices (byteLength mark)
    hreads (fun _ => rfl) (ordered_of_reads hreads hfinish) hruns
  obtain ⟨closing', hfinish', hclosing'⟩ := finish_offset hfinish offset'
  refine ⟨ts' ++ closing', tokenize_of_reads hout hmark (fun hnil => ?_) hreads' hfinish', ?_⟩
  · have hcs := hhead hnil
    generalize edits.accepted text = es at hsplices hruns
    cases hsplices with
    | done => exact hcs
    | @edit _ e es untouched inside rest out =>
      cases untouched with
      | cons => exact hcs
      | nil =>
        obtain ⟨_, _, _, -, hreplaces⟩ := hruns e List.mem_cons_self
        obtain ⟨c, w, _, hword, hc, -⟩ := hreplaces.word
        rw [hword]
        exact fun h => ne_of_beginsWord hc '\ufeff' (by decide +kernel) (Option.some.inj h)
  · rw [hlexemes, List.map_append, hclosing']

end WorkflowAudit.Script
