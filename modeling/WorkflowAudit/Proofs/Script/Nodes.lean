import WorkflowAudit.Proofs.Script.Parser.Statement
import WorkflowAudit.Proofs.Script.Rewriting

/-!
# Where the nodes of a script stand

Every node of the tree of a script stands on a run of its tokens: all of them stand for text,
their brackets match, and the span of the node reaches from the first to the last of them. So
a node is a part of the text that can be taken out, or be replaced by another one.
-/

namespace WorkflowAudit.Script

namespace Lexer

/-- On an open line, what comes before its end stands for text. -/
theorem Reads.lexical_of_onLine {p : Place} {read closing ts us : List Token} {st : State}
    {offset : Nat} (h : Reads p read ⟨st, offset, []⟩) (hfinish : finish st offset = .ok closing)
    (hopen : p.state.lineOpen = true) (hbegun : p.state.atLineStart = false)
    (hsplit : read ++ closing = ts ++ us) (honLine : ∀ t ∈ ts, t.kind ≠ .newline) :
    ∀ t ∈ ts, t.kind.isLexical = true := by
  -- the first token is not the end of the line
  have hhead : ∀ {t : Token} {vs ts : List Token}, t :: vs = ts ++ us → t.kind = .newline →
      (∀ t ∈ ts, t.kind ≠ .newline) → ts = [] := by
    intro t vs ts hsplit hkind honLine
    cases ts with
    | nil => rfl
    | cons u ts =>
      obtain ⟨rfl, -⟩ := List.cons.inj hsplit
      exact absurd hkind (honLine t List.mem_cons_self)
  generalize hq : (⟨st, offset, []⟩ : Place) = q at h
  induction h generalizing ts with
  | refl =>
    subst hq
    obtain ⟨vs, hclosing⟩ : ∃ vs, closing = ⟨.newline, .point offset, ""⟩ :: vs := by
      unfold finish at hfinish
      split at hfinish <;> cases hfinish
      exact ⟨_, by simp only [if_pos hopen, List.cons_append]; rfl⟩
    rw [hclosing] at hsplit
    simp [hhead hsplit rfl honLine]
  | @step p m q read read' move reads ih =>
    have hinside : p.state.isInside = true := by simp [State.isInside, hbegun]
    cases move with
    | skip | feed => exact ih hopen hbegun hsplit honLine hq
    | @lineEnd st offset rest =>
      have hwritten : lineEnding st offset = [⟨.newline, ⟨offset, offset + 1⟩, "\n"⟩] :=
        if_pos hopen
      rw [hwritten] at hsplit
      simp [hhead hsplit rfl honLine]
    | @token st offset c w rest kind brackets inside front =>
      cases ts with
      | nil => simp
      | cons t ts =>
        obtain ⟨rfl, hsplit⟩ := List.cons.inj hsplit
        have hmore := ih rfl hbegun (by simpa using hsplit) (fun t ht => honLine t (List.mem_cons_of_mem _ ht)) hq
        intro t ht
        rcases List.mem_cons.mp ht with rfl | ht
        · exact isLexical_of_front front
        · exact hmore t ht
    | emptyLine atStart | commentLine atStart | trailing atStart | enter atStart =>
      cases hinside.symm.trans atStart

end Lexer

theorem stopAfter_concat {t : Token} (ts : List Token) (n : Nat) (h : t.kind.isLexical = true) :
    stopAfter n (ts ++ [t]) = t.span.stop := by
  rw [stopAfter_append, stopAfter, List.foldl_cons, List.foldl_nil, if_pos h]

theorem Covers.spans {ts : List Token} {s : Span} (h : Covers ts s) (hordered : Ordered ts)
    (hlexical : ∀ t ∈ ts, t.kind.isLexical = true) : Spans ts s := by
  obtain ⟨t, us, rfl, -, hstart, hstop⟩ := h
  refine ⟨⟨t, us, rfl, hstart.symm⟩, ?_⟩
  obtain ⟨init, last, hlast⟩ := (List.eq_nil_or_concat (t :: us)).resolve_left (List.cons_ne_nil t us)
  rw [List.concat_eq_append] at hlast
  have hlastMem : last ∈ t :: us := by simp [hlast]
  have hlength := (hordered.spans last hlastMem).2 (hlexical last hlastMem)
  have hle : t.span.start ≤ last.span.start := by
    rcases List.mem_cons.mp hlastMem with rfl | hmem
    · exact Nat.le_refl _
    · have := (List.pairwise_cons.mp hordered.pairs).1 last hmem
      have := (hordered.spans t List.mem_cons_self).1
      omega
  rw [hlast, stopAfter_concat init 0 (hlexical last hlastMem)] at hstop
  exact ⟨init, last, hlast, by omega⟩

theorem brackets_of_finish {st : Lexer.State} {offset : Nat} {closing : List Token}
    (h : Lexer.finish st offset = .ok closing) : st.brackets = [] := by
  unfold Lexer.finish at h
  split at h
  · cases h
  · assumption

/-- All brackets of a script match. -/
theorem settled_of_tokenize {text : String} {tokens : List Token} (h : tokenize text = .ok tokens) :
    Settled tokens ∧ balance tokens = 0 := by
  obtain ⟨mark, cs, read, st, offset, closing, -, -, -, hreads, hfinish, rfl⟩ :=
    Lexer.exists_reads_of_tokenize h
  obtain ⟨hsettled, hbalance⟩ := hreads.settled (brackets_of_finish hfinish)
  have hweight : ∀ t ∈ closing, t.weight = 0 := fun t ht => by
    refine Token.weight_of_ne_op fun hop => ?_
    have := (Lexer.closing_of_finish hfinish t ht).1
    rw [hop] at this
    cases this
  refine ⟨hsettled.append (.of_weights fun t ht => Int.le_of_eq (hweight t ht)), ?_⟩
  rw [balance_append, hbalance, balance_eq_zero hweight]
  rfl

/-- What comes between a token that stands for text and the end of its line stands for text. -/
theorem lexical_of_tokenize {text : String} {tokens before after ts : List Token} {t : Token}
    (h : tokenize text = .ok tokens) (hsplit : tokens = before ++ ((t :: ts) ++ after))
    (ht : t.kind.isLexical = true) (honLine : ∀ u ∈ ts, u.kind ≠ .newline) :
    ∀ u ∈ t :: ts, u.kind.isLexical = true := by
  obtain ⟨mark, cs, read, st, offset, closing, -, -, -, hreads, hfinish, rfl⟩ :=
    Lexer.exists_reads_of_tokenize h
  have hclosing : t ∉ closing := fun hmem => by
    rw [(Lexer.closing_of_finish hfinish t hmem).1] at ht
    cases ht
  obtain ⟨rest, rfl, hrest⟩ : ∃ rest, read = before ++ t :: rest ∧ rest ++ closing = ts ++ after := by
    rcases List.append_eq_append_iff.mp hsplit with ⟨excess, -, hover⟩ | ⟨excess, hover, hmore⟩
    · exact absurd (hover ▸ by simp) hclosing
    · cases excess with
      | nil => exact absurd (List.nil_append closing ▸ hmore ▸ by simp) hclosing
      | cons u excess =>
        obtain ⟨rfl, htail⟩ := List.cons.inj hmore
        exact ⟨excess, hover, htail.symm⟩
  obtain ⟨m, m', hbefore, hmove, hmore⟩ := hreads.cut ht
  obtain ⟨c, cs, brackets, -, -, hinside, -, hstate⟩ := hmove.exists_token ht
  have hbegun := (hbefore.coherent fun _ => rfl).atLineStart_eq hinside
  have hlexical := hmore.lexical_of_onLine hfinish (by rw [hstate]) (by rw [hstate]; exact hbegun)
    hrest honLine
  simpa [ht] using hlexical

/-- The tree of a script was read from its tokens. -/
theorem exists_holds_of_parse {text : String} {m : Module} (h : parse text = .ok m) :
    ∃ ts more, tokenize text = .ok (ts ++ more) ∧ Ordered (ts ++ more) ∧
      Holds ts (m.body.map .statement) := by
  obtain ⟨tokens, d, htokens, hrun, -⟩ := parse_eq_ok_iff.mp h
  obtain ⟨ts, htook, hholds⟩ := Parser.gives_statements (Level.ofBudget_sound _)
    (Level.suite_ofBudget _) hrun
  have hrest : tokens = ts ++ (d.rest ++ tokens.dropWhile (·.kind ≠ .endMarker)) := by
    rw [← List.append_assoc, ← htook.rest]
    exact List.takeWhile_append_dropWhile.symm
  have hordered : Ordered tokens := by
    obtain ⟨mark, cs, read, st, offset, closing, -, -, -, hreads, hfinish, rfl⟩ :=
      Lexer.exists_reads_of_tokenize htokens
    exact ordered_of_reads hreads hfinish
  exact ⟨ts, _, by rw [← hrest, htokens], hrest ▸ hordered, hholds⟩

/-- Every node of a script stands on a run of its tokens. -/
theorem exists_run_of_parse {text : String} {m : Module} (h : parse text = .ok m) :
    ∃ tokens, tokenize text = .ok tokens ∧ Ordered tokens ∧ ∀ v ∈ m.expressions,
      ∃ before inside after, tokens = before ++ (inside ++ after) ∧ Matched inside ∧
        Spans inside v.span ∧ Fits inside v := by
  obtain ⟨ts, more, htokens, hordered, hholds⟩ := exists_holds_of_parse h
  obtain ⟨hsettled, hbalance⟩ := settled_of_tokenize htokens
  refine ⟨ts ++ more, htokens, hordered, fun v hv => ?_⟩
  obtain ⟨us, hcontains, honLine, hus, hcovers, hfits⟩ :=
    hholds.placed v (Module.exists_path_of_mem_expressions hv)
  obtain ⟨before, after, hsplit, hle⟩ : Contains (ts ++ more) us :=
    (Contains.append_right ts hsettled.of_append).trans hcontains
  rw [hsplit] at htokens hordered hbalance ⊢
  have hlexical : ∀ t ∈ us, t.kind.isLexical = true := by
    obtain ⟨t, us, rfl, ht, -⟩ := hcovers
    exact lexical_of_tokenize htokens rfl ht fun u hu => honLine u (List.mem_cons_of_mem t hu)
  have hzero : balance us = 0 := by
    have := hus.balance_le
    rw [hsplit] at hle
    omega
  have hdips : ∀ vs, vs <+: us → 0 ≤ balance vs := by
    rintro vs ⟨ws, rfl⟩
    have := hus.balance_prefix
    omega
  exact ⟨before, us, after, rfl, ⟨hlexical, hdips, hzero⟩,
    hcovers.spans hordered.of_append.2.of_append.1 hlexical, hfits⟩

end WorkflowAudit.Script
