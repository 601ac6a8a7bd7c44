import WorkflowAudit.Proofs.Script.Depth
import WorkflowAudit.Proofs.Script.Nodes
import WorkflowAudit.Proofs.Script.Parser.Blocks

/-!
# Scripts one after the other

The tokens of two scripts stand in those of both together, the first ones where they were and
the second ones further on, with nothing but line ends between them. So the statements of both
scripts are read, first those of the one and then those of the other.
-/

namespace WorkflowAudit.Script

/-! ## Lines of a script -/

namespace Lexer

theorem Move.lineEnd_text {p q : Place} {ts : List Token} (h : Move p ts q) :
    ∀ t ∈ ts, t.kind = .newline → t.text = "\n" := by
  cases h with
  | skip | feed | emptyLine | commentLine | trailing => simp
  | lineEnd =>
    unfold lineEnding
    split <;> simp
  | @token st offset c w rest kind brackets inside reads =>
    have hlexical := isLexical_of_front reads
    intro t ht
    obtain rfl := List.mem_singleton.mp ht
    rintro (hkind : kind = _)
    rw [hkind] at hlexical
    cases hlexical
  | enter atStart indented content enters => cases enterLine_cases enters <;> simp

theorem Reads.lineEnd_text {p q : Place} {ts : List Token} (h : Reads p ts q) :
    ∀ t ∈ ts, t.kind = .newline → t.text = "\n" := by
  induction h with
  | refl => simp
  | step move _ ih =>
    intro t ht
    exact (List.mem_append.mp ht).elim (move.lineEnd_text t) (ih t)

theorem text_of_finish {st : State} {offset : Nat} {closing : List Token}
    (h : finish st offset = .ok closing) : ∀ t ∈ closing, t.text = "" := by
  unfold finish at h
  split at h
  · cases h
  · cases h
    intro t ht
    simp only [List.mem_append, List.mem_map, List.mem_singleton] at ht
    rcases ht with (ht | ⟨_, _, rfl⟩) | rfl
    · split at ht
      · rw [List.mem_singleton.mp ht]
      · cases ht
    · rfl
    · rfl

end Lexer

theorem lineEnd_text_of_tokenize {text : String} {tokens : List Token}
    (h : tokenize text = .ok tokens) :
    ∀ t ∈ tokens, t.kind = .newline → t.text ∈ ["", "\n"] := by
  obtain ⟨mark, cs, read, st, offset, closing, -, -, -, hreads, hfinish, rfl⟩ :=
    Lexer.exists_reads_of_tokenize h
  intro t ht hline
  rcases List.mem_append.mp ht with ht | ht
  · simp [hreads.lineEnd_text t ht hline]
  · simp [Lexer.text_of_finish hfinish t ht]

/-- The tokens of a script stand on lines. -/
theorem lined_of_tokenize {text : String} {init : List Token} {last : Token}
    (h : tokenize text = .ok (init ++ [last])) (hlast : last.kind = .endMarker)
    (hinit : ∀ t ∈ init, t.kind ≠ .endMarker) : Lined init := by
  suffices hall : ∀ before after, init = before ++ after → Lined after from hall [] init rfl
  intro before after hsplit
  induction after generalizing before with
  | nil => trivial
  | cons t ts ih =>
    refine ⟨hinit t (hsplit ▸ by simp), fun ht => ?_, ih (before ++ [t]) (by simp [hsplit])⟩
    have hline : ∀ {u : Token} {us : List Token}, ts ++ [last] = u :: us → u.kind ≠ .newline →
        u.kind.isLexical = true := fun {u us} hus hu =>
      @lexical_of_tokenize _ _ before us [u] t h
        (by rw [hsplit, List.append_assoc, List.cons_append, hus]; rfl) ht (by simpa using hu) u
        (by simp)
    cases ts with
    | nil =>
      have hlexical := hline rfl (by rw [hlast]; decide)
      rw [hlast] at hlexical
      cases hlexical
    | cons u us =>
      by_cases hu : u.kind = .newline
      · exact .inr ⟨hu, lineEnd_text_of_tokenize h u (by simp [hsplit]) hu⟩
      · exact .inl (hline rfl hu)

/-! ## Cursors of a script -/

theorem rest_ofTokens {init : List Token} {last : Token} (hlast : last.kind = .endMarker)
    (hinit : ∀ t ∈ init, t.kind ≠ .endMarker) : (Cursor.ofTokens (init ++ [last])).rest = init := by
  rw [Cursor.ofTokens, List.takeWhile_append_of_pos (by simpa using hinit),
    List.takeWhile_cons_of_neg (by simp [hlast]), List.append_nil]

/-- The tokens of a script before its end marker. -/
theorem exists_init_of_tokenize {text : String} {tokens : List Token}
    (h : tokenize text = .ok tokens) :
    ∃ init last, tokens = init ++ [last] ∧ last.kind = .endMarker ∧
      (∀ t ∈ init, t.kind ≠ .endMarker) ∧
      (∀ t ∈ init, t.span.stop ≤ Text.byteLength text.toList) ∧ Lined init ∧ Ends 0 init := by
  have hlexed := lexed_of_tokenize h
  obtain ⟨init, rfl, hinit, hcount⟩ := hlexed.ended
  refine ⟨init, _, rfl, rfl, hinit, fun t ht => ?_, lined_of_tokenize h rfl hinit, ?_⟩
  · exact (List.pairwise_append.mp hlexed.ordered).2.2 t ht _ List.mem_cons_self
  · simpa [Ends, countKind] using hcount

/-- Nothing that was taken from the tokens of a text stops behind it. -/
theorem stopAfter_le {n stop : Nat} {ts : List Token} (hstop : stop ≤ n)
    (hts : ∀ t ∈ ts, t.span.stop ≤ n) : stopAfter stop ts ≤ n := by
  induction ts generalizing stop with
  | nil => exact hstop
  | cons t ts ih =>
    refine ih ?_ fun u hu => hts u (List.mem_cons_of_mem t hu)
    dsimp only
    split
    · exact hts t List.mem_cons_self
    · exact hstop

namespace Parser

/-- Where no token is left there are no statements. -/
theorem runs_statements_nil {inner : Level} {c d : Cursor} {ss : List Stmt} (hrest : c.rest = []) :
    Runs (statements inner) c ss d ↔ ss = [] ∧ d = c := by
  have hend : c.isKind .endMarker = true := by simp [Cursor.isKind, Cursor.peek, hrest]
  constructor
  · intro hrun
    obtain ⟨body, hbody, rfl⟩ := runs_bind_pure.mp hrun
    cases runs_many.mp hbody with
    | done => exact ⟨rfl, rfl⟩
    | last hpass | item hpass => simp [hend] at hpass
  · rintro ⟨rfl, rfl⟩
    exact runs_bind_pure.mpr ⟨[], runs_many.mpr (.done (by simp [hend])), rfl⟩

/-- Line ends between two scripts are no statements. -/
theorem runs_statements_gap (inner : Level) {gap ts : List Token}
    (hgap : ∀ t ∈ gap, t.kind = .newline) {c : Cursor} (hrest : c.rest = gap ++ ts) :
    ∃ d, d.rest = ts ∧ d.lastEnd = c.lastEnd ∧ d.depth = c.depth ∧ ∀ ss e,
      Runs (statements inner) d ss e → Runs (statements inner) c ss e := by
  induction gap generalizing c with
  | nil => exact ⟨c, hrest, rfl, rfl, fun _ _ hrun => hrun⟩
  | cons t gap ih =>
    have hkind := hgap t List.mem_cons_self
    obtain ⟨d, hd, hlast, hdepth, hmore⟩ := ih (fun u hu => hgap u (List.mem_cons_of_mem t hu))
      (Cursor.rest_advance hrest)
    refine ⟨d, hd, ?_, hdepth.trans (depth_advance c), fun ss e hrun => ?_⟩
    · rw [hlast, Cursor.advance, hrest]
      simp [hkind, TokenKind.isLexical]
    · obtain ⟨body, hbody, rfl⟩ := runs_bind_pure.mp (hmore ss e hrun)
      have hline : c.isKind .newline = true := by
        simp [Cursor.isKind, Cursor.peek_of_rest hrest, hkind]
      refine runs_bind_pure.mpr ⟨[] :: body, runs_many.mpr (.item ?_ ?_ ?_ (runs_many.mp hbody)), rfl⟩
      · simp [Cursor.isKind, Cursor.peek_of_rest hrest, hkind]
      · exact runs_eat_bind.mpr (.inl ⟨hline, runs_pure.mpr ⟨rfl, rfl⟩⟩)
      · rw [Cursor.length_advance, hrest]
        simp

/-- No script begins with an indented line. -/
theorem kind_of_runs_statements {inner : Level} {c d : Cursor} {ss : List Stmt}
    (h : Runs (statements inner) c ss d) : c.peek.kind ≠ .indent := by
  intro hindent
  obtain ⟨body, hbody, -⟩ := runs_bind_pure.mp h
  have hitem : ∀ {ss : List Stmt} {d : Cursor}, ¬Runs (topLevel inner) c ss d := by
    intro ss d hrun
    rw [topLevel, runs_eat_bind] at hrun
    simp [Cursor.isKind, hindent] at hrun
  cases runs_many.mp hbody with
  | done hdone => simp [Cursor.isKind, hindent] at hdone
  | last _ hrun => exact hitem hrun
  | item _ hrun => exact hitem hrun

end Parser

theorem kind_of_moved {place : Nat → Nat} {ts us : List Token} {P : TokenKind → Prop}
    (h : List.Forall₂ (Token.Moved place) ts us) (hts : ∀ t ∈ ts, P t.kind) : ∀ u ∈ us, P u.kind := by
  induction h with
  | nil => nofun
  | @cons t u ts us hfirst _ ih =>
    obtain ⟨ht, hts⟩ := List.forall_mem_cons.mp hts
    exact List.forall_mem_cons.mpr ⟨hfirst.kind ▸ ht, ih hts⟩

/-- What is left of a cursor when the statements of a script have been read. -/
theorem Parser.end_of_statements {init : List Token} {c d : Cursor} {ss : List Stmt} {n : Nat}
    (hrun : Runs (statements (Level.ofBudget levelLimit)) c ss d) (hrest : c.rest = init)
    (hlast : c.lastEnd ≤ n) (hinit : ∀ t ∈ init, t.span.stop ≤ n) :
    d.lastEnd ≤ n ∧ d.depth = c.depth := by
  obtain ⟨ts, htook, -⟩ := gives_statements (Level.ofBudget_sound _) (Level.suite_ofBudget _) hrun
  refine ⟨?_, (keeps_statements (Level.ofBudget_bounded _) hrun).2⟩
  rw [htook.lastEnd]
  refine stopAfter_le hlast fun t ht => hinit t ?_
  rw [← hrest, htook.rest]
  exact List.mem_append_left _ ht

/-- The statements of two scripts, one after the other, are those of both together. -/
theorem parse_append {a b : String} {m k : Module} (ha : parse a = .ok m) (hb : parse b = .ok k)
    (hend : Lexer.EndsLine a.toList) (hmark : b.toList.head? ≠ some '\ufeff') :
    parse (a ++ b) = .ok ⟨m.body ++ k.body.map (Stmt.shift (Text.byteLength a.toList)),
      .ofText (a ++ b)⟩ := by
  obtain ⟨ts, d, htokens, hrun, -⟩ := parse_eq_ok_iff.mp ha
  obtain ⟨us, d', htokens', hrun', -⟩ := parse_eq_ok_iff.mp hb
  obtain ⟨init, last, rfl, hlast, hinit, hstops, hlined, hends⟩ := exists_init_of_tokenize htokens
  obtain ⟨init', last', rfl, hlast', hinit', -, hlined', hends'⟩ :=
    exists_init_of_tokenize htokens'
  have hrest := rest_ofTokens hlast hinit
  have hrest' := rest_ofTokens hlast' hinit'
  have hfirst : ∀ t ∈ (init' ++ [last']).head?, t.kind ≠ .indent := by
    have hpeek := Parser.kind_of_runs_statements hrun'
    cases init' with
    | nil => simp [hlast']
    | cons t ts =>
      rw [Cursor.peek_of_rest hrest'] at hpeek
      simpa using hpeek
  obtain ⟨_, _, moved, gap, hsame, -, hmoved, hgap, hall⟩ :=
    tokenize_append htokens htokens' hend hmark hfirst
  obtain ⟨rfl, -⟩ := List.append_inj' hsame rfl
  generalize Text.byteLength a.toList = n at hstops hall ⊢
  have hwhole : moved ++ (gap ++ (init' ++ [last']).map (Token.shift n)) =
      (moved ++ (gap ++ init'.map (Token.shift n))) ++ [last'.shift n] := by simp
  have hkinds : ∀ t ∈ moved ++ (gap ++ init'.map (Token.shift n)), t.kind ≠ .endMarker := by
    simp only [List.forall_mem_append, List.forall_mem_map]
    exact ⟨kind_of_moved (P := (· ≠ .endMarker)) hmoved hinit, fun t ht => by simp [hgap t ht], hinit'⟩
  rw [hwhole] at hall
  -- The statements of the first script, with the second one behind them.
  have hembeds : (Cursor.ofTokens (init ++ [last])).Embeds
      ⟨id, monotone_id, [], gap ++ init'.map (Token.shift n)⟩
      (Cursor.ofTokens ((moved ++ (gap ++ init'.map (Token.shift n))) ++ [last'.shift n])) :=
    .of_lined rfl (hrest.symm ▸ hmoved) (rest_ofTokens hlast' hkinds) rfl rfl (hrest.symm ▸ hlined)
  obtain ⟨e, he, herest, hmore⟩ := Parser.carries_statements rfl (Level.ofBudget_tracked _)
    (Level.suite_carries _ _) hembeds (hrest.symm ▸ hends) hrun
  obtain ⟨f, hf, hflast, hfdepth, hmore'⟩ :=
    Parser.runs_statements_gap (Level.ofBudget levelLimit) hgap herest
  obtain ⟨hdlast, hddepth⟩ := Parser.end_of_statements hrun hrest (Nat.zero_le n) hstops
  -- Those of the second script, further on.
  have hembeds' : (Cursor.ofTokens (init' ++ [last'])).Embeds
      ⟨(· + n), fun _ _ h => Nat.add_le_add_right h n, [], []⟩ f := by
    refine .of_lined rfl ?_ (by rw [hf, List.append_nil]) ?_ ?_ (hrest'.symm ▸ hlined')
    · rw [hrest', List.forall₂_map_right_iff]
      exact List.forall₂_same.mpr fun t _ => t.moved_shift n
    · have := he.lastEnd
      dsimp only [Cursor.ofTokens, id] at this ⊢
      omega
    · rw [hfdepth, he.depth, hddepth]
      rfl
  obtain ⟨g, hg, hgrest, hmore''⟩ := Parser.carries_statements rfl (Level.ofBudget_tracked _)
    (Level.suite_carries _ _) hembeds' (hrest'.symm ▸ hends') hrun'
  have hnone := hmore'' [] g ((Parser.runs_statements_nil hgrest).mpr ⟨rfl, rfl⟩)
  refine parse_eq_ok_iff.mpr ⟨_, g, hall, ?_, rfl⟩
  simpa [Stmt.move_id, Stmt.move_add] using hmore _ _ (hmore' _ _ hnone)

/-- A script that ends inside a block. -/
def openText : String := "if a:\n    b = f(x)\n"

/-- A script that begins with another statement. -/
def nextText : String := "c = [1,\n  2]\n"

theorem parse_append_openText : ∃ m k, parse openText = .ok m ∧ parse nextText = .ok k ∧
    Lexer.EndsLine openText.toList ∧ nextText.toList.head? ≠ some '\ufeff' ∧
    parse (openText ++ nextText) =
      .ok ⟨m.body ++ k.body.map (Stmt.shift (Text.byteLength openText.toList)),
        .ofText (openText ++ nextText)⟩ := by
  have hopen : (parse openText).isOk = true := by decide +kernel
  have hnext : (parse nextText).isOk = true := by decide +kernel
  obtain ⟨m, hm⟩ := exists_parse_of_isOk hopen
  obtain ⟨k, hk⟩ := exists_parse_of_isOk hnext
  have hend : Lexer.EndsLine openText.toList :=
    .inr ⟨by decide +kernel, by decide +kernel, by decide +kernel⟩
  have hmark : nextText.toList.head? ≠ some '\ufeff' := by decide +kernel
  exact ⟨m, k, hm, hk, hend, hmark, parse_append hm hk hend hmark⟩

end WorkflowAudit.Script
