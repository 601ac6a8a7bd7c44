import WorkflowAudit.Proofs.Script.Line

/-!
# The body of a block, on the line of its header

A block with one line in it has the same tokens whether the line stands below its header or behind
its colon, but for the line structure between the two. The parser reads them in the same way: it
stops reading the header where the line begins, and it reads the line as simple statements.
-/

namespace WorkflowAudit.Script

/-! ## Headers -/

/-- What the header of a block says, and where it starts. -/
structure Heading where
  start : Nat
  keyword : String
  name : Option String
  exprs : List Expr

namespace Heading

/-- A header of a text in which `place` says where each byte stands. -/
def move (place : Nat → Nat) (a : Heading) : Heading :=
  ⟨place a.start, a.keyword, a.name, a.exprs.map (Expr.move place)⟩

/-- The block with this header, up to `stop`. -/
def block (a : Heading) (stop : Nat) (body : List Stmt) : Stmt :=
  .block ⟨a.start, max stop a.start⟩ a.keyword a.name a.exprs body

theorem move_block {place : Nat → Nat} (mono : Monotone place) (a : Heading) (stop : Nat)
    (body : List Stmt) :
    (a.block stop body).move place =
      (a.move place).block (place stop) (body.map (Stmt.move place)) := by
  rw [block, Stmt.move_block, Span.move, mono.map_max]
  rfl

end Heading

theorem Cursor.atText_of_rest {c : Cursor} {t : Token} {ts : List Token} (hrest : c.rest = t :: ts)
    (ht : t.kind.isLexical = true) : c.AtText := by
  rwa [Cursor.AtText, Cursor.peek_of_rest hrest]

/-- A token that stands for text is no token of line structure. -/
theorem Cursor.AtText.no_structure {c : Cursor} (h : c.AtText) :
    c.isKind .newline = false ∧ c.isKind .indent = false ∧ c.isKind .dedent = false ∧
      c.isKind .endMarker = false := by
  have hkind : ∀ {kind : TokenKind}, kind.isLexical = false → c.isKind kind = false := by
    intro kind hkind
    rw [Cursor.isKind, decide_eq_false]
    rintro rfl
    cases (show c.peek.kind.isLexical = true from h).symm.trans hkind
  exact ⟨hkind rfl, hkind rfl, hkind rfl, hkind rfl⟩

theorem Cursor.lastEnd_advance {c : Cursor} {t : Token} {ts : List Token} (hrest : c.rest = t :: ts)
    (ht : t.kind.isLexical = false) : c.advance.lastEnd = c.lastEnd := by
  simp [Cursor.advance, hrest, ht]

namespace Parser

variable {x : Setting} {inner below : Level}

/-- The header of a block, with its first words. -/
def heading (inner : Level) : Parser Heading := do
  let first ← bump
  let keyword ← if first.text = "async" then (·.text) <$> bump else pure first.text
  let (name, exprs) ← blockHeader inner keyword
  return ⟨first.span.start, keyword, name, exprs⟩

/-- A first step made by a choice. -/
theorem runs_ite_bind {q : Prop} [Decidable q] {p p' : Parser α} {f : α → Parser β} {c d : Cursor}
    {b : β} : Runs (if q then p >>= f else p' >>= f) c b d ↔
      ∃ a m, Runs (if q then p else p') c a m ∧ Runs (f a) m b d := by
  split <;> exact runs_bind

theorem runs_heading {c d : Cursor} {a : Heading} :
    Runs (heading inner) c a d ↔ ∃ m, Runs (if c.peek.text = "async" then (·.text) <$> bump
        else pure c.peek.text) c.advance a.keyword m ∧
      Runs (blockHeader inner a.keyword) m (a.name, a.exprs) d ∧ a.start = c.peek.span.start := by
  refine runs_bump_bind.trans (runs_ite_bind.trans ⟨?_, ?_⟩)
  · rintro ⟨keyword, m, hkeyword, hrun⟩
    obtain ⟨⟨name, exprs⟩, hheader, rfl⟩ := runs_bind_pure.mp hrun
    exact ⟨m, hkeyword, hheader, rfl⟩
  · rintro ⟨m, hkeyword, hheader, hstart⟩
    exact ⟨a.keyword, m, hkeyword, runs_bind_pure.mpr ⟨_, hheader, by rw [← hstart]⟩⟩

theorem runs_block {c d : Cursor} {s : Stmt} :
    Runs (block inner) c s d ↔ ∃ a body m, Runs (heading inner) c a m ∧
      Runs (nested inner.suite) m body d ∧ s = a.block d.lastEnd body := by
  refine runs_bump_bind.trans (runs_ite_bind.trans ⟨?_, ?_⟩)
  · rintro ⟨keyword, m, hkeyword, hrun⟩
    obtain ⟨⟨name, exprs⟩, m', hheader, hrun⟩ := runs_bind.mp hrun
    obtain ⟨body, e, hbody, hrun⟩ := runs_bind.mp hrun
    obtain ⟨rfl, rfl⟩ := runs_spanFrom_pure.mp hrun
    exact ⟨⟨_, keyword, name, exprs⟩, body, m', runs_heading.mpr ⟨m, hkeyword, hheader, rfl⟩,
      hbody, rfl⟩
  · rintro ⟨a, body, m', hheading, hbody, rfl⟩
    obtain ⟨m, hkeyword, hheader, hstart⟩ := runs_heading.mp hheading
    refine ⟨_, m, hkeyword, runs_bind.mpr ⟨_, m', hheader, runs_bind.mpr ⟨body, d, hbody, ?_⟩⟩⟩
    exact runs_spanFrom_pure.mpr ⟨by rw [Heading.block, hstart], rfl⟩

theorem tracks_bumpText : Tracks x id ((·.text) <$> bump) ((·.text) <$> bump) := by
  intro c c' word d _ hc hrun hd
  have hbefore := hrun.before hd
  obtain ⟨t, ht, rfl⟩ := runs_map.mp hrun
  obtain ⟨rfl, rfl⟩ := runs_bump.mp ht
  exact ⟨c'.advance, runs_map.mpr ⟨_, runs_bump.mpr ⟨rfl, rfl⟩, (hc.peek hbefore).text.symm⟩,
    hc.advance hbefore⟩

/-- A header is the same in both scripts, up to the last token in common. -/
theorem reaches_heading (h : inner.Tracked x) {c c' d : Cursor} {a : Heading} (hc : c.Embeds x c')
    (htext : c.AtText) (hrun : Runs (heading inner) c a d)
    (hd : x.behind.length ≤ d.rest.length) :
    ∃ d', Runs (heading inner) c' (a.move x.place) d' ∧ d.Embeds x d' := by
  obtain ⟨m, hkeyword, hheader, hstart⟩ := runs_heading.mp hrun
  have hheader' := reaches_blockHeader h a.keyword
  have hm : m.Before x := Nat.lt_of_le_of_lt hd (hheader'.takes hheader)
  have hadvance : c.advance.Before x := hkeyword.before hm
  have hbefore : c.Before x := by
    rw [Cursor.Before, Cursor.length_advance] at hadvance
    rw [Cursor.Before]
    omega
  have hpeek := hc.peek_eq hbefore htext
  have hwords : Tracks x id (if c.peek.text = "async" then (·.text) <$> bump else pure c.peek.text)
      (if c.peek.text = "async" then (·.text) <$> bump else pure c.peek.text) :=
    .ite tracks_bumpText (.pure rfl)
  obtain ⟨m', hkeyword', hm'⟩ := hwords trivial (hc.advance hbefore) hkeyword hm
  obtain ⟨d', hheader', hd'⟩ := hheader'.reaches hm' hheader hd
  refine ⟨d', runs_heading.mpr ⟨m', ?_, hheader', ?_⟩, hd'⟩
  · rw [hpeek]
    exact hkeyword'
  · rw [hpeek, Heading.move, hstart]
    rfl

/-! ## Where a line ends -/

/-- What takes tokens of one line only stops on the line. -/
theorem OneLine.stops {p : Parser α} (h : OneLine p) {c d : Cursor} {a : α} {line more : List Token}
    {feed : Token} (hrest : c.rest = line ++ feed :: more) (hfeed : feed.kind = .newline)
    (hrun : Runs p c a d) : ∃ line', line' <:+ line ∧ d.rest = line' ++ feed :: more := by
  obtain ⟨ts, htook, hts⟩ := h hrun
  rcases List.append_eq_append_iff.mp (htook.rest.symm.trans hrest) with
    ⟨line', rfl, hd⟩ | ⟨us, rfl, hmore⟩
  · exact ⟨line', List.suffix_append _ _, hd⟩
  · cases us with
    | nil => exact ⟨[], List.nil_suffix, hmore.symm⟩
    | cons u us =>
      obtain ⟨rfl, -⟩ := List.cons.inj hmore
      exact absurd hfeed (hts feed (by simp))

/-- A header stops on its line. -/
theorem stops_heading (h : inner.Sound) {c d : Cursor} {a : Heading} {t u feed : Token}
    {line more : List Token} (hrest : c.rest = t :: u :: (line ++ feed :: more))
    (hfeed : feed.kind = .newline) (hrun : Runs (heading inner) c a d) :
    ∃ line', line' <:+ u :: line ∧ d.rest = line' ++ feed :: more := by
  obtain ⟨m, hkeyword, hheader, -⟩ := runs_heading.mp hrun
  have hline := (gives_blockHeader h a.keyword).oneLine
  have hadvance := Cursor.rest_advance hrest
  rw [runs_ite] at hkeyword
  rcases hkeyword with ⟨-, hkeyword⟩ | ⟨-, hkeyword⟩
  · obtain ⟨v, hv, -⟩ := runs_map.mp hkeyword
    obtain ⟨-, rfl⟩ := runs_bump.mp hv
    obtain ⟨line', hline', hd⟩ := hline.stops (Cursor.rest_advance hadvance) hfeed hheader
    exact ⟨line', hline'.trans (List.suffix_cons _ _), hd⟩
  · obtain ⟨-, rfl⟩ := runs_pure.mp hkeyword
    exact hline.stops hadvance hfeed hheader

/-- The simple statements of a line, where its end is still to be taken. -/
def lineStatements (inner : Level) : Parser (List Stmt) := do
  let first ← smallStatement inner
  let more ← separated ";" (·.isKind .newline) (smallStatement inner)
  return first :: more

theorem runs_simpleStatements_of_feed {c m : Cursor} {ss : List Stmt}
    (hrun : Runs (lineStatements inner) c ss m) (hfeed : m.isKind .newline = true) :
    Runs (simpleStatements inner) c ss m.advance := by
  obtain ⟨first, m₁, hfirst, hrun⟩ := runs_bind.mp hrun
  obtain ⟨others, hothers, rfl⟩ := runs_bind_pure.mp hrun
  have hend : m.isKind .endMarker = false := by
    rw [Cursor.isKind, of_decide_eq_true hfeed]
    rfl
  refine runs_bind.mpr ⟨first, m₁, hfirst, runs_bind.mpr ⟨others, m, hothers, ?_⟩⟩
  refine runs_ask_bind.mpr (runs_ite.mpr (.inr ⟨by simp [hend], ?_⟩))
  exact runs_bind.mpr ⟨(), _, runs_expectKind.mpr ⟨hfeed, rfl⟩, runs_pure.mpr ⟨rfl, rfl⟩⟩

/-- The simple statements of a line stop behind it. -/
theorem exists_lineStatements (h : inner.Sound) {c d : Cursor} {ss : List Stmt} {feed : Token}
    {line more : List Token} (hrest : c.rest = line ++ feed :: more)
    (hline : ∀ t ∈ line, t.kind.isLexical = true) (hfeed : feed.kind = .newline)
    (hrun : Runs (simpleStatements inner) c ss d) :
    ∃ m, Runs (lineStatements inner) c ss m ∧ m.rest = feed :: more ∧ d = m.advance := by
  have hsmall := all_smallStatement h
  rw [simpleStatements, runs_bind] at hrun
  obtain ⟨first, m₁, hfirst, hrun⟩ := hrun
  rw [runs_bind] at hrun
  obtain ⟨others, m, hothers, hrun⟩ := hrun
  obtain ⟨line₁, hline₁, hm₁⟩ := hsmall.oneLine.stops hrest hfeed hfirst
  obtain ⟨line₂, hline₂, hm⟩ :=
    (hsmall.separated (by decide) _).oneLine.stops hm₁ hfeed hothers
  have hstatements : Runs (lineStatements inner) c (first :: others) m :=
    runs_bind.mpr ⟨first, m₁, hfirst, runs_bind_pure.mpr ⟨others, hothers, rfl⟩⟩
  rw [runs_ask_bind, runs_ite] at hrun
  cases line₂ with
  | nil =>
    rcases hrun with ⟨hend, -⟩ | ⟨-, hrun⟩
    · simp [Cursor.isKind, Cursor.peek_of_rest hm, hfeed] at hend
    · obtain ⟨_, e, htaken, hrun⟩ := runs_bind.mp hrun
      obtain ⟨-, rfl⟩ := runs_expectKind.mp htaken
      obtain ⟨rfl, rfl⟩ := runs_pure.mp hrun
      exact ⟨m, hstatements, hm, rfl⟩
  | cons t line₂ =>
    -- A token of the line is neither its end nor that of the script.
    have htext : m.AtText :=
      Cursor.atText_of_rest hm (hline t ((hline₂.trans hline₁).mem List.mem_cons_self))
    rcases hrun with ⟨hend, -⟩ | ⟨-, hrun⟩
    · cases hend.symm.trans htext.no_structure.2.2.2
    · obtain ⟨_, e, htaken, -⟩ := runs_bind.mp hrun
      cases (runs_expectKind.mp htaken).1.symm.trans htext.no_structure.1

/-- The simple statements of a line are the same in both scripts, also where its end is the last
token in common. -/
theorem reaches_simpleStatements (h : inner.Tracked x) {c c' d : Cursor} {ss : List Stmt}
    {feed : Token} {line : List Token} (hrest : c.rest = line ++ feed :: x.behind)
    (hline : ∀ t ∈ line, t.kind.isLexical = true) (hfeed : feed.kind = .newline)
    (hc : c.Embeds x c') (hrun : Runs (simpleStatements inner) c ss d) :
    ∃ d', Runs (simpleStatements inner) c' (ss.map (Stmt.move x.place)) d' ∧ d.Embeds x d' := by
  obtain ⟨m, hstatements, hm, rfl⟩ := exists_lineStatements h.sound hrest hline hfeed hrun
  have hbefore : m.Before x := by
    rw [Cursor.Before, hm]
    exact Nat.lt_succ_self _
  have htracks : Tracks x (List.map (Stmt.move x.place)) (lineStatements inner)
      (lineStatements inner) :=
    (tracks_smallStatement h).bind fun _ =>
      ((tracks_smallStatement h).separated ";" (stable_isKind .newline)).bind fun _ => .pure rfl
  obtain ⟨m', hstatements', hm'⟩ := htracks trivial hc hstatements hbefore
  have hend : m.isKind .newline = true := by simp [Cursor.isKind, Cursor.peek_of_rest hm, hfeed]
  exact ⟨m'.advance, runs_simpleStatements_of_feed hstatements'
    ((stable_isKind .newline hm' hbefore).trans hend), hm'.advance hbefore⟩

/-! ## Blocks with one line in them -/

/-- A script that begins with a statement. -/
theorem runs_statements_of_text (h : inner.Sound) {c d : Cursor} {ss : List Stmt} (htext : c.AtText) :
    Runs (statements inner) c ss d ↔ ∃ first m more, Runs (statement inner) c first m ∧
      Runs (statements inner) m more d ∧ ss = first ++ more := by
  have hitem : ∀ {ss m}, Runs (topLevel inner) c ss m ↔ Runs (statement inner) c ss m := by
    intro ss m
    simp [topLevel, htext.no_structure]
  constructor
  · intro hrun
    obtain ⟨body, hbody, rfl⟩ := runs_bind_pure.mp hrun
    cases runs_many.mp hbody with
    | done hdone => simp [htext.no_structure] at hdone
    | last _ hfirst hsame =>
      exact absurd hsame (Nat.ne_of_lt (progresses_topLevel h htext.rest_ne_nil hfirst))
    | item _ hfirst _ hmore =>
      exact ⟨_, _, _, hitem.mp hfirst, runs_bind_pure.mpr ⟨_, runs_many.mpr hmore, rfl⟩, rfl⟩
  · rintro ⟨first, m, more, hfirst, hmore, rfl⟩
    obtain ⟨body, hbody, rfl⟩ := runs_bind_pure.mp hmore
    refine runs_bind_pure.mpr ⟨first :: body, runs_many.mpr (.item ?_ (hitem.mpr hfirst)
      (progresses_topLevel h htext.rest_ne_nil (hitem.mpr hfirst)) (runs_many.mp hbody)), rfl⟩
    simp [htext.no_structure]

/-- A script that begins with a block. -/
theorem runs_statements_of_block (h : inner.Sound) {c d : Cursor} {ss : List Stmt}
    (hblock : atBlock c = true) : Runs (statements inner) c ss d ↔ ∃ s m more,
      Runs (block inner) c s m ∧ Runs (statements inner) m more d ∧ ss = s :: more := by
  have hname : c.peek.kind = .name := of_decide_eq_true (Bool.and_eq_true_iff.mp hblock).1
  have htext : c.AtText := by
    rw [Cursor.AtText, hname]
    rfl
  have hstatement : ∀ {ss m}, Runs (statement inner) c ss m ↔
      ∃ s, Runs (block inner) c s m ∧ ss = [s] := by
    intro ss m
    have hop : c.isOp "@" = false := by simp [Cursor.isOp, hname]
    simp [statement, hop, hblock]
  simp only [runs_statements_of_text h htext, hstatement]
  constructor
  · rintro ⟨_, m, more, ⟨s, hs, rfl⟩, hmore, rfl⟩
    exact ⟨s, m, more, hs, hmore, rfl⟩
  · rintro ⟨s, m, more, hs, hmore, rfl⟩
    exact ⟨[s], m, more, ⟨s, hs, rfl⟩, hmore, rfl⟩

theorem runs_suite_behind {c d : Cursor} {ss : List Stmt} (hline : c.isKind .newline = false) :
    Runs (suite inner) c ss d ↔ Runs (simpleStatements inner) c ss d := by
  simp [suite, hline]

/-- A repetition that one item ends. -/
theorem ManyRuns.eq_singleton {test : Cursor → Bool} {item : Parser α} {c d : Cursor} {as : List α}
    (h : ManyRuns test item c as d) (hpass : test c = true)
    (hend : ∀ a m, Runs item c a m → test m = false) : ∃ a, Runs item c a d ∧ as = [a] := by
  cases h with
  | done hdone => cases hpass.symm.trans hdone
  | last _ hitem => exact ⟨_, hitem, rfl⟩
  | @item _ m _ a _ _ hitem _ hmore =>
    have hdone := hend a m hitem
    cases hmore with
    | done => exact ⟨a, hitem, rfl⟩
    | last hmore | item hmore => cases hmore.symm.trans hdone

/-- A block below its header that has one line of simple statements. -/
theorem exists_suite_below (h : inner.Sound) {c d : Cursor} {ss : List Stmt} {line : List Token}
    {i j k l : Nat} (hrest : c.rest = .lineFeed i :: .mark .indent j ::
      (line ++ [.lineFeed k, .mark .dedent l]))
    (hline : ∀ t ∈ line, t.kind.isLexical = true) (hne : line ≠ [])
    (hsimple : ∀ m : Cursor, m.rest = line ++ [.lineFeed k, .mark .dedent l] →
      m.isOp "@" = false ∧ atBlock m = false)
    (hrun : Runs (suite inner) c ss d) :
    ∃ m, Runs (simpleStatements inner) c.advance.advance ss m ∧ m.rest = [.mark .dedent l] ∧
      d = m.advance := by
  have hbegin := Cursor.rest_advance (Cursor.rest_advance hrest)
  obtain ⟨t, line, rfl⟩ := List.exists_cons_of_ne_nil hne
  obtain ⟨hop, hblock⟩ := hsimple _ hbegin
  have hitem : ∀ {ss e}, Runs (statement inner) c.advance.advance ss e →
      Runs (simpleStatements inner) c.advance.advance ss e ∧ e.rest = [.mark .dedent l] := by
    intro ss e hrun
    have hrun : Runs (simpleStatements inner) c.advance.advance ss e := by
      simpa [statement, hop, hblock] using hrun
    obtain ⟨m, -, hm, rfl⟩ := exists_lineStatements h hbegin hline rfl hrun
    exact ⟨hrun, Cursor.rest_advance hm⟩
  have hnext : c.isKind .newline = true := by
    simp [Cursor.isKind, Cursor.peek_of_rest hrest, Token.lineFeed]
  rw [suite, runs_eat_bind] at hrun
  rcases hrun with ⟨-, hrun⟩ | ⟨hnone, -⟩
  · obtain ⟨_, m, hindent, hrun⟩ := runs_bind.mp hrun
    obtain ⟨-, rfl⟩ := runs_expectKind.mp hindent
    obtain ⟨body, e, hbody, hrun⟩ := runs_bind.mp hrun
    have hdedent : ∀ {e : Cursor}, e.rest = [.mark .dedent l] → e.isKind .dedent = true := by
      intro e he
      simp [Cursor.isKind, Cursor.peek_of_rest he, Token.mark]
    have htext := Cursor.atText_of_rest hbegin (hline t List.mem_cons_self)
    obtain ⟨ss', hfirst, rfl⟩ := (runs_many.mp hbody).eq_singleton (by simp [htext.no_structure])
      fun _ m hfirst => by simp [hdedent (hitem hfirst).2]
    obtain ⟨hstatements, he⟩ := hitem hfirst
    rcases runs_eat_bind.mp hrun with ⟨-, hrun⟩ | ⟨hnone, -⟩
    · obtain ⟨rfl, rfl⟩ := runs_pure.mp hrun
      exact ⟨e, by simpa using hstatements, he, rfl⟩
    · cases (hdedent he).symm.trans hnone
  · cases hnext.symm.trans hnone

/-- A script of one block with its line below the header: the header stops where its own line does,
and the line below it is the body. -/
theorem exists_block_below (h : inner.Sound) (hsuite : inner.suite = suite below)
    (hbelow : below.Sound) {c d : Cursor} {ss : List Stmt} {t u : Token} {head line : List Token}
    {i j k l : Nat} (hrest : c.rest = t :: u :: (head ++ .lineFeed i :: .mark .indent j ::
      (line ++ [.lineFeed k, .mark .dedent l])))
    (hhead : ∀ v ∈ u :: head, v.kind.isLexical = true) (hblock : atBlock c = true)
    (hline : ∀ v ∈ line, v.kind.isLexical = true) (hne : line ≠ [])
    (hsimple : ∀ m : Cursor, m.rest = line ++ [.lineFeed k, .mark .dedent l] →
      m.isOp "@" = false ∧ atBlock m = false)
    (hrun : Runs (statements inner) c ss d) :
    ∃ a m body e, Runs (heading inner) c a m ∧
      m.rest = .lineFeed i :: .mark .indent j :: (line ++ [.lineFeed k, .mark .dedent l]) ∧
      m.depth < levelLimit ∧
      Runs (simpleStatements below) { m with depth := m.depth + 1 }.advance.advance body e ∧
      e.rest = [.mark .dedent l] ∧ ss = [a.block e.lastEnd body] := by
  obtain ⟨s, q, more, hs, hmore, rfl⟩ := (runs_statements_of_block h hblock).mp hrun
  obtain ⟨a, body, m, hheading, hbody, rfl⟩ := runs_block.mp hs
  obtain ⟨left, hleft, hm⟩ := stops_heading h hrest rfl hheading
  obtain ⟨hroom, e, hinner, rfl⟩ := runs_nested.mp hbody
  rw [hsuite] at hinner
  have hopened : ({ m with depth := m.depth + 1 } : Cursor).rest =
      left ++ .lineFeed i :: .mark .indent j :: (line ++ [.lineFeed k, .mark .dedent l]) := hm
  cases left with
  | nil =>
    obtain ⟨f, hstatements, hf, rfl⟩ := exists_suite_below hbelow hopened hline hne hsimple hinner
    have hlast := Cursor.lastEnd_advance hf rfl
    have hend : ({ f.advance with depth := f.advance.depth - 1 } : Cursor).rest = [] :=
      Cursor.rest_advance hf
    obtain ⟨rfl, -⟩ := (runs_statements_nil hend).mp hmore
    exact ⟨a, m, body, f, hheading, hm, hroom, hstatements, hf, by rw [← hlast]⟩
  | cons v left =>
    -- The body would be the rest of the line of the header, and no statement begins below it.
    have hlexical : ∀ w ∈ v :: left, w.kind.isLexical = true := fun w hw => hhead w (hleft.mem hw)
    have htext := Cursor.atText_of_rest hopened (hlexical v List.mem_cons_self)
    obtain ⟨f, -, hf, rfl⟩ := exists_lineStatements hbelow hopened hlexical rfl
      ((runs_suite_behind htext.no_structure.1).mp hinner)
    refine absurd ?_ (kind_of_runs_statements hmore)
    exact congrArg Token.kind (Cursor.peek_of_rest (Cursor.rest_advance hf))

/-- The line below a header is read in the same way as the body of the block behind the header. -/
theorem reaches_line (h : ∀ x, inner.Tracked x) {m m' e : Cursor} {body : List Stmt}
    {line line' : List Token} {i j k l n : Nat} (hm : m.Embeds x m')
    (hrest : m.rest = .lineFeed i :: .mark .indent j :: (line ++ [.lineFeed k, .mark .dedent l]))
    (hrest' : m'.rest = line' ++ [.lineFeed n])
    (hmoved : List.Forall₂ (Token.Moved x.place) line line')
    (hline : ∀ v ∈ line, v.kind.isLexical = true) (hne : line ≠ [])
    (hrun : Runs (simpleStatements inner) m.advance.advance body e)
    (he : e.rest = [.mark .dedent l]) :
    ∃ e', Runs (suite inner) m' (body.map (Stmt.move x.place)) e' ∧ e'.rest = [] ∧
      max e'.lastEnd (x.place 0) = x.place e.lastEnd := by
  have hindented := Cursor.rest_advance hrest
  have hbegin : m.advance.advance.rest = line ++ .lineFeed k :: [.mark .dedent l] :=
    Cursor.rest_advance hindented
  have hopened : Cursor.Embeds ⟨x.place, x.mono, [.mark .dedent l], []⟩ m.advance.advance m' := by
    refine ⟨⟨line ++ [.lineFeed k], line' ++ [.lineFeed n], by simp [hbegin], ?_, by simp [hrest'],
      by simp [Token.lineFeed]⟩, ?_, ?_, ?_⟩
    · exact List.rel_append hmoved (.cons ⟨rfl, rfl, nofun⟩ .nil)
    · rw [Cursor.lastEnd_advance hindented rfl, Cursor.lastEnd_advance hrest rfl]
      exact hm.lastEnd
    · rw [depth_advance, depth_advance]
      exact hm.depth
    · rw [hbegin]
      exact (hrest ▸ hm.lined).2.2.2.2
  obtain ⟨e', hstatements, he'⟩ :=
    reaches_simpleStatements (h _) hbegin hline rfl hopened hrun
  refine ⟨e', (runs_suite_behind ?_).mpr hstatements, he'.rest_eq_after he, he'.lastEnd⟩
  obtain ⟨t, more, rfl⟩ := List.exists_cons_of_ne_nil hne
  cases hmoved with
  | @cons _ t' _ _ hfirst =>
    have ht' : t'.kind.isLexical = true := hfirst.kind ▸ hline t List.mem_cons_self
    exact (Cursor.atText_of_rest hrest' ht').no_structure.1

/-- A script of one block with its line below the header is read in the same way with the line
behind the header. -/
theorem runs_inline (hzero : x.place 0 = 0) (h : ∀ x, inner.Tracked x)
    (hsuite : inner.suite = suite below) (hbelow : ∀ x, below.Tracked x) {c c' d : Cursor}
    {ss : List Stmt} {t u : Token} {head line line' : List Token} {i j k l n : Nat}
    (hbehind : x.behind = .lineFeed i :: .mark .indent j :: (line ++ [.lineFeed k, .mark .dedent l]))
    (hafter : x.after = line' ++ [.lineFeed n]) (hc : c.Embeds x c')
    (hrest : c.rest = t :: u :: (head ++ x.behind))
    (hhead : ∀ v ∈ t :: u :: head, v.kind.isLexical = true)
    (hword : t.kind = .name ∧ blockKeywords.contains t.text = true)
    (hmoved : List.Forall₂ (Token.Moved x.place) line line')
    (hline : ∀ v ∈ line, v.kind.isLexical = true) (hne : line ≠ [])
    (hsimple : ∀ m : Cursor, m.rest = line ++ [.lineFeed k, .mark .dedent l] →
      m.isOp "@" = false ∧ atBlock m = false)
    (hrun : Runs (statements inner) c ss d) :
    ∃ d', Runs (statements inner) c' (ss.map (Stmt.move x.place)) d' := by
  have hpeek := Cursor.peek_of_rest hrest
  have htext := Cursor.atText_of_rest hrest (hhead t List.mem_cons_self)
  have hbefore : c.Before x := by
    rw [Cursor.Before, hrest, List.length_cons, List.length_cons, List.length_append]
    omega
  have hblock : atBlock c = true ∧ atBlock c' = true := by
    simp only [atBlock, Cursor.isKind, hc.peek_eq hbefore htext, hpeek, Token.move, hword]
    simp
  obtain ⟨a, m, body, e, hheading, hm, hroom, hstatements, he, rfl⟩ :=
    exists_block_below (h x).sound hsuite (hbelow x).sound (hbehind ▸ hrest)
      (fun v hv => hhead v (List.mem_cons_of_mem t hv)) hblock.1 hline hne hsimple hrun
  -- The header is the same, and behind it comes the line.
  have hend : m.rest = x.behind := hm.trans hbehind.symm
  obtain ⟨m', hheading', hm'⟩ := reaches_heading (h x) hc htext hheading
    (Nat.le_of_eq (congrArg List.length hend.symm))
  obtain ⟨e', hbody, he', hlast⟩ := reaches_line hbelow (hm'.toDepth (m.depth + 1)) hm
    ((hm'.rest_eq_after hend).trans hafter) hmoved hline hne hstatements he
  have hblock' : Runs (block inner) c' ((a.block e.lastEnd body).move x.place)
      { e' with depth := e'.depth - 1 } := by
    rw [hzero, Nat.max_zero] at hlast
    rw [a.move_block x.mono, ← hlast]
    refine runs_block.mpr ⟨_, _, m', hheading', runs_nested.mpr ⟨hm'.depth ▸ hroom, e', ?_, rfl⟩, rfl⟩
    rw [hsuite, hm'.depth]
    exact hbody
  have hnone : ({ e' with depth := e'.depth - 1 } : Cursor).rest = [] := he'
  exact ⟨_, (runs_statements_of_block (h x).sound hblock.2).mpr ⟨_, _, [], hblock',
    (runs_statements_nil hnone).mpr ⟨rfl, rfl⟩, rfl⟩⟩

/-- A line that begins with neither a decorator nor a block begins with neither wherever it stands. -/
theorem simple_of_line {ts more : List Token} {feed : Token} {m : Cursor} {n : Nat}
    (hlexical : ∀ t ∈ ts, t.kind.isLexical = true) (hne : ts ≠ []) (hfeed : feed.kind = .newline)
    (hop : (Cursor.ofTokens ts).isOp "@" = false) (hblock : atBlock (.ofTokens ts) = false)
    (hm : m.rest = ts.map (Token.shift n) ++ feed :: more) :
    m.isOp "@" = false ∧ atBlock m = false := by
  have hkinds : ∀ {kind : TokenKind}, kind.isLexical = false →
      ∀ t ∈ ts, decide (t.kind ≠ kind) = true := fun hkind t ht =>
    decide_eq_true (ne_of_lexical hkind hlexical t ht)
  have hrest : (Cursor.ofTokens ts).rest = ts := List.takeWhile_eq_self_iff.mpr (hkinds rfl)
  have hline : lineEndsWithColon m = lineEndsWithColon (.ofTokens ts) := by
    rw [lineEndsWithColon_eq_lexemes, lineEndsWithColon_eq_lexemes, hrest, hm,
      List.takeWhile_append_of_pos (List.forall_mem_map.mpr (hkinds rfl)),
      List.takeWhile_cons_of_neg (by simp [hfeed]), List.takeWhile_eq_self_iff.mpr (hkinds rfl),
      List.append_nil, List.map_map]
    rfl
  obtain ⟨t, ts, rfl⟩ := List.exists_cons_of_ne_nil hne
  have hpeek : m.peek = t.shift n := Cursor.peek_of_rest hm
  have hkind : m.peek.kind = (Cursor.ofTokens (t :: ts)).peek.kind := by
    rw [hpeek, Cursor.peek_of_rest hrest]
    rfl
  have htext : m.peek.text = (Cursor.ofTokens (t :: ts)).peek.text := by
    rw [hpeek, Cursor.peek_of_rest hrest]
    rfl
  rw [Cursor.isOp, atBlock, Cursor.isKind, hkind, htext, hline]
  exact ⟨hop, hblock⟩

end Parser

/-! ## Texts -/

/-- Where a byte of a header that stops at `stop` and of a line below it stands when the line is put
behind the header. -/
def inlinePlace (stop offset : Nat) : Nat := max (min offset stop) (offset - 4)

theorem inlinePlace_mono (stop : Nat) : Monotone (inlinePlace stop) := fun _ _ h =>
  max_le_max (min_le_min_right stop h) (Nat.sub_le_sub_right h 4)

theorem inlinePlace_of_le {stop offset : Nat} (h : offset ≤ stop) :
    inlinePlace stop offset = offset := by
  unfold inlinePlace
  omega

theorem inlinePlace_add (stop offset : Nat) :
    inlinePlace stop (offset + (stop + 5)) = offset + (stop + 1) := by
  unfold inlinePlace
  omega

theorem moved_line (stop : Nat) (ss : List Token) :
    List.Forall₂ (Token.Moved (inlinePlace stop)) (ss.map (Token.shift (stop + 5)))
      (ss.map (Token.shift (stop + 1))) := by
  rw [List.forall₂_map_left_iff, List.forall₂_map_right_iff]
  refine List.forall₂_same.mpr fun t _ => ⟨rfl, rfl, fun _ => ?_⟩
  simp [Token.shift, Span.shift, Span.move, inlinePlace_add]

section

variable {head text : String} {hs ss : List Token}

theorem IsLine.moved_title (title : IsLine (head ++ ":") hs) :
    List.Forall₂ (Token.Moved (inlinePlace (Text.byteLength head.toList + 1))) hs hs := by
  have hstop : Text.byteLength (head ++ ":").toList = Text.byteLength head.toList + 1 := by
    rw [String.toList_append, Text.byteLength_append]
    rfl
  refine List.forall₂_same.mpr fun t ht => ⟨rfl, rfl, fun _ => ?_⟩
  obtain ⟨-, hle, hend, -⟩ := title.exists_reads.1.spans.1 t ht
  dsimp only at hend
  rw [Span.move, inlinePlace_of_le (by omega), inlinePlace_of_le (by omega)]

/-- The tokens of a header and of a line, before their end marker. -/
theorem IsLine.ne_endMarker (title : IsLine (head ++ ":") hs) (line : IsLine text ss)
    (stop width : Nat) : (∀ t ∈ hs ++ lineBelow stop width ss, t.kind ≠ .endMarker) ∧
      ∀ t ∈ hs ++ lineBehind stop width ss, t.kind ≠ .endMarker := by
  have htitle : ∀ t ∈ hs, t.kind ≠ .endMarker := ne_of_lexical rfl title.lexical
  have hline : ∀ n, ∀ t ∈ ss, (t.shift n).kind ≠ .endMarker := fun _ =>
    ne_of_lexical rfl line.lexical
  simp only [lineBelow, lineBehind, List.forall_mem_append, List.forall_mem_cons,
    List.forall_mem_map]
  have hfeed : TokenKind.newline ≠ .endMarker := by decide
  have hindent : TokenKind.indent ≠ .endMarker := by decide
  have hdedent : TokenKind.dedent ≠ .endMarker := by decide
  exact ⟨⟨htitle, hfeed, hindent, hline _, hfeed, hdedent, List.forall_mem_nil _⟩, htitle, hline _,
    hfeed, List.forall_mem_nil _⟩

/-- The tokens of the header are those that both texts have in common. -/
theorem IsLine.embeds (title : IsLine (head ++ ":") hs) (line : IsLine text ss)
    (hcolon : hs.getLast? = some (.colon (Text.byteLength head.toList))) (n n' : Nat) :
    let stop := Text.byteLength head.toList + 1
    let width := Text.byteLength text.toList
    Cursor.Embeds ⟨inlinePlace stop, inlinePlace_mono stop, lineBelow stop width ss,
        lineBehind stop width ss⟩
      (.ofTokens (hs ++ lineBelow stop width ss ++ [.mark .endMarker n]))
      (.ofTokens (hs ++ lineBehind stop width ss ++ [.mark .endMarker n'])) := by
  intro stop width
  obtain ⟨hkinds, hkinds'⟩ := title.ne_endMarker line stop width
  have hrest := @rest_ofTokens _ (.mark .endMarker n) rfl hkinds
  refine ⟨⟨hs, hs, hrest, title.moved_title, rest_ofTokens rfl hkinds', ?_⟩, ?_, rfl, ?_⟩
  · simp [hcolon, Token.colon]
  · exact Nat.zero_max _
  · rw [hrest]
    exact lined_of_tokenize (title.tokenize_below line) rfl hkinds

end

/-- A text that a colon makes the header of a block, known by its first word. -/
def IsHeader (head : String) : Prop :=
  ∃ t ts, IsLine (head ++ ":") (t :: ts) ∧ (t.kind = .name ∧ Parser.blockKeywords.contains t.text) ∧
    (t :: ts).getLast? = some (.colon (Text.byteLength head.toList))

/-- A text that is one line of simple statements. -/
def IsSimple (text : String) : Prop :=
  ∃ ts, IsLine text ts ∧ (Cursor.ofTokens ts).isOp "@" = false ∧
    Parser.atBlock (.ofTokens ts) = false

/-- The body of a block may be written on the line of its header: where the two lines parse the one
line parses, and gives the same tree further on. -/
theorem parse_inline {head text : String} {m : Module} (header : IsHeader head)
    (simple : IsSimple text) (parsed : parse (head ++ ":\n    " ++ text ++ "\n") = .ok m) :
    parse (head ++ ": " ++ text ++ "\n") =
      .ok ⟨m.body.map (Stmt.move (inlinePlace (Text.byteLength head.toList + 1))),
        .ofText (head ++ ": " ++ text ++ "\n")⟩ := by
  obtain ⟨t, ts, title, hword, hcolon⟩ := header
  obtain ⟨ss, line, hop, hblock⟩ := simple
  obtain ⟨tokens, d, htokens, hrun, -⟩ := parse_eq_ok_iff.mp parsed
  have hbelow := title.tokenize_below line
  have hbehind := title.tokenize_behind hcolon line
  obtain rfl := Except.ok.inj (htokens.symm.trans hbelow)
  -- The header has its word and its colon, which are two tokens.
  obtain ⟨u, ts, rfl⟩ : ∃ u more, ts = u :: more := by
    cases ts with
    | nil =>
      obtain rfl : t = .colon _ := by simpa using hcolon
      cases hword.1
    | cons u ts => exact ⟨u, ts, rfl⟩
  obtain ⟨hkinds, -⟩ := title.ne_endMarker line (Text.byteLength head.toList + 1)
    (Text.byteLength text.toList)
  have hne : ss ≠ [] := by
    obtain ⟨_, _, rfl, -⟩ := line.begins
    nofun
  have hlexical : ∀ v ∈ ss.map (Token.shift (Text.byteLength head.toList + 1 + 5)),
      v.kind.isLexical = true := List.forall_mem_map.mpr line.lexical
  obtain ⟨e, hrun'⟩ := Parser.runs_inline (inlinePlace_of_le (Nat.zero_le _))
    (fun _ => Level.ofBudget_tracked levelLimit) rfl
    (fun _ => Level.ofBudget_tracked (levelLimit - 1)) rfl rfl (title.embeds line hcolon _ _)
    (rest_ofTokens rfl hkinds) title.lexical hword (moved_line _ ss) hlexical (by simpa using hne)
    (fun c hc => Parser.simple_of_line line.lexical hne rfl hop hblock hc) hrun
  exact parse_eq_ok_iff.mpr ⟨_, e, hbehind, hrun', rfl⟩

/-- A header on two lines, and what it says. -/
def wideHeader : String := "async with f(a,\n  b)"

def wideHeaderTokens : List Token :=
  [⟨.name, ⟨0, 5⟩, "async"⟩, ⟨.name, ⟨6, 10⟩, "with"⟩, ⟨.name, ⟨11, 12⟩, "f"⟩,
    ⟨.op, ⟨12, 13⟩, "("⟩, ⟨.name, ⟨13, 14⟩, "a"⟩, ⟨.op, ⟨14, 15⟩, ","⟩, ⟨.name, ⟨18, 19⟩, "b"⟩,
    ⟨.op, ⟨19, 20⟩, ")"⟩, .colon 20]

/-- A simple statement with a colon in a literal. -/
def quotedColon : String := "c = 'd: e'"

theorem parse_inline_wideHeader : ∃ m, IsHeader wideHeader ∧ IsSimple quotedColon ∧
    parse (wideHeader ++ ":\n    " ++ quotedColon ++ "\n") = .ok m ∧
    parse (wideHeader ++ ": " ++ quotedColon ++ "\n") =
      .ok ⟨m.body.map (Stmt.move (inlinePlace (Text.byteLength wideHeader.toList + 1))),
        .ofText (wideHeader ++ ": " ++ quotedColon ++ "\n")⟩ := by
  have hbelow : (parse (wideHeader ++ ":\n    " ++ quotedColon ++ "\n")).isOk = true := by
    decide +kernel
  obtain ⟨m, hm⟩ := exists_parse_of_isOk hbelow
  have header : IsHeader wideHeader :=
    ⟨_, _, ⟨(by decide +kernel : tokenize (wideHeader ++ ":" ++ "\n") = .ok (wideHeaderTokens ++ _)),
      by decide, ⟨_, _, rfl, rfl⟩⟩, by decide, by decide +kernel⟩
  have simple : IsSimple quotedColon :=
    ⟨[⟨.name, ⟨0, 1⟩, "c"⟩, ⟨.op, ⟨2, 3⟩, "="⟩, ⟨.str, ⟨4, 10⟩, "'d: e'"⟩],
      ⟨by decide +kernel, by decide, ⟨_, _, rfl, rfl⟩⟩, by decide +kernel, by decide +kernel⟩
  exact ⟨m, header, simple, hm, parse_inline header simple hm⟩

/-- A word that is no keyword begins a block only where its line ends with a colon. -/
example : (parse "case 1:\n    pass\n").isOk = true ∧ (parse "case 1: pass\n").isOk = false := by
  decide +kernel

end WorkflowAudit.Script
