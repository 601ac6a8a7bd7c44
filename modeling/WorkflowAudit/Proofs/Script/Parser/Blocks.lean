import WorkflowAudit.Proofs.Script.Nesting
import WorkflowAudit.Proofs.Script.Parser.Lines

/-!
# Blocks inside a longer script

A statement may be the last one of a script, with nothing left behind it. It then stops at the
end of its line or of its block, where it has asked for nothing beyond: inside a block some
dedent is still to come, and on a line some token or the end of the line. `Carries` says so
with what holds before and after a parser.
-/

namespace WorkflowAudit.Script

/-! ## Lines and blocks -/

/-- Tokens that end `k` more blocks than they begin. -/
def Ends (k : Nat) (ts : List Token) : Prop := countKind .dedent ts = k + countKind .indent ts

theorem ends_cons_of_others {k : Nat} {t : Token} {ts : List Token} (hindent : t.kind ≠ .indent)
    (hdedent : t.kind ≠ .dedent) : Ends k (t :: ts) ↔ Ends k ts := by
  simp [Ends, countKind, hindent, hdedent]

theorem ends_cons_indent {k : Nat} {t : Token} {ts : List Token} (h : t.kind = .indent) :
    Ends k (t :: ts) ↔ Ends (k + 1) ts := by
  simp [Ends, countKind, h]
  omega

theorem ends_cons_dedent {k : Nat} {t : Token} {ts : List Token} (h : t.kind = .dedent) :
    Ends (k + 1) (t :: ts) ↔ Ends k ts := by
  simp [Ends, countKind, h]
  omega

theorem Ends.of_append {k : Nat} {ts us : List Token} (h : Ends k (ts ++ us))
    (hts : ∀ t ∈ ts, t.kind.isLexical = true) : Ends k us := by
  induction ts with
  | nil => exact h
  | cons t ts ih =>
    have ht := hts t List.mem_cons_self
    refine ih ((ends_cons_of_others ?_ ?_).mp h) fun u hu => hts u (List.mem_cons_of_mem t hu)
    · intro hkind
      rw [hkind] at ht
      cases ht
    · intro hkind
      rw [hkind] at ht
      cases ht

/-- Tokens of a line stand for text, and the line goes on behind them. -/
theorem Continues.of_append {ts us : List Token} (h : Continues (ts ++ us))
    (hlined : Lined (ts ++ us)) (hts : ∀ t ∈ ts, t.kind ≠ .newline) :
    (∀ t ∈ ts, t.kind.isLexical = true) ∧ Continues us := by
  induction ts with
  | nil => exact ⟨nofun, h⟩
  | cons t ts ih =>
    obtain ⟨-, hnext, hlined⟩ := hlined
    have ht := h.resolve_right fun hline => hts t List.mem_cons_self hline.1
    obtain ⟨hmore, hus⟩ := ih (hnext ht) hlined fun u hu => hts u (List.mem_cons_of_mem t hu)
    exact ⟨List.forall_mem_cons.mpr ⟨ht, hmore⟩, hus⟩

namespace Cursor

/-- Whether the next token stands on the line of a token before it. -/
def OnLine (c : Cursor) : Prop := Continues c.rest

/-- Whether some token is left. -/
def Inside (c : Cursor) : Prop := c.rest ≠ []

def Anywhere (_ : Cursor) : Prop := True

theorem AtText.onLine {c : Cursor} (h : c.AtText) : c.OnLine := by
  obtain ⟨t, ts, hrest⟩ := List.exists_cons_of_ne_nil h.rest_ne_nil
  rw [OnLine, hrest]
  exact .inl (peek_of_rest hrest ▸ h)

theorem AtText.advance_onLine {x : Setting} {c c' : Cursor} (h : c.AtText) (hc : c.Embeds x c') :
    c.advance.OnLine := by
  obtain ⟨t, ts, hrest⟩ := List.exists_cons_of_ne_nil h.rest_ne_nil
  obtain ⟨-, hnext, -⟩ := hrest ▸ hc.lined
  rw [OnLine, rest_advance hrest]
  exact hnext (peek_of_rest hrest ▸ h)

end Cursor

namespace Parser

open Cursor (OnLine AtText Inside Anywhere)

/-- A parser takes tokens of one line only. -/
def OneLine (p : Parser α) : Prop :=
  ∀ ⦃c : Cursor⦄ ⦃a : α⦄ ⦃d : Cursor⦄, Runs p c a d →
    ∃ ts, Took c ts d ∧ ∀ t ∈ ts, t.kind ≠ .newline

theorem GivesAll.oneLine {parts : α → List Expr} {p : Parser α} (h : GivesAll parts p) :
    OneLine p := fun c a d hrun => by
  obtain ⟨ts, hts, hspread⟩ := h hrun
  exact ⟨ts, hts, hspread.onLine⟩

/-- What a parser gives in a whole script between places of two kinds another one gives in the longer
script, changed by `f`, and it ends as many blocks as it begins. -/
def Carries (x : Setting) (P Q : Cursor → Prop) (f : α → β) (p : Parser α) (q : Parser β) : Prop :=
  x.behind = [] → ∀ ⦃k : Nat⦄ ⦃c c' : Cursor⦄ ⦃a : α⦄ ⦃d : Cursor⦄, P c → c.Embeds x c' →
    Ends k c.rest → Runs p c a d →
      ∃ d', Runs q c' (f a) d' ∧ d.Embeds x d' ∧ Ends k d.rest ∧ Q d

section

variable {x : Setting} {inner : Level} {P Q R : Cursor → Prop}

namespace Carries

variable {f : α → β} {p : Parser α} {q : Parser β}

theorem of_tracks (h : Tracks x f p q) (hline : OneLine p) : Carries x OnLine OnLine f p q := by
  intro whole k c c' a d hP hc hends hrun
  obtain ⟨ts, htook, hts⟩ := hline hrun
  obtain ⟨hlexical, honLine⟩ :=
    Continues.of_append (htook.rest ▸ hP) (htook.rest ▸ hc.lined) hts
  obtain ⟨d', hq, hd⟩ := h trivial hc hrun ((Cursor.before_iff whole).mpr honLine.ne_nil)
  exact ⟨d', hq, hd, .of_append (htook.rest ▸ hends) hlexical, honLine⟩

/-- A parser that can only begin at text. -/
theorem of_text (h : Carries x OnLine Q f p q) (htext : ∀ ⦃c a d⦄, Runs p c a d → c.AtText) :
    Carries x P Q f p q :=
  fun whole _ _ _ _ _ _ hc hends hrun => h whole (htext hrun).onLine hc hends hrun

theorem anywhere (h : Carries x P Q f p q) : Carries x P Anywhere f p q := by
  intro whole k c c' a d hP hc hends hrun
  obtain ⟨d', hq, hd, hends, -⟩ := h whole hP hc hends hrun
  exact ⟨d', hq, hd, hends, trivial⟩

theorem pure {a : α} {b : β} (h : f a = b) : Carries x P P f (Pure.pure a) (Pure.pure b) := by
  intro _ k c c' a' d hP hc hends hrun
  obtain ⟨rfl, rfl⟩ := runs_pure.mp hrun
  exact ⟨c', runs_pure.mpr ⟨h, rfl⟩, hc, hends, hP⟩

theorem bind {k : α → Parser γ} {l : β → Parser δ} {g : γ → δ} (h : Carries x P Q f p q)
    (hk : ∀ a, Carries x Q R g (k a) (l (f a))) : Carries x P R g (p >>= k) (q >>= l) := by
  intro whole n c c' b d hP hc hends hrun
  obtain ⟨a, m, hp, hrun⟩ := runs_bind.mp hrun
  obtain ⟨m', hq, hm, hends, hQ⟩ := h whole hP hc hends hp
  obtain ⟨d', hl, hd, hends, hR⟩ := hk a whole hQ hm hends hrun
  exact ⟨d', runs_bind.mpr ⟨f a, m', hq, hl⟩, hd, hends, hR⟩

/-- A first step that gives the same in both scripts. -/
theorem after {p q : Parser α} {k : α → Parser γ} {l : α → Parser δ} {g : γ → δ}
    (h : Carries x P Q id p q) (hk : ∀ a, Carries x Q R g (k a) (l a)) :
    Carries x P R g (p >>= k) (q >>= l) :=
  h.bind hk

theorem ite {p' : Parser α} {q' : Parser β} {b : Prop} [Decidable b] (h : Carries x P Q f p q)
    (h' : Carries x P Q f p' q') :
    Carries x P Q f (if b then p else p') (if b then q else q') := by
  split
  · exact h
  · exact h'

theorem fails (h : ∀ c a d, ¬Runs p c a d) : Carries x P Q f p q :=
  fun _ _ _ _ _ _ _ _ _ hrun => absurd hrun (h _ _ _)

theorem nested (h : Carries x OnLine Anywhere f p q) :
    Carries x OnLine Anywhere f (nested p) (nested q) := by
  intro whole k c c' a d hP hc hends hrun
  obtain ⟨hroom, m, hinner, rfl⟩ := runs_nested.mp hrun
  rw [← hc.depth] at hroom
  obtain ⟨m', hq, hm, hends, -⟩ :=
    h whole (c := { c with depth := c.depth + 1 }) hP (hc.toDepth (c.depth + 1)) hends hinner
  refine ⟨_, runs_nested.mpr ⟨hroom, m', hc.depth ▸ hq, rfl⟩, ?_, hends, trivial⟩
  rw [hm.depth]
  exact hm.toDepth _

/-- The next token, where it stands for text. -/
theorem bump {k : Token → Parser γ} {l : Token → Parser δ} {g : γ → δ}
    (h : ∀ t, Carries x OnLine Q g (k t) (l (t.move x.place))) :
    Carries x AtText Q g (Parser.bump >>= k) (Parser.bump >>= l) := by
  intro whole n c c' b d ht hc hends hrun
  have hbefore : c.Before x := (Cursor.before_iff whole).mpr ht.rest_ne_nil
  rw [runs_bump_bind] at hrun
  obtain ⟨t, ts, hrest⟩ := List.exists_cons_of_ne_nil ht.rest_ne_nil
  have hends' : Ends n c.advance.rest := by
    have hall : Ends n ([t] ++ ts) := by
      rw [hrest] at hends
      exact hends
    rw [Cursor.rest_advance hrest]
    refine hall.of_append ?_
    simpa [Cursor.AtText, Cursor.peek_of_rest hrest] using ht
  obtain ⟨d', hl, hd⟩ := h _ whole (ht.advance_onLine hc) (hc.advance hbefore) hends' hrun
  exact ⟨d', runs_bump_bind.mpr (hc.peek_eq hbefore ht ▸ hl), hd⟩

/-- The next token on a line, of which only the text is looked at. -/
theorem bumpText {k : String → Parser γ} {l : String → Parser δ} {g : γ → δ}
    (h : ∀ word, Carries x OnLine Q g (k word) (l word))
    (hnone : ∀ word ∈ ["", "\n"], ∀ c a d, ¬Runs (k word) c a d) :
    Carries x OnLine Q g ((·.text) <$> Parser.bump >>= k) ((·.text) <$> Parser.bump >>= l) := by
  intro whole n c c' b d hP hc hends hrun
  obtain ⟨word, m, hword, hrun⟩ := runs_bind.mp hrun
  obtain ⟨t, ht, rfl⟩ := runs_map.mp hword
  obtain ⟨rfl, rfl⟩ := runs_bump.mp ht
  have htext : c.AtText := by
    obtain ⟨t, ts, hrest⟩ := List.exists_cons_of_ne_nil hP.ne_nil
    rw [OnLine, hrest] at hP
    rw [Cursor.peek_of_rest hrest] at hrun
    rw [Cursor.AtText, Cursor.peek_of_rest hrest]
    exact hP.resolve_right fun hline => hnone _ hline.2 _ _ _ hrun
  obtain ⟨d', hl, hd⟩ := Carries.bump (l := fun t => l t.text) (fun t => h t.text) whole htext hc
    hends (runs_bump_bind.mpr hrun)
  rw [runs_bump_bind] at hl
  exact ⟨d', runs_bind.mpr ⟨_, _, runs_map.mpr ⟨_, runs_bump.mpr ⟨rfl, rfl⟩, rfl⟩, hl⟩, hd⟩

end Carries

/-- A choice made by a test that only text passes. -/
theorem carries_whether {test : Cursor → Bool} {f : α → β} {p p' : Parser α} {q q' : Parser β}
    (h : Stable x test) (htext : Textual test) (hyes : Carries x AtText Q f p q)
    (hno : Carries x Inside Q f p' q') :
    Carries x Inside Q f (do if ← ask test then p else p') (do if ← ask test then q else q') := by
  intro whole k c c' a d hP hc hends hrun
  have hsame := h hc ((Cursor.before_iff whole).mpr hP)
  rw [runs_ask_bind, runs_ite] at hrun
  rcases hrun with ⟨hpass, hrun⟩ | ⟨hpass, hrun⟩
  · obtain ⟨d', hq, hd⟩ := hyes whole (htext hpass) hc hends hrun
    exact ⟨d', runs_ask_bind.mpr (runs_ite.mpr (.inl ⟨hsame.trans hpass, hq⟩)), hd⟩
  · obtain ⟨d', hq, hd⟩ := hno whole hP hc hends hrun
    exact ⟨d', runs_ask_bind.mpr (runs_ite.mpr (.inr ⟨hsame ▸ hpass, hq⟩)), hd⟩

theorem carries_ask {test : Cursor → α} (h : Stable x test) (hP : ∀ c, P c → c.Inside) :
    Carries x P P id (ask test) (ask test) := by
  intro whole k c c' a d hc hembeds hends hrun
  obtain ⟨rfl, rfl⟩ := runs_ask.mp hrun
  have hsame := h hembeds ((Cursor.before_iff whole).mpr (hP _ hc))
  exact ⟨c', runs_ask.mpr ⟨hsame.symm, rfl⟩, hembeds, hends, hc⟩

/-- The last step of a production. -/
theorem carries_node {start : Nat} {build : Span → α} {build' : Span → β} {f : α → β}
    (h : ∀ s, f (build s) = build' (s.move x.place)) :
    Carries x P Anywhere f (do return build (← spanFrom start))
      (do return build' (← spanFrom (x.place start))) := by
  intro _ k c c' a d hP hc hends hrun
  obtain ⟨s, hspan, rfl⟩ := runs_bind_pure.mp hrun
  obtain ⟨rfl, hspan'⟩ := runs_spanFrom_move hc hspan
  exact ⟨c', runs_bind_pure.mpr ⟨_, hspan', h s⟩, hc, hends, trivial⟩

/-! ## Line structure -/

/-- The next token, if it is of a kind, in both scripts. -/
theorem embeds_of_isKind (whole : x.behind = []) {kind : TokenKind} (hkind : kind ≠ .endMarker)
    {c c' : Cursor} (hc : c.Embeds x c') (h : c.isKind kind = true) :
    ∃ t ts, c.rest = t :: ts ∧ t.kind = kind ∧ c'.isKind kind = true ∧
      c.advance.Embeds x c'.advance := by
  obtain ⟨t, ts, hrest, ht⟩ := (Cursor.isKind_iff hkind).mp h
  have hbefore : c.Before x := (Cursor.before_iff whole).mpr (by simp [hrest])
  exact ⟨t, ts, hrest, ht, (stable_isKind kind hc hbefore).trans h, hc.advance hbefore⟩

theorem embeds_of_lineEnd (whole : x.behind = []) {k : Nat} {c c' : Cursor} (hc : c.Embeds x c')
    (hends : Ends k c.rest) (h : c.isKind .newline = true) :
    c'.isKind .newline = true ∧ c.advance.Embeds x c'.advance ∧ Ends k c.advance.rest := by
  obtain ⟨t, ts, hrest, hkind, hline, hadvance⟩ := embeds_of_isKind whole (by decide) hc h
  rw [hrest, ends_cons_of_others (by rw [hkind]; decide) (by rw [hkind]; decide)] at hends
  exact ⟨hline, hadvance, by rwa [Cursor.rest_advance hrest]⟩

/-- The end of a line, where it is taken. -/
theorem carries_lineEnd {fault : SyntaxFault} :
    Carries x P Anywhere id (expectKind .newline fault) (expectKind .newline fault) := by
  intro whole k c c' a d _ hc hends hrun
  obtain ⟨hline, rfl⟩ := runs_expectKind.mp hrun
  obtain ⟨hline', hadvance, hends'⟩ := embeds_of_lineEnd whole hc hends hline
  exact ⟨c'.advance, runs_expectKind.mpr ⟨hline', rfl⟩, hadvance, hends', trivial⟩

/-- A choice made by whether the line ends here. -/
theorem carries_eatLine {f : α → β} {p p' : Parser α} {q q' : Parser β}
    (hP : ∀ c, P c → c.Inside) (hyes : Carries x Anywhere Q f p q)
    (hno : Carries x P Q f p' q') :
    Carries x P Q f (do if ← eat (·.isKind .newline) then p else p')
      (do if ← eat (·.isKind .newline) then q else q') := by
  intro whole k c c' a d hc hembeds hends hrun
  have hsame := stable_isKind .newline hembeds ((Cursor.before_iff whole).mpr (hP c hc))
  rw [runs_eat_bind] at hrun
  rcases hrun with ⟨hline, hrun⟩ | ⟨hline, hrun⟩
  · obtain ⟨hline', hadvance, hends'⟩ := embeds_of_lineEnd whole hembeds hends hline
    obtain ⟨d', hq, hd⟩ := hyes whole trivial hadvance hends' hrun
    exact ⟨d', runs_eat_bind.mpr (.inl ⟨hline', hq⟩), hd⟩
  · obtain ⟨d', hq, hd⟩ := hno whole hc hembeds hends hrun
    exact ⟨d', runs_eat_bind.mpr (.inr ⟨hsame.trans hline, hq⟩), hd⟩

/-! ## Statements -/

theorem all_smallStatement (h : inner.Sound) : GivesAll Stmt.exprs (smallStatement inner) := by
  intro c s d hrun
  obtain ⟨ts, hts, -, hspread⟩ := spread_smallStatement h hrun
  exact ⟨ts, hts, hspread⟩

/-- The statements of a line whose first one has been read. -/
def lineFrom (inner : Level) (first : Stmt) : Parser (List Stmt) := do
  let more ← separated ";" (·.isKind .newline) (smallStatement inner)
  unless ← ask (·.isKind .endMarker) do expectKind .newline .missingStatementEnd
  return first :: more

theorem carries_lineFrom (h : inner.Tracked x) (first : Stmt) :
    Carries x Cursor.OnLine Cursor.Anywhere (List.map (Stmt.move x.place)) (lineFrom inner first)
      (lineFrom inner (first.move x.place)) :=
  (Carries.of_tracks ((tracks_smallStatement h).separated ";" (stable_isKind .newline))
    ((all_smallStatement h.sound).separated (by decide) _).oneLine).bind fun _ =>
      (carries_ask (stable_isKind .endMarker) fun _ hline => hline.ne_nil).after fun _ => .ite
        (Carries.pure rfl).anywhere (carries_lineEnd.after fun _ => .pure rfl)

theorem carries_simpleStatements (h : inner.Tracked x) :
    Carries x P Anywhere (List.map (Stmt.move x.place)) (simpleStatements inner)
      (simpleStatements inner) := by
  have hline : simpleStatements inner = smallStatement inner >>= lineFrom inner := rfl
  refine .of_text (hline ▸ (Carries.of_tracks (tracks_smallStatement h)
    (all_smallStatement h.sound).oneLine).bind fun _ => carries_lineFrom h _) fun c ss d hrun => ?_
  rw [simpleStatements, runs_bind] at hrun
  obtain ⟨first, m, hfirst, -⟩ := hrun
  obtain ⟨ts, hts, ⟨t, us, rfl, ht⟩, -⟩ := spread_smallStatement h.sound hfirst
  rwa [Cursor.AtText, hts.peek_eq]

theorem carries_decorator (h : inner.Tracked x) :
    Carries x AtText Anywhere (Stmt.move x.place) (decorator inner) (decorator inner) :=
  .bump fun _ => (Carries.of_tracks (tracks_namedTest h) (gives_namedTest h.sound).all.oneLine).bind
    fun _ => carries_lineEnd.after fun _ => carries_node fun _ => Stmt.move_other ..

/-- The statements of a block are read in both scripts. -/
abbrev CarriesSuite (x : Setting) (inner : Level) : Prop :=
  Carries x OnLine Anywhere (List.map (Stmt.move x.place)) inner.suite inner.suite

/-- The header and the statements of a clause, after its keyword. -/
theorem carries_blockClause (h : inner.Tracked x) (hsuite : CarriesSuite x inner) (start : Nat)
    (keyword : String) : Carries x OnLine Anywhere (Stmt.move x.place) (do
      let (name, header) ← blockHeader inner keyword
      let body ← nested inner.suite
      return .block (← spanFrom start) keyword name header body) (do
      let (name, header) ← blockHeader inner keyword
      let body ← nested inner.suite
      return .block (← spanFrom (x.place start)) keyword name header body) :=
  (Carries.of_tracks (tracks_blockHeader h keyword)
    (gives_blockHeader h.sound keyword).oneLine).bind fun _ =>
      hsuite.nested.bind fun _ => carries_node fun _ => Stmt.move_block ..

theorem carries_block (h : inner.Tracked x) (hsuite : CarriesSuite x inner) :
    Carries x AtText Anywhere (Stmt.move x.place) (block inner) (block inner) := by
  refine .bump fun first => ?_
  have hclause := carries_blockClause h hsuite first.span.start
  refine .ite (.bumpText hclause ?_) ((Carries.pure (f := id) rfl).bind hclause)
  intro word hword c s d hrun
  obtain ⟨header, m, hheader, -⟩ := runs_bind.mp hrun
  simp only [List.mem_cons, List.not_mem_nil, or_false] at hword
  rcases hword with rfl | rfl <;> simp [blockHeader] at hheader

/-- A line that goes on ends among the tokens of its script, so it is the same line in the longer
one. -/
theorem lexemes_of_line {ts us : List Token} (hmoved : List.Forall₂ (Token.Moved x.place) ts us)
    (h : Continues ts) (hlined : Lined ts) :
    ((us ++ x.after).takeWhile (·.kind ≠ .newline)).map Token.lexeme =
      (ts.takeWhile (·.kind ≠ .newline)).map Token.lexeme := by
  induction hmoved with
  | nil => exact absurd rfl h.ne_nil
  | @cons t u ts us hfirst hmore ih =>
    obtain ⟨-, hnext, hlined⟩ := hlined
    rw [List.cons_append]
    by_cases ht : t.kind = .newline
    · rw [List.takeWhile_cons_of_neg (by simp [hfirst.kind, ht]),
        List.takeWhile_cons_of_neg (by simp [ht])]
    · have hsame : u.lexeme = t.lexeme := Prod.ext hfirst.kind hfirst.text
      rw [List.takeWhile_cons_of_pos (by simp [hfirst.kind, ht]),
        List.takeWhile_cons_of_pos (by simp [ht]), List.map_cons, List.map_cons, hsame,
        ih (hnext (h.resolve_right fun hline => ht hline.1)) hlined]

/-- Whether a line ends with a colon is read off what its tokens say. -/
theorem lineEndsWithColon_eq_lexemes (c : Cursor) : lineEndsWithColon c =
    ((c.rest.takeWhile (·.kind ≠ .newline)).map Token.lexeme).getLast?.any fun l =>
      l.1 = .op && l.2 = ":" := by
  rw [List.getLast?_map, Option.any_map]
  rfl

theorem lineEndsWithColon_eq (whole : x.behind = []) {c c' : Cursor} (hc : c.Embeds x c')
    (h : c.OnLine) : lineEndsWithColon c' = lineEndsWithColon c := by
  obtain ⟨ts, us, hts, hmoved, hrest, -⟩ := hc.rest
  rw [whole, List.append_nil] at hts
  subst hts
  rw [lineEndsWithColon_eq_lexemes, lineEndsWithColon_eq_lexemes, hrest,
    lexemes_of_line hmoved h hc.lined]

theorem stable_atBlock (whole : x.behind = []) : Stable x atBlock := by
  intro c c' hc hne
  have hpeek := hc.peek hne
  simp only [atBlock, stable_isKind .name hc hne, hpeek.text]
  cases hname : c.isKind .name with
  | false => rfl
  | true => rw [lineEndsWithColon_eq whole hc (textual_isKind rfl hname).onLine]

theorem carries_statement (h : inner.Tracked x) (hsuite : CarriesSuite x inner) :
    Carries x Inside Anywhere (List.map (Stmt.move x.place)) (statement inner)
      (statement inner) := by
  have hblock : Textual atBlock := fun c htest =>
    textual_isKind rfl (Bool.and_eq_true_iff.mp htest).1
  intro whole
  exact carries_whether (stable_isOp "@") (textual_isOp "@")
    ((carries_decorator h).bind fun _ => .pure rfl) (carries_whether (stable_atBlock whole) hblock
      ((carries_block h hsuite).bind fun _ => .pure rfl) (carries_simpleStatements h)) whole

/-! ## Repetitions -/

/-- A parser that takes a token wherever one is left. -/
def Progresses (p : Parser α) : Prop :=
  ∀ ⦃c : Cursor⦄ ⦃a : α⦄ ⦃d : Cursor⦄, c.Inside → Runs p c a d → d.rest.length < c.rest.length

theorem progresses_bump {k : Token → Parser α} : Progresses (bump >>= k) := by
  intro c a d hinside hrun
  have hle := (runs_bump_bind.mp hrun).length_le
  have hpos := List.length_pos_of_ne_nil hinside
  rw [Cursor.length_advance] at hle
  omega

theorem Progresses.bind {p : Parser α} {k : α → Parser β} (h : Progresses p) :
    Progresses (p >>= k) := by
  intro c b d hinside hrun
  obtain ⟨a, m, hp, hrun⟩ := runs_bind.mp hrun
  exact Nat.lt_of_le_of_lt hrun.length_le (h hinside hp)

theorem Progresses.whether {test : Cursor → Bool} {p q : Parser α} (hp : Progresses p)
    (hq : Progresses q) : Progresses (do if ← ask test then p else q) := by
  intro c a d hinside hrun
  rw [runs_ask_bind, runs_ite] at hrun
  rcases hrun with ⟨-, hrun⟩ | ⟨-, hrun⟩
  · exact hp hinside hrun
  · exact hq hinside hrun

theorem progresses_smallStatement (h : inner.Sound) : Progresses (smallStatement inner) := by
  intro c s d _ hrun
  obtain ⟨ts, htook, ⟨t, us, rfl, -⟩, -⟩ := spread_smallStatement h hrun
  rw [htook.rest, List.cons_append, List.length_cons, List.length_append]
  omega

theorem progresses_statement (h : inner.Sound) : Progresses (statement inner) :=
  .whether (.bind progresses_bump) (.whether (.bind progresses_bump)
    (.bind (progresses_smallStatement h)))

/-- A repetition that is cut off by the end of the script goes on in the longer one. -/
theorem ManyRuns.carries (whole : x.behind = []) {test : Cursor → Bool} {item : Parser α}
    {item' : Parser β} {f : α → β} (htest : Stable x test) (hinside : ∀ c, test c = true → c.Inside)
    (hitem : Carries x Inside Anywhere f item item') (hprogress : Progresses item) {k : Nat}
    {c c' d : Cursor} {as : List α} (h : ManyRuns test item c as d) (hc : c.Embeds x c')
    (hends : Ends k c.rest) :
    test d = false ∧ Ends k d.rest ∧ ∃ d', d.Embeds x d' ∧ ∀ bs e,
      ManyRuns test item' d' bs e → ManyRuns test item' c' (as.map f ++ bs) e := by
  induction h generalizing c' with
  | done hdone => exact ⟨hdone, hends, c', hc, fun bs e hmore => hmore⟩
  | last hpass hrun hsame => exact absurd hsame (Nat.ne_of_lt (hprogress (hinside _ hpass) hrun))
  | @item c m d a as hpass hrun hless hmore ih =>
    obtain ⟨m', hrun', hm, hends, -⟩ := hitem whole (hinside c hpass) hc hends hrun
    obtain ⟨hdone, hends, d', hd, hall⟩ := ih hm hends
    refine ⟨hdone, hends, d', hd, fun bs e hrest => .item ?_ hrun' ?_ (hall bs e hrest)⟩
    · exact (htest hc ((Cursor.before_iff whole).mpr (hinside c hpass))).trans hpass
    · have hlength := hc.length_rest
      have hlength' := hm.length_rest
      omega

theorem carries_suite (h : inner.Tracked x) (hsuite : CarriesSuite x inner) :
    Carries x OnLine Anywhere (List.map (Stmt.move x.place)) (suite inner) (suite inner) := by
  refine carries_eatLine (fun _ hline => hline.ne_nil) ?_ (carries_simpleStatements h)
  intro whole k c c' ss d _ hc hends hrun
  rw [runs_bind] at hrun
  obtain ⟨_, m, hrunIndent, hrun⟩ := hrun
  obtain ⟨hindent, rfl⟩ := runs_expectKind.mp hrunIndent
  rw [runs_bind] at hrun
  obtain ⟨body, m, hbody, hrun⟩ := hrun
  rw [runs_eat_bind] at hrun
  obtain ⟨t, ts, hrest, ht, hindent', hc⟩ := embeds_of_isKind whole (by decide) hc hindent
  have hends : Ends (k + 1) c.advance.rest := by
    rw [hrest, ends_cons_indent ht] at hends
    rwa [Cursor.rest_advance hrest]
  have htest : Stable x fun c => !c.isKind .dedent && !c.isKind .endMarker :=
    stable_peek fun kind _ => !decide (kind = .dedent) && !decide (kind = .endMarker)
  have hinside : ∀ c : Cursor, (!c.isKind .dedent && !c.isKind .endMarker) = true → c.Inside := by
    rintro c hpass hnil
    simp [Cursor.isKind, Cursor.peek, hnil] at hpass
  obtain ⟨hdone, hends, m', hm, hall⟩ := (runs_many.mp hbody).carries whole htest hinside
    (carries_statement h hsuite) (progresses_statement h.sound) hc hends
  -- A block is open, so its end is still to come.
  have hmore : m.Inside := by
    intro hnil
    rw [hnil] at hends
    simp [Ends, countKind] at hends
  have hdedent : m.isKind .dedent = true := by
    have hend : m.isKind .endMarker = false := hm.isKind_endMarker.trans (decide_eq_false hmore)
    simpa [hend] using hdone
  obtain ⟨u, us, hrest, hu, hdedent', hd⟩ := embeds_of_isKind whole (by decide) hm hdedent
  have hends : Ends k m.advance.rest := by
    rw [hrest, ends_cons_dedent hu] at hends
    rwa [Cursor.rest_advance hrest]
  rcases hrun with ⟨-, hrun⟩ | ⟨hnone, -⟩
  · obtain ⟨rfl, rfl⟩ := runs_pure.mp hrun
    refine ⟨m'.advance, ?_, hd, hends, trivial⟩
    have hbody' := hall [] m' (.done ((htest hm ((Cursor.before_iff whole).mpr hmore)).trans hdone))
    rw [List.append_nil] at hbody'
    refine runs_bind.mpr ⟨(), _, runs_expectKind.mpr ⟨hindent', rfl⟩, runs_bind.mpr
      ⟨_, _, runs_many.mpr hbody', runs_eat_bind.mpr (.inl ⟨hdedent', ?_⟩)⟩⟩
    exact runs_pure.mpr ⟨List.map_flatten, rfl⟩
  · rw [hdedent] at hnone
    cases hnone

theorem carries_topLevel (h : inner.Tracked x) (hsuite : CarriesSuite x inner) :
    Carries x Inside Anywhere (List.map (Stmt.move x.place)) (topLevel inner)
      (topLevel inner) :=
  carries_eatLine (fun _ => id) (.pure rfl)
    ((carries_ask ((stable_isKind .indent).or (stable_isKind .dedent)) fun _ => id).after fun _ =>
      .ite (.fails (by simp)) (carries_statement h hsuite))

theorem progresses_topLevel (h : inner.Sound) : Progresses (topLevel inner) := by
  intro c ss d hinside hrun
  rw [topLevel, runs_eat_bind] at hrun
  rcases hrun with ⟨-, hrun⟩ | ⟨-, hrun⟩
  · obtain ⟨-, rfl⟩ := runs_pure.mp hrun
    have := List.length_pos_of_ne_nil hinside
    rw [Cursor.length_advance]
    omega
  · rw [if_neg Bool.false_ne_true, runs_ask_bind, runs_ite] at hrun
    rcases hrun with ⟨-, hrun⟩ | ⟨-, hrun⟩
    · simp at hrun
    · exact progresses_statement h hinside hrun

/-- The statements of a script are read at its place in a longer one, and then the rest of the
longer one. -/
theorem carries_statements (whole : x.behind = []) (h : inner.Tracked x)
    (hsuite : CarriesSuite x inner) {c c' d : Cursor} {ss : List Stmt} (hc : c.Embeds x c')
    (hends : Ends 0 c.rest) (hrun : Runs (statements inner) c ss d) :
    ∃ d', d.Embeds x d' ∧ d'.rest = x.after ∧ ∀ rs e, Runs (statements inner) d' rs e →
      Runs (statements inner) c' (ss.map (Stmt.move x.place) ++ rs) e := by
  obtain ⟨body, hbody, rfl⟩ := runs_bind_pure.mp hrun
  have htest : Stable x fun c => !c.isKind .endMarker := (stable_isKind .endMarker).map not
  have hinside : ∀ c : Cursor, (!c.isKind .endMarker) = true → c.Inside := by
    rintro c hpass hnil
    simp [Cursor.isKind, Cursor.peek, hnil] at hpass
  obtain ⟨hdone, -, d', hd, hall⟩ := (runs_many.mp hbody).carries whole htest hinside
    (carries_topLevel h hsuite) (progresses_topLevel h.sound) hc hends
  have hend : d.rest = [] := by
    simpa [hd.isKind_endMarker] using hdone
  refine ⟨d', hd, hd.rest_eq_after (hend.trans whole.symm), fun rs e hmore => ?_⟩
  obtain ⟨body', hbody', rfl⟩ := runs_bind_pure.mp hmore
  refine runs_bind_pure.mpr ⟨_, runs_many.mpr (hall _ _ (runs_many.mp hbody')), ?_⟩
  rw [List.flatten_append, List.map_flatten]

end

end Parser

namespace Level

theorem suite_carries (x : Setting) : ∀ n, Parser.CarriesSuite x (ofBudget n)
  | 0 => .fails (by simp [ofBudget, exhausted])
  | n + 1 => Parser.carries_suite (ofBudget_tracked n) (suite_carries x n)

end Level

end WorkflowAudit.Script
