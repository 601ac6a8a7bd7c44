import Mathlib.Order.MinMax
import WorkflowAudit.Proofs.Script.Parser.Production
import WorkflowAudit.Proofs.Script.Relocation

/-!
# Parsers in two scripts

Two scripts may have some tokens in common, each at its own place, and other tokens behind them.
A parser that stops before the last one of these tokens cannot tell: it gives the same, only
where the other script has it. `Tracks` says so of a parser, and has one law for each way to put
parsers together.
-/

namespace WorkflowAudit.Script

/-! ## Cursors in two scripts -/

/-- What can come after a token that stands for text: another one, or the end of the line. -/
def Continues : List Token → Prop
  | [] => False
  | t :: _ => t.kind.isLexical = true ∨ t.kind = .newline ∧ t.text ∈ ["", "\n"]

/-- Tokens of whole lines, without the end marker. -/
def Lined : List Token → Prop
  | [] => True
  | t :: ts => t.kind ≠ .endMarker ∧ (t.kind.isLexical = true → Continues ts) ∧ Lined ts

theorem Continues.ne_nil {ts : List Token} (h : Continues ts) : ts ≠ [] := by
  rintro rfl
  exact h

theorem Lined.of_append {ts us : List Token} (h : Lined (ts ++ us)) : Lined us := by
  induction ts with
  | nil => exact h
  | cons t ts ih => exact ih h.2.2

theorem Lined.getLast? {ts : List Token} (h : Lined ts) : ∀ t ∈ ts.getLast?, t.kind ≠ .name := by
  induction ts with
  | nil => simp
  | cons t ts ih =>
    obtain ⟨-, hnext, hlined⟩ := h
    cases ts with
    | nil =>
      rintro u hu hname
      obtain rfl : t = u := by simpa using hu
      exact hnext (by rw [hname]; rfl)
    | cons u us => simpa [List.getLast?_cons_cons] using ih hlined

/-- Where tokens of one script stand in another one: the place of each byte, which of two bytes
comes first there as well, and the tokens behind them in either script. -/
structure Setting where
  place : Nat → Nat
  mono : Monotone place
  behind : List Token
  after : List Token

/-- A cursor in a script, and the one at the same token of another script. The last one of the
tokens that they have in common is no name, after which a parser would look at the next one. -/
structure Cursor.Embeds (x : Setting) (c c' : Cursor) : Prop where
  rest : ∃ ts us, c.rest = ts ++ x.behind ∧ List.Forall₂ (Token.Moved x.place) ts us ∧
    c'.rest = us ++ x.after ∧ ∀ t ∈ ts.getLast?, t.kind ≠ .name
  lastEnd : max c'.lastEnd (x.place 0) = x.place c.lastEnd
  depth : c'.depth = c.depth
  lined : Lined c.rest

namespace Cursor

/-- Whether the next token stands for text. -/
def AtText (c : Cursor) : Prop := c.peek.kind.isLexical = true

theorem AtText.rest_ne_nil {c : Cursor} (h : c.AtText) : c.rest ≠ [] := by
  intro hnil
  rw [AtText, peek, hnil] at h
  cases h

/-- Whether some token is left that is in both scripts. -/
def Before (x : Setting) (c : Cursor) : Prop := x.behind.length < c.rest.length

variable {x : Setting} {c c' : Cursor}

theorem Before.rest_ne_nil (h : c.Before x) : c.rest ≠ [] :=
  List.ne_nil_of_length_pos (Nat.lt_of_le_of_lt (Nat.zero_le _) h)

theorem before_iff (whole : x.behind = []) : c.Before x ↔ c.rest ≠ [] := by
  rw [Before, whole, List.length_nil, List.length_pos_iff]

namespace Embeds

/-- A script with other tokens behind it. -/
theorem of_lined (whole : x.behind = []) {ts : List Token}
    (hmoved : List.Forall₂ (Token.Moved x.place) c.rest ts) (hrest : c'.rest = ts ++ x.after)
    (hlast : max c'.lastEnd (x.place 0) = x.place c.lastEnd) (hdepth : c'.depth = c.depth)
    (hlined : Lined c.rest) : c.Embeds x c' :=
  ⟨⟨c.rest, ts, by rw [whole, List.append_nil], hmoved, hrest, hlined.getLast?⟩, hlast, hdepth,
    hlined⟩

/-- The next token in both scripts, and what is in common after it. -/
theorem exists_cons (h : c.Embeds x c') (hne : c.Before x) :
    ∃ t ts u us, c.rest = t :: (ts ++ x.behind) ∧ c'.rest = u :: (us ++ x.after) ∧
      t.Moved x.place u ∧ List.Forall₂ (Token.Moved x.place) ts us ∧
      ∀ v ∈ (t :: ts).getLast?, v.kind ≠ .name := by
  obtain ⟨ts, us, hrest, hmoved, hrest', hlast⟩ := h.rest
  cases hmoved with
  | nil => simp [Before, hrest] at hne
  | cons hfirst hmore => exact ⟨_, _, _, _, hrest, hrest', hfirst, hmore, hlast⟩

theorem cons (h : c.Embeds x c') (hne : c.Before x) {t : Token} {ts : List Token}
    (hrest : c.rest = t :: ts) : ∃ u us, c'.rest = u :: us ∧ t.Moved x.place u := by
  obtain ⟨t', ts', u, us, hrest', hother, hfirst, -⟩ := h.exists_cons hne
  obtain ⟨rfl, -⟩ := List.cons.inj (hrest.symm.trans hrest')
  exact ⟨u, _, hother, hfirst⟩

theorem peek (h : c.Embeds x c') (hne : c.Before x) : c.peek.Moved x.place c'.peek := by
  obtain ⟨t, ts, u, us, hrest, hrest', hmoved, -⟩ := h.exists_cons hne
  rwa [Cursor.peek_of_rest hrest, Cursor.peek_of_rest hrest']

theorem length_rest (h : c.Embeds x c') :
    c'.rest.length + x.behind.length = c.rest.length + x.after.length := by
  obtain ⟨ts, us, hrest, hmoved, hrest', -⟩ := h.rest
  rw [hrest, hrest', List.length_append, List.length_append, hmoved.length_eq]
  omega

/-- A token that stands for text is the same but for its place. -/
theorem peek_eq (h : c.Embeds x c') (hne : c.Before x) (ht : c.AtText) :
    c'.peek = c.peek.move x.place := by
  obtain ⟨hkind, htext, hspan⟩ := h.peek hne
  cases hpeek : c'.peek
  simp only [hpeek] at hkind htext hspan
  simp [Token.move, hkind, htext, hspan ht]

/-- Behind the last token in common each script has its own. -/
theorem rest_eq_after (h : c.Embeds x c') (hrest : c.rest = x.behind) : c'.rest = x.after := by
  obtain ⟨ts, us, hts, hmoved, hrest', -⟩ := h.rest
  obtain rfl : ts = [] := List.append_cancel_right (hts.symm.trans hrest)
  rw [hrest', List.forall₂_nil_left_iff.mp hmoved, List.nil_append]

/-- The end marker is no token of the rest. -/
theorem isKind_endMarker (h : c.Embeds x c') : c.isKind .endMarker = decide (c.rest = []) := by
  cases hrest : c.rest with
  | nil => simp [isKind, Cursor.peek, hrest]
  | cons t ts =>
    have ht := (hrest ▸ h.lined : Lined (t :: ts)).1
    simp [isKind, Cursor.peek_of_rest hrest, ht]

theorem advance (h : c.Embeds x c') (hne : c.Before x) : c.advance.Embeds x c'.advance := by
  obtain ⟨t, ts, u, us, hrest, hrest', hfirst, hmore, hnames⟩ := h.exists_cons hne
  obtain ⟨-, -, hlined⟩ := hrest ▸ h.lined
  refine ⟨⟨ts, us, rest_advance hrest, hmore, rest_advance hrest', fun v hv => hnames v ?_⟩, ?_, ?_, ?_⟩
  · cases ts with
    | nil => cases hv
    | cons => rwa [List.getLast?_cons_cons]
  · have hlast := h.lastEnd
    unfold Cursor.advance
    simp only [hrest, hrest', hfirst.kind]
    split
    case isTrue hlexical =>
      rw [hfirst.span hlexical]
      exact Nat.max_eq_left (x.mono (Nat.zero_le _))
    case isFalse => exact hlast
  · unfold Cursor.advance
    rw [hrest, hrest']
    exact h.depth
  · rwa [rest_advance hrest]

theorem toDepth (h : c.Embeds x c') (n : Nat) :
    Cursor.Embeds x { c with depth := n } { c' with depth := n } :=
  ⟨h.rest, h.lastEnd, rfl, h.lined⟩

/-- After a name comes another token in both scripts. -/
theorem second (h : c.Embeds x c') (hne : c.Before x) (ht : c.peek.kind = .name) :
    ∃ u u', c.second? = some u ∧ c'.second? = some u' ∧ u.Moved x.place u' := by
  obtain ⟨t, ts, v, vs, hrest, hrest', -, hmore, hnames⟩ := h.exists_cons hne
  cases hmore with
  | nil => exact absurd (Cursor.peek_of_rest hrest ▸ ht) (hnames t rfl)
  | cons hsecond => exact ⟨_, _, by simp [second?, hrest], by simp [second?, hrest'], hsecond⟩

end Embeds

end Cursor

namespace Parser

/-! ## Tests -/

/-- A test that gives the same at the same token of both scripts. -/
def Stable (x : Setting) (test : Cursor → α) : Prop :=
  ∀ ⦃c c' : Cursor⦄, c.Embeds x c' → c.Before x → test c' = test c

/-- A test that only tokens that stand for text pass. -/
def Textual (test : Cursor → Bool) : Prop := ∀ ⦃c : Cursor⦄, test c = true → c.AtText

/-- A test that only names pass. -/
def Naming (test : Cursor → Bool) : Prop := ∀ ⦃c : Cursor⦄, test c = true → c.peek.kind = .name

section

variable {x : Setting}

/-- A test of class and text of the next token. -/
theorem stable_peek (test : TokenKind → String → α) :
    Stable x fun c => test c.peek.kind c.peek.text := by
  intro c c' h hne
  have hpeek := h.peek hne
  dsimp only
  rw [hpeek.kind, hpeek.text]

theorem stable_isOp (text : String) : Stable x (·.isOp text) :=
  stable_peek fun kind found => kind = .op && found = text

theorem stable_isAnyOp (texts : List String) : Stable x (·.isAnyOp texts) :=
  stable_peek fun kind found => kind = .op && texts.contains found

theorem stable_isName (text : String) : Stable x (·.isName text) :=
  stable_peek fun kind found => kind = .name && found = text

theorem stable_isKind (kind : TokenKind) : Stable x (·.isKind kind) :=
  stable_peek fun found _ => decide (found = kind)

theorem Stable.map {test : Cursor → α} (h : Stable x test) (f : α → β) :
    Stable x fun c => f (test c) :=
  fun _ _ hc hne => congrArg f (h hc hne)

theorem Stable.or {test test' : Cursor → Bool} (h : Stable x test) (h' : Stable x test') :
    Stable x fun c => test c || test' c :=
  fun c c' hc hne => by dsimp only; rw [h hc hne, h' hc hne]

/-- A test that looks at the token after a name. -/
theorem Stable.andSecond {test : Cursor → Bool} (h : Stable x test) (hname : Naming test)
    (next : TokenKind → String → Bool) :
    Stable x fun c => test c && c.second?.any fun t => next t.kind t.text := by
  intro c c' hc hne
  dsimp only
  rw [h hc hne]
  cases htest : test c with
  | false => rfl
  | true =>
    obtain ⟨u, u', hu, hu', hmoved⟩ := hc.second hne (hname htest)
    simp [hu, hu', hmoved.kind, hmoved.text]

theorem textual_isOp (text : String) : Textual (·.isOp text) := fun c h => by
  rw [Cursor.AtText, of_decide_eq_true (Bool.and_eq_true_iff.mp h).1]
  rfl

theorem textual_isAnyOp (texts : List String) : Textual (·.isAnyOp texts) := fun c h => by
  rw [Cursor.AtText, of_decide_eq_true (Bool.and_eq_true_iff.mp h).1]
  rfl

theorem naming_isName (text : String) : Naming (·.isName text) := fun _ h =>
  of_decide_eq_true (Bool.and_eq_true_iff.mp h).1

theorem naming_isKind : Naming (·.isKind .name) := fun _ h => of_decide_eq_true h

theorem Naming.textual {test : Cursor → Bool} (h : Naming test) : Textual test := fun c htest => by
  rw [Cursor.AtText, h htest]
  rfl

theorem textual_isName (text : String) : Textual (·.isName text) := (naming_isName text).textual

end

/-! ## Parsers -/

theorem Runs.length_le {p : Parser α} {c d : Cursor} {a : α} (h : Runs p c a d) :
    d.rest.length ≤ c.rest.length := h.1

theorem Runs.before {p : Parser α} {c d : Cursor} {a : α} {x : Setting} (h : Runs p c a d)
    (hd : d.Before x) : c.Before x :=
  Nat.lt_of_lt_of_le hd h.length_le

/-- At places of a kind, what a parser gives before the last token that both scripts have another
one gives at the same place of the other script, changed by `f`. -/
def TracksAt (x : Setting) (P : Cursor → Prop) (f : α → β) (p : Parser α) (q : Parser β) : Prop :=
  ∀ ⦃c c' : Cursor⦄ ⦃a : α⦄ ⦃d : Cursor⦄, P c → c.Embeds x c' → Runs p c a d → d.Before x →
    ∃ d', Runs q c' (f a) d' ∧ d.Embeds x d'

/-- The same wherever the parser stands. -/
abbrev Tracks (x : Setting) (f : α → β) (p : Parser α) (q : Parser β) : Prop :=
  TracksAt x (fun _ => True) f p q

namespace TracksAt

variable {x : Setting} {P : Cursor → Prop} {f : α → β} {p : Parser α} {q : Parser β}

theorem of_tracks (h : Tracks x f p q) : TracksAt x P f p q :=
  fun _ _ _ _ _ hc hrun hne => h trivial hc hrun hne

/-- A parser that can only begin at text. -/
theorem of_text (h : TracksAt x Cursor.AtText f p q)
    (htext : ∀ ⦃c a d⦄, Runs p c a d → c.AtText) : Tracks x f p q :=
  fun _ _ _ _ _ hc hrun hne => h (htext hrun) hc hrun hne

theorem pure {a : α} {b : β} (h : f a = b) : TracksAt x P f (Pure.pure a) (Pure.pure b) := by
  intro c c' a' d _ hc hrun _
  obtain ⟨rfl, rfl⟩ := runs_pure.mp hrun
  exact ⟨c', runs_pure.mpr ⟨h, rfl⟩, hc⟩

theorem bind {k : α → Parser γ} {l : β → Parser δ} {g : γ → δ} (h : TracksAt x P f p q)
    (hk : ∀ a, Tracks x g (k a) (l (f a))) : TracksAt x P g (p >>= k) (q >>= l) := by
  intro c c' b d hP hc hrun hne
  obtain ⟨a, m, hp, hrun⟩ := runs_bind.mp hrun
  obtain ⟨m', hq, hm⟩ := h hP hc hp (hrun.before hne)
  obtain ⟨d', hl, hd⟩ := hk a trivial hm hrun hne
  exact ⟨d', runs_bind.mpr ⟨f a, m', hq, hl⟩, hd⟩

/-- A first step that gives the same in both scripts. -/
theorem after {p q : Parser α} {k : α → Parser γ} {l : α → Parser δ} {g : γ → δ}
    (h : TracksAt x P id p q) (hk : ∀ a, Tracks x g (k a) (l a)) :
    TracksAt x P g (p >>= k) (q >>= l) :=
  h.bind hk

theorem ite {p' : Parser α} {q' : Parser β} {b : Prop} [Decidable b] (h : TracksAt x P f p q)
    (h' : TracksAt x P f p' q') :
    TracksAt x P f (if b then p else p') (if b then q else q') := by
  split
  · exact h
  · exact h'

theorem fails (h : ∀ c a d, ¬Runs p c a d) : TracksAt x P f p q :=
  fun _ _ _ _ _ _ hrun _ => absurd hrun (h _ _ _)

/-- The next token, where it stands for text. -/
theorem bump {k : Token → Parser γ} {l : Token → Parser δ} {g : γ → δ}
    (h : ∀ t, Tracks x g (k t) (l (t.move x.place))) :
    TracksAt x Cursor.AtText g (Parser.bump >>= k) (Parser.bump >>= l) := by
  intro c c' b d ht hc hrun hne
  have hbefore := hrun.before hne
  rw [runs_bump_bind] at hrun
  obtain ⟨d', hl, hd⟩ := h _ trivial (hc.advance hbefore) hrun hne
  exact ⟨d', runs_bump_bind.mpr (hc.peek_eq hbefore ht ▸ hl), hd⟩

/-- The next token, looked at where it stands for text. -/
theorem peek {k : Token → Parser γ} {l : Token → Parser δ} {g : γ → δ}
    (h : ∀ t, TracksAt x Cursor.AtText g (k t) (l (t.move x.place))) :
    TracksAt x Cursor.AtText g (ask Cursor.peek >>= k) (ask Cursor.peek >>= l) := by
  intro c c' b d ht hc hrun hne
  have hbefore := hrun.before hne
  rw [runs_ask_bind] at hrun
  obtain ⟨d', hl, hd⟩ := h _ ht hc hrun hne
  exact ⟨d', runs_ask_bind.mpr (hc.peek_eq hbefore ht ▸ hl), hd⟩

/-- The start of the next token, where it stands for text. -/
theorem here {k : Nat → Parser γ} {l : Nat → Parser δ} {g : γ → δ}
    (h : ∀ start, Tracks x g (k start) (l (x.place start))) :
    TracksAt x Cursor.AtText g (Parser.here >>= k) (Parser.here >>= l) := by
  intro c c' b d ht hc hrun hne
  have hbefore := hrun.before hne
  rw [runs_here_bind] at hrun
  obtain ⟨d', hl, hd⟩ := h _ trivial hc hrun hne
  refine ⟨d', runs_here_bind.mpr ?_, hd⟩
  rw [hc.peek_eq hbefore ht]
  exact hl

end TracksAt

section

variable {x : Setting}

theorem tracks_ask {test : Cursor → α} (h : Stable x test) : Tracks x id (ask test) (ask test) := by
  intro c c' a d _ hc hrun hne
  obtain ⟨rfl, rfl⟩ := runs_ask.mp hrun
  exact ⟨c', runs_ask.mpr ⟨(h hc hne).symm, rfl⟩, hc⟩

/-- A token that is taken and not looked at. -/
theorem tracks_skip {p : Parser α} {q : Parser β} {f : α → β} (h : Tracks x f p q) :
    Tracks x f (bump >>= fun _ => p) (bump >>= fun _ => q) := by
  intro c c' b d _ hc hrun hne
  have hbefore := hrun.before hne
  rw [runs_bump_bind] at hrun
  obtain ⟨d', hl, hd⟩ := h trivial (hc.advance hbefore) hrun hne
  exact ⟨d', runs_bump_bind.mpr hl, hd⟩

theorem tracks_eat {test : Cursor → Bool} (h : Stable x test) :
    Tracks x id (eat test) (eat test) :=
  (tracks_ask h).after fun _ => .ite (tracks_skip (.pure rfl)) (.pure rfl)

theorem tracks_expect {test : Cursor → Bool} {fault : SyntaxFault} (h : Stable x test) :
    Tracks x id (do unless ← eat test do failWith fault) (do unless ← eat test do failWith fault) :=
  (tracks_eat h).after fun _ => .ite (.pure rfl) (.fails fun _ _ _ => by simp)

theorem tracks_expectOp (text : String) : Tracks x id (expectOp text) (expectOp text) :=
  tracks_expect (stable_isOp text)

theorem tracks_expectWord (text : String) : Tracks x id (expectWord text) (expectWord text) :=
  tracks_expect (stable_isName text)

theorem tracks_identifier : Tracks x id identifier identifier := by
  intro c c' name d _ hc hrun hne
  have hbefore := hrun.before hne
  obtain ⟨hname, rfl, rfl⟩ := runs_identifier.mp hrun
  have hpeek := hc.peek hbefore
  exact ⟨c'.advance, runs_identifier.mpr ⟨by rwa [hpeek.kind, hpeek.text], hpeek.text.symm, rfl⟩,
    hc.advance hbefore⟩

theorem runs_spanFrom_move {c c' d : Cursor} {start : Nat} {s : Span} (hc : c.Embeds x c')
    (hrun : Runs (spanFrom start) c s d) :
    d = c ∧ Runs (spanFrom (x.place start)) c' (s.move x.place) c' := by
  obtain ⟨rfl, rfl⟩ := runs_spanFrom.mp hrun
  refine ⟨rfl, runs_spanFrom.mpr ⟨?_, rfl⟩⟩
  have hfirst := x.mono (Nat.zero_le start)
  rw [Span.move, x.mono.map_max, ← hc.lastEnd, Nat.max_assoc, Nat.max_eq_right hfirst]

theorem tracks_spanFrom (start : Nat) :
    Tracks x (Span.move x.place) (spanFrom start) (spanFrom (x.place start)) := by
  intro c c' s d _ hc hrun _
  obtain ⟨rfl, hspan⟩ := runs_spanFrom_move hc hrun
  exact ⟨c', hspan, hc⟩

/-- The last step of a production. -/
theorem tracks_node {start : Nat} {build : Span → α} {build' : Span → β} {f : α → β}
    (h : ∀ s, f (build s) = build' (s.move x.place)) :
    Tracks x f (do return build (← spanFrom start))
      (do return build' (← spanFrom (x.place start))) :=
  (tracks_spanFrom start).bind fun s => .pure (h s)

theorem Tracks.nested {f : α → β} {p : Parser α} {q : Parser β} (h : Tracks x f p q) :
    Tracks x f (nested p) (nested q) := by
  intro c c' a d _ hc hrun hne
  obtain ⟨hroom, m, hinner, rfl⟩ := runs_nested.mp hrun
  rw [← hc.depth] at hroom
  obtain ⟨m', hq, hm⟩ := h trivial (hc.toDepth (c.depth + 1)) hinner hne
  refine ⟨_, runs_nested.mpr ⟨hroom, m', hc.depth ▸ hq, rfl⟩, ?_⟩
  rw [hm.depth]
  exact hm.toDepth _

/-- A choice made by a test that only text passes. -/
theorem tracks_whether {test : Cursor → Bool} {f : α → β} {p p' : Parser α} {q q' : Parser β}
    (h : Stable x test) (htext : Textual test) (hyes : TracksAt x Cursor.AtText f p q)
    (hno : Tracks x f p' q') :
    Tracks x f (do if ← ask test then p else p') (do if ← ask test then q else q') := by
  intro c c' a d _ hc hrun hne
  have hsame := h hc (hrun.before hne)
  rw [runs_ask_bind, runs_ite] at hrun
  rcases hrun with ⟨hpass, hrun⟩ | ⟨hpass, hrun⟩
  · obtain ⟨d', hq, hd⟩ := hyes (htext hpass) hc hrun hne
    exact ⟨d', runs_ask_bind.mpr (runs_ite.mpr (.inl ⟨hsame.trans hpass, hq⟩)), hd⟩
  · obtain ⟨d', hq, hd⟩ := hno trivial hc hrun hne
    exact ⟨d', runs_ask_bind.mpr (runs_ite.mpr (.inr ⟨hsame ▸ hpass, hq⟩)), hd⟩

/-! ## The last token in common -/

/-- A parser that takes a token gives the same in both scripts, also where this is the last one that
they have in common. -/
structure Reaches (x : Setting) (f : α → β) (p : Parser α) (q : Parser β) : Prop where
  takes : ∀ ⦃c : Cursor⦄ ⦃a : α⦄ ⦃d : Cursor⦄, Runs p c a d → d.rest.length < c.rest.length
  reaches : ∀ ⦃c c' : Cursor⦄ ⦃a : α⦄ ⦃d : Cursor⦄, c.Embeds x c' → Runs p c a d →
    x.behind.length ≤ d.rest.length → ∃ d', Runs q c' (f a) d' ∧ d.Embeds x d'

namespace Reaches

variable {f : α → β} {p : Parser α} {q : Parser β}

theorem tracks (h : Reaches x f p q) : Tracks x f p q :=
  fun _ _ _ _ _ hc hrun hne => h.reaches hc hrun (Nat.le_of_lt hne)

theorem fails (h : ∀ c a d, ¬Runs p c a d) : Reaches x f p q :=
  ⟨fun _ _ _ hrun => absurd hrun (h _ _ _), fun _ _ _ _ _ hrun => absurd hrun (h _ _ _)⟩

/-- After a parser that gives the same in both scripts. -/
theorem after {k : α → Parser γ} {l : β → Parser δ} {g : γ → δ} (h : Tracks x f p q)
    (hk : ∀ a, Reaches x g (k a) (l (f a))) : Reaches x g (p >>= k) (q >>= l) where
  takes c b d hrun := by
    obtain ⟨a, m, hp, hrun⟩ := runs_bind.mp hrun
    exact Nat.lt_of_lt_of_le ((hk a).takes hrun) hp.length_le
  reaches c c' b d hc hrun hd := by
    obtain ⟨a, m, hp, hrun⟩ := runs_bind.mp hrun
    obtain ⟨m', hq, hm⟩ := h trivial hc hp (Nat.lt_of_le_of_lt hd ((hk a).takes hrun))
    obtain ⟨d', hl, hd⟩ := (hk a).reaches hm hrun hd
    exact ⟨d', runs_bind.mpr ⟨f a, m', hq, hl⟩, hd⟩

theorem map {k : α → γ} {l : β → δ} {g : γ → δ} (h : Reaches x f p q)
    (hsame : ∀ a, g (k a) = l (f a)) :
    Reaches x g (p >>= fun a => Pure.pure (k a)) (q >>= fun b => Pure.pure (l b)) where
  takes c b d hrun := by
    obtain ⟨a, hp, rfl⟩ := runs_bind_pure.mp hrun
    exact h.takes hp
  reaches c c' b d hc hrun hd := by
    obtain ⟨a, hp, rfl⟩ := runs_bind_pure.mp hrun
    obtain ⟨d', hq, hd⟩ := h.reaches hc hp hd
    exact ⟨d', runs_bind_pure.mpr ⟨f a, hq, hsame a⟩, hd⟩

end Reaches

theorem reaches_expectOp (text : String) : Reaches x id (expectOp text) (expectOp text) where
  takes c a d hrun := by
    obtain ⟨hop, rfl⟩ := runs_expectOp.mp hrun
    have := List.length_pos_of_ne_nil (textual_isOp text hop).rest_ne_nil
    rw [Cursor.length_advance]
    omega
  reaches c c' a d hc hrun hd := by
    obtain ⟨hop, rfl⟩ := runs_expectOp.mp hrun
    have hlength := List.length_pos_of_ne_nil (textual_isOp text hop).rest_ne_nil
    rw [Cursor.length_advance] at hd
    have hbefore : c.Before x := by rw [Cursor.Before]; omega
    exact ⟨c'.advance, runs_expectOp.mpr ⟨(stable_isOp text hc hbefore).trans hop, rfl⟩,
      hc.advance hbefore⟩

/-! ## Loops -/

/-- The item of a turn, changed. -/
def Turn.map (f : α → β) : Turn α → Turn β
  | .item a => .item (f a)
  | .stop => .stop

theorem tracks_loop {f : α → β} {test : Cursor → Bool} {turn : Token → Parser (Turn α)}
    {turn' : Token → Parser (Turn β)} (htest : Stable x test)
    (h : ∀ t u, t.Moved x.place u → Tracks x (Turn.map f) (turn t) (turn' u)) :
    Tracks x (List.map f) (loop test turn) (loop test turn') := by
  intro c c' as d _ hc hrun hne
  rw [runs_loop] at hrun
  suffices hloop : ∃ d', LoopRuns test turn' c' (as.map f) d' ∧ d.Embeds x d' by
    obtain ⟨d', hloop, hd⟩ := hloop
    exact ⟨d', runs_loop.mpr hloop, hd⟩
  induction hrun generalizing c' with
  | done hdone => exact ⟨c', .done fun _ => (htest hc hne).trans (hdone hne.rest_ne_nil), hc⟩
  | @stop c d t ts hrest hpass hturn =>
    have hbefore := (runs_loop.mpr (.stop hrest hpass hturn)).before hne
    obtain ⟨u, us, hu, hmoved⟩ := hc.cons hbefore hrest
    obtain ⟨d', hturn', hd⟩ := h t u hmoved trivial (hc.advance hbefore) hturn hne
    exact ⟨d', .stop hu ((htest hc hbefore).trans hpass) hturn', hd⟩
  | @item c m d t ts a as hrest hpass hturn hmore ih =>
    have hbefore := (runs_loop.mpr (.item hrest hpass hturn hmore)).before hne
    obtain ⟨u, us, hu, hmoved⟩ := hc.cons hbefore hrest
    obtain ⟨m', hturn', hm⟩ := h t u hmoved trivial (hc.advance hbefore) hturn
      ((runs_loop.mpr hmore).before hne)
    obtain ⟨d', hmore', hd⟩ := ih hm hne
    exact ⟨d', .item hu ((htest hc hbefore).trans hpass) hturn' hmore', hd⟩

theorem Tracks.item {f : α → β} {p : Parser α} {q : Parser β} (h : Tracks x f p q) :
    Tracks x (Turn.map f) (p >>= fun a => Pure.pure (Turn.item a))
      (q >>= fun b => Pure.pure (Turn.item b)) :=
  h.bind fun _ => .pure rfl

theorem Tracks.loopItems {f : α → β} {p : Parser α} {q : Parser β} {test : Cursor → Bool}
    (h : Tracks x f p q) (htest : Stable x test) :
    Tracks x (List.map f) (loopItems test p) (loopItems test q) :=
  tracks_loop htest fun _ _ _ => Tracks.item h

theorem Tracks.separated {f : α → β} {p : Parser α} {q : Parser β} {closing : Cursor → Bool}
    (h : Tracks x f p q) (separator : String) (hclosing : Stable x closing) :
    Tracks x (List.map f) (separated separator closing p) (separated separator closing q) :=
  tracks_loop (stable_isOp separator) fun _ _ _ =>
    (tracks_ask hclosing).after fun _ => .ite (.pure rfl) (Tracks.item h)

end

end Parser

end WorkflowAudit.Script
