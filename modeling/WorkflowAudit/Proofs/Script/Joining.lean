import WorkflowAudit.Proofs.Script.Coverage
import WorkflowAudit.Proofs.Script.LineFeed

/-!
# The tokens of one text after another

A text whose last line has ended may be followed by another one. The tokens of the two are
those of the first, then those of the second, as many bytes further on as the first has; only
the ends of the blocks that the first leaves open come where the second has its first line.
-/

namespace WorkflowAudit

/-- The same bytes of a text that comes after `n` other bytes. -/
def Span.shift (n : Nat) (s : Span) : Span := ⟨s.start + n, s.stop + n⟩

/-- The same bytes of a text in which `place` says where each byte stands. -/
def Span.move (place : Nat → Nat) (s : Span) : Span := ⟨place s.start, place s.stop⟩

namespace Script

def Token.shift (n : Nat) (t : Token) : Token := ⟨t.kind, t.span.shift n, t.text⟩

def Token.move (place : Nat → Nat) (t : Token) : Token := ⟨t.kind, t.span.move place, t.text⟩

/-- The same token at another place; the place of a token of line structure does not count. -/
structure Token.Moved (place : Nat → Nat) (t u : Token) : Prop where
  kind : u.kind = t.kind
  text : u.text = t.text
  span : t.kind.isLexical = true → u.span = t.span.move place

theorem Token.moved_self (t : Token) : t.Moved id t := ⟨rfl, rfl, fun _ => rfl⟩

theorem Token.moved_shift (n : Nat) (t : Token) : t.Moved (· + n) (t.shift n) :=
  ⟨rfl, rfl, fun _ => rfl⟩

def SyntaxError.shift (n : Nat) (e : SyntaxError) : SyntaxError := ⟨e.fault, e.offset + n⟩

/-- The same result for a text that comes after `n` other bytes, where `move` moves a success. -/
def shifted {α : Type} (n : Nat) (move : α → α) : Except SyntaxError α → Except SyntaxError α
  | .error e => .error (e.shift n)
  | .ok a => .ok (move a)

@[simp]
theorem shifted_error {α : Type} (n : Nat) (move : α → α) (e : SyntaxError) :
    shifted n move (.error e) = .error (e.shift n) := rfl

@[simp]
theorem shifted_ok {α : Type} (n : Nat) (move : α → α) (a : α) :
    shifted n move (.ok a) = .ok (move a) := rfl

namespace Lexer

open Text

/-! ## Whole texts -/

/-- The tokens from a place to the end of a text. -/
inductive Completes : Place → List Token → Prop
  | done {st offset closing} (h : finish st offset = .ok closing) :
      Completes ⟨st, offset, []⟩ closing
  | step {p m ts us} (move : Move p ts m) (rest : Completes m us) : Completes p (ts ++ us)

theorem Reads.completes {p q : Place} {ts us : List Token} (h : Reads p ts q)
    (hrest : Completes q us) : Completes p (ts ++ us) := by
  induction h with
  | refl => exact hrest
  | step move _ ih =>
    rw [List.append_assoc]
    exact .step move (ih hrest)

theorem Completes.exists_reads {p : Place} {ts : List Token} (h : Completes p ts) :
    ∃ read st offset closing, Reads p read ⟨st, offset, []⟩ ∧ finish st offset = .ok closing ∧
      ts = read ++ closing := by
  induction h with
  | done h => exact ⟨[], _, _, _, .refl _, h, rfl⟩
  | step move _ ih =>
    obtain ⟨read, st, offset, closing, hreads, hfinish, rfl⟩ := ih
    exact ⟨_, st, offset, closing, .step move hreads, hfinish, (List.append_assoc _ _ _).symm⟩

/-- A move that writes nothing. -/
theorem Completes.skip {p m : Place} {ts : List Token} (h : Completes m ts) (move : Move p [] m) :
    Completes p ts :=
  .step move h

theorem enterLine_shift (st : State) (column offset n : Nat) :
    enterLine st column (offset + n) =
      shifted n (Prod.map id (List.map (Token.shift n))) (enterLine st column offset) := by
  unfold enterLine
  dsimp only
  split
  case isTrue => rfl
  case isFalse =>
    split
    case isTrue =>
      split
      case isTrue => simp [Token.shift, Span.shift, Span.point]
      case isFalse => rfl
    case isFalse => rfl

theorem finish_shift (st : State) (offset n : Nat) :
    finish st (offset + n) = shifted n (List.map (Token.shift n)) (finish st offset) := by
  unfold finish
  split
  case h_1 => rfl
  case h_2 => split <;> simp [Token.shift, Span.shift, Span.point]

theorem Move.shift {p q : Place} {ts : List Token} (h : Move p ts q) (n : Nat) :
    Move ⟨p.state, p.offset + n, p.rest⟩ (ts.map (Token.shift n))
      ⟨q.state, q.offset + n, q.rest⟩ := by
  have hoffset : ∀ a b : Nat, a + b + n = a + n + b := fun a b => by omega
  cases h with
  | skip inside reads =>
    rw [hoffset]
    exact .skip inside reads
  | feed inBrackets => 
    rw [hoffset]
    exact .feed inBrackets
  | @lineEnd st offset rest inside closed =>
    have hwritten : (lineEnding st offset).map (Token.shift n) = lineEnding st (offset + n) := by
      unfold lineEnding
      split
      · simp [Token.shift, Span.shift, hoffset]
      · rfl
    rw [hwritten, hoffset]
    exact .lineEnd inside closed
  | @token st offset c w rest kind brackets inside reads balance =>
    have hwritten : (tokenAt kind offset (c :: w)).shift n = tokenAt kind (offset + n) (c :: w) := by
      simp [Token.shift, tokenAt, Span.shift, hoffset]
    rw [List.map_singleton, hwritten, hoffset]
    exact .token inside reads balance
  | emptyLine atStart indented ends =>
    rw [hoffset]
    exact .emptyLine atStart indented ends
  | commentLine atStart indented ends =>
    rw [hoffset]
    exact .commentLine atStart indented ends
  | trailing atStart hne indented =>
    rw [hoffset]
    exact .trailing atStart hne indented
  | @enter st st' offset blanks rest written atStart indented content enters =>
    have henters := enterLine_shift st.begun (blanks.foldl advanceColumn 0)
      (offset + byteLength blanks) n
    rw [enters, hoffset] at henters
    rw [hoffset]
    exact .enter atStart indented content henters

theorem Completes.shift {p : Place} {ts : List Token} (h : Completes p ts) (n : Nat) :
    Completes ⟨p.state, p.offset + n, p.rest⟩ (ts.map (Token.shift n)) := by
  induction h with
  | done h => exact .done (by rw [finish_shift, h, shifted_ok])
  | step move _ ih =>
    rw [List.map_append]
    exact .step (move.shift n) ih

theorem Completes.run_eq {p : Place} {ts : List Token} (h : Completes p ts) (written : List Token) :
    run p.state p.offset p.rest written = .ok (written.reverse ++ ts) := by
  obtain ⟨read, st, offset, closing, hreads, hfinish, rfl⟩ := h.exists_reads
  rw [hreads.run_eq, run.eq_1, hfinish]
  simp [bind, Except.bind]

/-- A run goes on as one from the start of the text, `n` bytes further on. -/
theorem run_eq_ok_iff {st : State} {n : Nat} {cs : List Char} {written out : List Token} :
    run st n cs written = .ok out ↔ ∃ ts, Completes ⟨st, 0, cs⟩ ts ∧
      out = written.reverse ++ ts.map (Token.shift n) := by
  have hrun : ∀ {ts}, Completes ⟨st, 0, cs⟩ ts →
      run st n cs written = .ok (written.reverse ++ ts.map (Token.shift n)) := fun hts => by
    simpa using (hts.shift n).run_eq written
  constructor
  · intro h
    obtain ⟨ts, st', offset', closing, hreads, hfinish, -⟩ := exists_reads_of_run h
    obtain ⟨us, offset, hreads, -⟩ := hreads.shift 0
    obtain ⟨closing, hfinish, -⟩ := finish_offset hfinish offset
    have hcompletes := hreads.completes (.done hfinish)
    exact ⟨_, hcompletes, Except.ok.inj (h.symm.trans (hrun hcompletes))⟩
  · rintro ⟨ts, hts, rfl⟩
    exact hrun hts

/-! ## The second text -/

/-- The ends of `k` blocks at an offset. -/
def dedents (k offset : Nat) : List Token := List.replicate k ⟨.dedent, .point offset, ""⟩

theorem map_shift_dedents (n k offset : Nat) :
    (dedents k offset).map (Token.shift n) = dedents k (offset + n) := List.map_replicate

theorem moved_dedents (place : Nat → Nat) (k offset offset' : Nat) :
    List.Forall₂ (Token.Moved place) (dedents k offset) (dedents k offset') := by
  induction k with
  | zero => exact .nil
  | succ k ih => exact .cons ⟨rfl, rfl, nofun⟩ ih

/-- The rest of a line that was entered after some blocks ended. It may write one line end more
than it would have written without them. -/
theorem Completes.of_entered {p : Place} {ts : List Token} (h : Completes p ts) (n : Nat)
    (hp : p.state = ⟨[], [], false, false⟩) :
    ∃ gap, (∀ t ∈ gap, t.kind = .newline) ∧
      Completes ⟨⟨[], [], false, true⟩, p.offset + n, p.rest⟩ (gap ++ ts.map (Token.shift n)) := by
  let open_ : State := ⟨[], [], false, true⟩
  induction h with
  | @done st offset closing h =>
    subst hp
    cases h
    exact ⟨[⟨.newline, .point (offset + n), ""⟩], by simp, .done rfl⟩
  | @step p m ts us move rest ih =>
    have hinside : p.state.isInside = true := by rw [hp]; rfl
    cases move with
    | skip inside reads =>
      obtain ⟨gap, hgap, hmore⟩ := ih hp
      exact ⟨gap, hgap, hmore.skip ((@Move.skip open_ _ _ _ _ rfl reads).shift n)⟩
    | feed inBrackets => exact absurd (congrArg State.brackets hp) inBrackets
    | lineEnd inside closed =>
      subst hp
      exact ⟨_, by simp [lineEnding, Token.shift],
        .step ((@Move.lineEnd open_ _ _ rfl rfl).shift n) (rest.shift n)⟩
    | token inside reads balance =>
      subst hp
      refine ⟨[], by simp, ?_⟩
      rw [List.nil_append, List.map_append]
      exact .step ((@Move.token open_ _ _ _ _ _ _ rfl reads balance).shift n) (rest.shift n)
    | emptyLine atStart | commentLine atStart | trailing atStart | enter atStart =>
      cases hinside.symm.trans atStart

theorem enterLine_outermost {indents : List Nat} (hpos : ∀ w ∈ indents, 0 < w)
    (hne : indents ≠ []) (offset : Nat) :
    enterLine ⟨indents, [], false, false⟩ 0 offset =
      .ok (⟨[], [], false, true⟩, dedents indents.length offset) := by
  obtain ⟨w, ws, rfl⟩ := List.exists_cons_of_ne_nil hne
  have hall : ∀ v ∈ w :: ws, decide (0 < v) = true := fun v hv => by simpa using hpos v hv
  unfold enterLine
  dsimp only
  rw [if_neg (Nat.not_lt_zero _), if_pos (show 0 < (w :: ws).headD 0 from hpos w List.mem_cons_self),
    List.takeWhile_eq_self_iff.mpr hall, List.dropWhile_eq_nil_iff.mpr hall, if_pos List.headD_nil,
    List.map_const', dedents]

/-- A text whose first line is not indented, read where blocks are open: they end at that line,
or at the end of the text if it has no line with content. -/
theorem Completes.of_blocks {indents : List Nat} {p : Place} {ts : List Token}
    (h : Completes p ts) (n : Nat) (hpos : ∀ w ∈ indents, 0 < w) {atLineStart : Bool}
    (hp : p.state = ⟨[], [], atLineStart, false⟩)
    (hcomment : atLineStart = false → ∀ c ∈ p.rest.head?, c = '\n')
    (hfirst : ∀ t ∈ ts.head?, t.kind ≠ .indent) :
    ∃ offset gap, (∀ t ∈ gap, t.kind = .newline) ∧
      Completes ⟨⟨indents, [], atLineStart, false⟩, p.offset + n, p.rest⟩
        (dedents indents.length offset ++ (gap ++ ts.map (Token.shift n))) := by
  induction h generalizing atLineStart with
  | @done st offset closing h =>
    subst hp
    cases h
    refine ⟨offset + n, [], by simp, .done ?_⟩
    simp [finish, dedents, Token.shift, Span.shift, Span.point]
  | @step p m ts us move rest ih =>
    have hall := Completes.step move rest
    cases atLineStart with
    | false =>
      have hinside : p.state.isInside = true := by rw [hp]; rfl
      cases move with
      | skip inside reads =>
        cases hcomment rfl _ rfl
        cases reads
      | token inside reads =>
        cases hcomment rfl _ rfl
        cases reads
      | feed inBrackets => exact absurd (congrArg State.brackets hp) inBrackets
      | lineEnd inside closed =>
        subst hp
        obtain ⟨offset, gap, hgap, hmore⟩ := ih rfl (by simp) hfirst
        exact ⟨offset, gap, hgap,
          hmore.skip ((@Move.lineEnd ⟨indents, [], false, false⟩ _ _ rfl rfl).shift n)⟩
      | emptyLine atStart | commentLine atStart | trailing atStart | enter atStart =>
        cases hinside.symm.trans atStart
    | true =>
      have houtside : p.state.isInside = false := by rw [hp]; rfl
      cases move with
      | skip inside | lineEnd inside | token inside => cases inside.symm.trans houtside
      | feed inBrackets => exact absurd (congrArg State.brackets hp) inBrackets
      | emptyLine atStart indented ends =>
        obtain ⟨offset, gap, hgap, hmore⟩ := ih hp (by simp) hfirst
        exact ⟨offset, gap, hgap,
          hmore.skip ((@Move.emptyLine ⟨indents, [], true, false⟩ _ _ _ _ rfl indented ends).shift n)⟩
      | commentLine atStart indented ends =>
        subst hp
        obtain ⟨offset, gap, hgap, hmore⟩ := @ih false rfl
          (fun _ c hc => by simpa using (length_takeWhile_append.mp ends).2 c hc) hfirst
        exact ⟨offset, gap, hgap,
          hmore.skip ((@Move.commentLine ⟨indents, [], true, false⟩ _ _ _ _ rfl indented ends).shift n)⟩
      | trailing atStart hne indented =>
        subst hp
        obtain ⟨offset, gap, hgap, hmore⟩ := @ih false rfl (fun _ c hc => by cases hc) hfirst
        exact ⟨offset, gap, hgap,
          hmore.skip ((@Move.trailing ⟨indents, [], true, false⟩ _ _ rfl hne indented).shift n)⟩
      | @enter st st' offset blanks rest written atStart indented content enters =>
        subst hp
        cases enterLine_cases enters with
        | deeper => cases hfirst _ rfl rfl
        | back hindents hne => exact absurd (List.append_eq_nil_iff.mp hindents.symm).1 hne
        | level hcolumn =>
          have hzero : blanks.foldl advanceColumn 0 = 0 := hcolumn.symm
          by_cases hne : indents = []
          · subst hne
            exact ⟨0, [], by simp, hall.shift n⟩
          · obtain ⟨gap, hgap, hmore⟩ := rest.of_entered n rfl
            have henters := enterLine_outermost hpos hne (offset + byteLength blanks)
            rw [← hzero] at henters
            have hmove := (@Move.enter ⟨indents, [], true, false⟩ _ _ _ _ _ rfl indented content
              henters).shift n
            rw [map_shift_dedents] at hmove
            exact ⟨_, gap, hgap, .step hmove hmore⟩

/-! ## Both texts -/

/-- The tokens of a text that ends with a line feed: what is read of it, and the ends of the
blocks that it leaves open. -/
theorem exists_reads_of_endsLine {text : String} {out : List Token} (h : tokenize text = .ok out)
    (hend : EndsLine text.toList) :
    ∃ mark cs ts indents, text.toList = mark ++ cs ∧ isMark mark ∧
      (mark = [] → cs.head? ≠ some '\ufeff') ∧ EndsLine cs ∧ (∀ w ∈ indents, 0 < w) ∧
      Reads ⟨.initial, byteLength mark, cs⟩ ts
        ⟨⟨indents, [], true, false⟩, byteLength text.toList, []⟩ ∧
      out = ts ++ (dedents indents.length (byteLength text.toList) ++
        [⟨.endMarker, .point (byteLength text.toList), ""⟩]) := by
  obtain ⟨mark, cs, ts, ⟨indents, brackets, atLineStart, lineOpen⟩, offset, closing, htext, hmark,
    hhead, hreads, hfinish, rfl⟩ := exists_reads_of_tokenize h
  have hcs : EndsLine cs := EndsLine.of_append (htext ▸ hend)
  obtain rfl : brackets = [] := (exists_of_finish hfinish).1
  have hregular := hreads.regular regular_initial
  obtain rfl : atLineStart = true := hreads.atLineStart hcs (fun _ => rfl) rfl rfl
  obtain rfl : lineOpen = false := hregular.lineOpen rfl
  obtain rfl : offset = byteLength text.toList := by
    obtain ⟨w, hw, hoffset⟩ := hreads.rest_eq
    obtain rfl : cs = w := by simpa using hw
    rw [htext, byteLength_append]
    exact hoffset
  cases hfinish
  exact ⟨mark, cs, ts, indents, htext, hmark, hhead, hcs, hregular.indents, hreads,
    by simp [dedents]⟩

end Lexer

/-- The tokens of two texts, one after the other. -/
theorem tokenize_append {a b : String} {ts us : List Token} (ha : tokenize a = .ok ts)
    (hb : tokenize b = .ok us) (hend : Lexer.EndsLine a.toList)
    (hmark : b.toList.head? ≠ some '\ufeff') (hfirst : ∀ t ∈ us.head?, t.kind ≠ .indent) :
    ∃ init last moved gap, ts = init ++ [last] ∧ last.kind = .endMarker ∧
      List.Forall₂ (Token.Moved id) init moved ∧ (∀ t ∈ gap, t.kind = .newline) ∧
      tokenize (a ++ b) =
        .ok (moved ++ (gap ++ us.map (Token.shift (Text.byteLength a.toList)))) := by
  obtain ⟨mark, cs, read, indents, htext, hbom, hhead, hcs, hpos, hreads, rfl⟩ :=
    Lexer.exists_reads_of_endsLine ha hend
  obtain ⟨mark', cs', read', st, offset, closing, htext', hbom', -, hreads', hfinish, rfl⟩ :=
    Lexer.exists_reads_of_tokenize hb
  obtain rfl : mark' = [] := hbom'.resolve_right fun hsome => hmark (by rw [htext', hsome]; rfl)
  rw [List.nil_append] at htext'
  subst htext'
  obtain ⟨place, gap, hgap, hmore⟩ := (hreads'.completes (.done hfinish)).of_blocks
    (Text.byteLength a.toList) hpos rfl nofun hfirst
  rw [Text.byteLength_nil, Nat.zero_add] at hmore
  obtain ⟨written, st', offset', closing', hall, hfinish', htokens⟩ :=
    ((hreads.append hcs.endsFeed b.toList).completes hmore).exists_reads
  have htokenize : tokenize (a ++ b) = .ok (written ++ closing') := by
    have htext' : (a ++ b).toList = mark ++ (cs ++ b.toList) := by
      rw [String.toList_append, htext, List.append_assoc]
    refine Lexer.tokenize_of_reads htext' hbom (fun hnil => ?_) hall hfinish'
    cases cs with
    | nil => exact hmark
    | cons => exact hhead hnil
  refine ⟨read ++ Lexer.dedents indents.length _, _, read ++ Lexer.dedents indents.length place, gap,
    (List.append_assoc _ _ _).symm, rfl, ?_, hgap, ?_⟩
  · exact List.rel_append (List.forall₂_same.mpr fun t _ => t.moved_self)
      (Lexer.moved_dedents id _ _ _)
  · rw [htokenize, ← htokens, List.append_assoc]

end Script

end WorkflowAudit
