import WorkflowAudit.Proofs.Script.Concatenation

/-!
# A logical line, wherever it stands

A text may be one logical line, begun by its first token and ended where the text ends. Such a line
is read in the same way in every block and also behind the header of a block, on the same line. So
the tokens of a block with one line in it are those of the header and of the line, whether the line
is put below the header or behind its colon.
-/

namespace WorkflowAudit.Script

/-- The token of a line feed at an offset. -/
def Token.lineFeed (offset : Nat) : Token := ⟨.newline, ⟨offset, offset + 1⟩, "\n"⟩

/-- The token of a colon at an offset. -/
def Token.colon (offset : Nat) : Token := ⟨.op, ⟨offset, offset + 1⟩, ":"⟩

/-- A token of line structure that stands for no text. -/
def Token.mark (kind : TokenKind) (offset : Nat) : Token := ⟨kind, .point offset, ""⟩

theorem ne_of_lexical {ts : List Token} {kind : TokenKind} (hkind : kind.isLexical = false)
    (h : ∀ t ∈ ts, t.kind.isLexical = true) : ∀ t ∈ ts, t.kind ≠ kind := by
  rintro t ht rfl
  cases (h t ht).symm.trans hkind

/-- The tokens of a line of `width` bytes below a header that stops at `stop`. -/
def lineBelow (stop width : Nat) (ts : List Token) : List Token :=
  .lineFeed stop :: .mark .indent (stop + 5) :: (ts.map (Token.shift (stop + 5)) ++
    [.lineFeed (stop + 5 + width), .mark .dedent (stop + 5 + width + 1)])

/-- The tokens of a line of `width` bytes behind a header that stops at `stop`. -/
def lineBehind (stop width : Nat) (ts : List Token) : List Token :=
  ts.map (Token.shift (stop + 1)) ++ [.lineFeed (stop + 1 + width)]

/-- A text that is one logical line, with its tokens: the first one begins the text, and the line
ends where the text does. -/
structure IsLine (text : String) (ts : List Token) : Prop where
  tokens : tokenize (text ++ "\n") = .ok (ts ++
    [.lineFeed (Text.byteLength text.toList), .mark .endMarker (Text.byteLength text.toList + 1)])
  lexical : ∀ t ∈ ts, t.kind.isLexical = true
  begins : ∃ t more, ts = t :: more ∧ t.span.start = 0

namespace Lexer

open Text

/-! ## Moves on a line -/

theorem State.isInside_of_begun {st : State} (h : st.atLineStart = false) : st.isInside = true := by
  simp [State.isInside, h]

theorem Move.offset_lt {p q : Place} {ts : List Token} (h : Move p ts q)
    (inside : p.state.isInside = true) : p.offset < q.offset := by
  cases h with
  | @skip st offset c w => exact Nat.lt_add_of_pos_right (byteLength_pos (List.cons_ne_nil c w))
  | @token st offset c w => exact Nat.lt_add_of_pos_right (byteLength_pos (List.cons_ne_nil c w))
  | feed | lineEnd => exact Nat.lt_succ_self _
  | emptyLine atStart | commentLine atStart | trailing atStart | enter atStart =>
    cases inside.symm.trans atStart

/-- On a line that has begun nothing is read without a step forward. -/
theorem Reads.eq_of_offset {p q : Place} {ts : List Token} (h : Reads p ts q)
    (inside : p.state.isInside = true) (hoffset : q.offset = p.offset) : q = p := by
  cases h with
  | refl => rfl
  | step move reads =>
    have := move.offset_lt inside
    have := reads.offset_le
    omega

/-- A token that stands at the place of a reading is read first. -/
theorem Reads.exists_first {p q : Place} {t : Token} {ts : List Token} (h : Reads p (t :: ts) q)
    (inside : p.state.isInside = true) (hlexical : t.kind.isLexical = true)
    (hstart : t.span.start = p.offset) : ∃ m, Move p [t] m ∧ Reads m ts q := by
  obtain ⟨m, m', hbefore, hmove, hafter⟩ := Reads.cut (show Reads p ([] ++ t :: ts) q from h) hlexical
  obtain ⟨_, _, _, -, -, -, hoffset, -⟩ := hmove.exists_token hlexical
  obtain rfl := hbefore.eq_of_offset inside (hoffset.symm.trans hstart)
  exact ⟨m', hmove, hafter⟩

/-- The move over the end of a line. -/
theorem Move.exists_lineEnd {p q : Place} {t : Token} (h : Move p [t] q) (hkind : t.kind = .newline) :
    ∃ rest, p.rest = '\n' :: rest ∧ p.state.isInside = true ∧ p.state.brackets = [] ∧
      p.state.lineOpen = true ∧ t.span = ⟨p.offset, p.offset + 1⟩ ∧
      q = ⟨{ p.state with atLineStart := true, lineOpen := false }, p.offset + 1, rest⟩ := by
  generalize hts : [t] = ts at h
  have hmem : t ∈ ts := by simp [← hts]
  cases h with
  | skip | feed | emptyLine | commentLine | trailing => cases hts
  | @lineEnd st offset rest inside closed =>
    unfold lineEnding at hmem
    split at hmem
    case isTrue hopen =>
      obtain rfl := List.mem_singleton.mp hmem
      exact ⟨rest, rfl, inside, closed, hopen, rfl, rfl⟩
    case isFalse => cases hmem
  | @token st offset c w rest kind brackets inside reads =>
    have hlexical := isLexical_of_front reads
    obtain rfl := List.mem_singleton.mp hmem
    obtain rfl : kind = .newline := hkind
    cases hlexical
  | enter atStart indented content enters =>
    cases enterLine_cases enters with
    | deeper => cases hkind.symm.trans (congrArg Token.kind (List.mem_singleton.mp hmem))
    | back =>
      obtain ⟨_, -, rfl⟩ := List.mem_map.mp hmem
      cases hkind
    | level => cases hmem

/-- A token is read in every block, and on a line that other tokens have begun. -/
theorem Move.token_inBlocks {p q : Place} {t : Token} (h : Move p [t] q)
    (hlexical : t.kind.isLexical = true) (hbegun : p.state.atLineStart = false)
    (indents : List Nat) (lineOpen : Bool) :
    Move ⟨{ p.state with indents, lineOpen }, p.offset, p.rest⟩ [t]
      ⟨{ q.state with indents }, q.offset, q.rest⟩ := by
  obtain ⟨c, w, brackets, hrest, hfront, hbalance, -, htoken, hq⟩ := h.exists_front hlexical
  rw [hrest, htoken, hq]
  exact .token (State.isInside_of_begun hbegun) hfront hbalance

/-- A line that goes on is read in every block. -/
theorem Reads.inBlocks {p q : Place} {ts : List Token} (h : Reads p ts q)
    (hbegun : p.state.atLineStart = false) (hopen : p.state.lineOpen = true)
    (hlexical : ∀ t ∈ ts, t.kind.isLexical = true) (indents : List Nat) :
    Reads ⟨{ p.state with indents }, p.offset, p.rest⟩ ts
      ⟨{ q.state with indents }, q.offset, q.rest⟩ := by
  induction h with
  | refl => exact .refl _
  | @step p m q ts us move reads ih =>
    have hinside := State.isInside_of_begun hbegun
    obtain ⟨hts, hus⟩ := List.forall_mem_append.mp hlexical
    have hnext := move.reads.state_eq hopen hbegun hts
    have hbegun' : m.state.atLineStart = false := by rw [hnext]; exact hbegun
    have hopen' : m.state.lineOpen = true := by rw [hnext]; exact hopen
    refine .step ?_ (ih hbegun' hopen' hus)
    cases move with
    | skip inside hfront => exact .skip (State.isInside_of_begun hbegun) hfront
    | feed inBrackets => exact .feed inBrackets
    | lineEnd => cases hbegun'
    | token inside hfront balance =>
      exact .token (State.isInside_of_begun hbegun) hfront balance
    | emptyLine atStart | commentLine atStart | trailing atStart | enter atStart =>
      cases hinside.symm.trans atStart

/-- A text that its first token begins has content on its first line. -/
theorem Reads.exists_begin {cs : List Char} {t : Token} {ts : List Token} {q : Place}
    (h : Reads ⟨.initial, 0, cs⟩ (t :: ts) q) (hlexical : t.kind.isLexical = true)
    (hstart : t.span.start = 0) :
    hasContent cs = true ∧ Reads ⟨⟨[], [], false, false⟩, 0, cs⟩ (t :: ts) q := by
  generalize hp : (⟨.initial, 0, cs⟩ : Place) = p at h
  generalize hts : t :: ts = us at h
  cases h with
  | refl => cases hts
  | @step p m q us vs move reads =>
    have houtside : p.state.isInside = false := hp ▸ rfl
    -- Nothing is skipped before a token that begins the text.
    have hplace : us = [] → m.offset = 0 := by
      rintro rfl
      rw [List.nil_append] at hts
      have := (reads.spans.1 t (hts ▸ List.mem_cons_self)).1
      omega
    cases move with
    | skip inside | lineEnd inside | token inside => cases inside.symm.trans houtside
    | feed inBrackets => exact absurd (congrArg (·.state.brackets) hp).symm inBrackets
    | @emptyLine st offset blanks feed rest atStart indented ends =>
      have hne : blanks ++ feed ≠ [] := by rcases ends with rfl | rfl <;> simp
      have := byteLength_pos hne
      have := hplace rfl
      dsimp only at this
      omega
    | @commentLine st offset blanks w rest =>
      have := byteLength_pos (show blanks ++ '#' :: w ≠ [] by simp)
      have := hplace rfl
      dsimp only at this
      omega
    | @trailing st offset blanks atStart hne =>
      have := byteLength_pos hne
      have := hplace rfl
      dsimp only at this
      omega
    | @enter st st' offset blanks rest _ atStart indented content enters =>
      obtain ⟨rfl, rfl, hcs⟩ : st = .initial ∧ offset = 0 ∧ cs = blanks ++ rest := by
        simpa [eq_comm] using hp
      obtain rfl : us = [] := by
        cases us with
        | nil => rfl
        | cons u us =>
          obtain ⟨rfl, -⟩ := List.cons.inj hts
          cases hlexical.symm.trans (span_of_enterLine enters t List.mem_cons_self).2
      obtain rfl : blanks = [] := by
        by_contra hne
        have := byteLength_pos hne
        have := hplace rfl
        dsimp only at this
        omega
      cases enters
      subst hcs
      exact ⟨content, reads⟩

/-- The same reading `n` bytes further on. -/
theorem Reads.further {p q : Place} {ts : List Token} (h : Reads p ts q) (n : Nat) :
    Reads ⟨p.state, p.offset + n, p.rest⟩ (ts.map (Token.shift n)) ⟨q.state, q.offset + n, q.rest⟩ := by
  induction h with
  | refl => exact .refl _
  | step move _ ih =>
    rw [List.map_append]
    exact .step (move.shift n) ih

/-- What closes a text in which nothing is open. -/
theorem indents_of_finish {st : State} {offset : Nat} {last : Token}
    (h : finish st offset = .ok [last]) : st.indents = [] := by
  unfold finish at h
  split at h
  case h_1 => cases h
  case h_2 =>
    have hlength := congrArg List.length (Except.ok.inj h)
    simp only [List.length_append, List.length_map, List.length_cons, List.length_nil] at hlength
    exact List.eq_nil_of_length_eq_zero (by omega)

end Lexer

namespace IsLine

open Text Lexer

variable {text : String} {ts : List Token}

/-- What is read of the text before its line ends. -/
theorem exists_reads (h : IsLine text ts) :
    Reads ⟨.initial, 0, text.toList ++ ['\n']⟩ ts
      ⟨⟨[], [], false, true⟩, byteLength text.toList, ['\n']⟩ ∧
    (text.toList ++ ['\n']).head? ≠ some '\ufeff' := by
  obtain ⟨mark, cs, read, st, offset, closing, htext, hmark, hhead, hreads, hfinish, hout⟩ :=
    exists_reads_of_tokenize h.tokens
  obtain ⟨t, more, rfl, hstart⟩ := h.begins
  -- The line ends where the text does, and nothing else is open there.
  obtain ⟨-, init, rfl, -, -⟩ := exists_of_finish hfinish
  rw [← List.append_assoc, List.append_cons] at hout
  obtain ⟨hline, -⟩ := List.append_inj' hout rfl
  obtain rfl : init = [] := by
    rcases List.eq_nil_or_concat init with rfl | ⟨init, last, rfl⟩
    · rfl
    · rw [List.concat_eq_append, ← List.append_assoc] at hline
      have hlast := (List.cons.inj (List.append_inj' hline rfl).2).1
      have htext := text_of_finish hfinish last (by simp)
      rw [← hlast] at htext
      exact absurd (show "\n" = "" from htext) (by decide)
  rw [List.append_nil] at hline
  obtain ⟨m, m', hbefore, hmove, hafter⟩ := Reads.cut_line (hline ▸ hreads) rfl
  obtain ⟨rest, hrest, -, hclosed, hopen, hspan, rfl⟩ := hmove.exists_lineEnd rfl
  obtain rfl : mark = [] := by
    by_contra hne
    have := byteLength_pos hne
    have : byteLength mark ≤ t.span.start := (hbefore.spans.1 t List.mem_cons_self).1
    omega
  obtain rfl : cs = text.toList ++ ['\n'] := by simpa using htext.symm
  obtain ⟨w, hw, hoffset⟩ := hbefore.rest_eq
  have hplace : m.offset = byteLength text.toList := (Span.mk.inj hspan).1.symm
  obtain ⟨rfl, hm⟩ := append_inj_of_byteLength_eq hw (by rw [← hplace, hoffset]; simp)
  obtain rfl : rest = [] := by simpa using hm.trans hrest
  have hstate := congrArg Place.state (hafter.eq_of_nil rfl)
  have hbegun : m.state.atLineStart = false := by
    by_contra hstart
    have := (hbefore.regular regular_initial).lineOpen (by simpa using hstart)
    rw [hopen] at this
    cases this
  have hindents : m.state.indents = [] :=
    (congrArg State.indents hstate).symm.trans (indents_of_finish hfinish)
  have hm : m = ⟨⟨[], [], false, true⟩, byteLength text.toList, ['\n']⟩ := by
    rw [← hplace, ← hrest, ← hindents, ← hclosed, ← hbegun, ← hopen]
  exact ⟨hm ▸ hbefore, hhead rfl⟩

theorem content (h : IsLine text ts) : hasContent (text.toList ++ ['\n']) = true := by
  obtain ⟨t, more, rfl, hstart⟩ := h.begins
  exact (h.exists_reads.1.exists_begin (h.lexical t List.mem_cons_self) hstart).1

/-- The line, `n` bytes further on, in some blocks, and on a line that other tokens may have begun. -/
theorem reads (h : IsLine text ts) (n : Nat) (indents : List Nat) (lineOpen : Bool) :
    Reads ⟨⟨indents, [], false, lineOpen⟩, n, text.toList ++ ['\n']⟩ (ts.map (Token.shift n))
      ⟨⟨indents, [], false, true⟩, n + byteLength text.toList, ['\n']⟩ := by
  obtain ⟨t, more, rfl, hstart⟩ := h.begins
  obtain ⟨ht, hmore⟩ := List.forall_mem_cons.mp h.lexical
  obtain ⟨-, hreads⟩ := h.exists_reads.1.exists_begin ht hstart
  obtain ⟨m, hmove, hafter⟩ := hreads.exists_first rfl ht hstart
  obtain ⟨_, _, brackets, -, -, -, -, hstate⟩ := hmove.exists_token ht
  have hfirst := hmove.token_inBlocks ht rfl indents lineOpen
  have hothers := hafter.inBlocks (by rw [hstate]) (by rw [hstate]) hmore indents
  simpa [Nat.add_comm] using (Reads.step hfirst hothers).further n

/-- The end of a line in some blocks. -/
theorem reads_lineFeed (indents : List Nat) (offset : Nat) (rest : List Char) :
    Reads ⟨⟨indents, [], false, true⟩, offset, '\n' :: rest⟩ [.lineFeed offset]
      ⟨⟨indents, [], true, false⟩, offset + 1, rest⟩ :=
  (Move.lineEnd rfl rfl).reads

/-- A colon on a line, and a blank behind it. -/
theorem reads_colon (indents : List Nat) (lineOpen : Bool) (offset : Nat) (rest : List Char) :
    Reads ⟨⟨indents, [], false, lineOpen⟩, offset, ':' :: ' ' :: rest⟩
      [.colon offset] ⟨⟨indents, [], false, true⟩, offset + 2, rest⟩ := by
  have hcolon : front ':' ([] ++ ' ' :: rest) = .ok (.token .op, 0) := rfl
  have hblank : front ' ' ([] ++ rest) = .ok (.skipped, 0) := rfl
  exact (Move.token (w := []) rfl hcolon rfl).reads.trans (Move.skip (w := []) rfl hblank).reads

theorem endsLine_colon (cs : List Char) : EndsLine (cs ++ [':', '\n']) := by
  refine .inr ⟨by simp, ?_, ?_⟩
  · rintro ⟨before, hbefore⟩
    cases (List.append_inj' hbefore rfl).2
  · rintro ⟨before, hbefore⟩
    rw [List.append_cons] at hbefore
    cases (List.append_inj' hbefore rfl).2

variable {head : String} {hs : List Token}

/-- What is read of a header, and that no byte-order mark begins a text that it begins. -/
theorem reads_title (header : IsLine (head ++ ":") hs) :
    Reads ⟨.initial, 0, head.toList ++ [':', '\n']⟩ hs
      ⟨⟨[], [], false, true⟩, byteLength head.toList + 1, ['\n']⟩ ∧
    ∀ rest, (head.toList ++ ':' :: rest).head? ≠ some '\ufeff' := by
  obtain ⟨hreads, hmark⟩ := header.exists_reads
  have htitle : (head ++ ":").toList = head.toList ++ [':'] := String.toList_append
  rw [htitle, byteLength_append, List.append_assoc] at hreads
  rw [htitle] at hmark
  refine ⟨hreads, fun rest => ?_⟩
  cases hhead : head.toList with
  | nil => simp
  | cons c cs => simpa [hhead] using hmark

/-- The tokens of a header and of a line below it. -/
theorem tokenize_below (header : IsLine (head ++ ":") hs) (line : IsLine text ts) :
    let stop := byteLength head.toList + 1
    let width := byteLength text.toList
    tokenize (head ++ ":\n    " ++ text ++ "\n") =
      .ok (hs ++ lineBelow stop width ts ++ [.mark .endMarker (stop + 5 + width + 1)]) := by
  intro stop width
  obtain ⟨hreads, hmark⟩ := header.reads_title
  have htitle := (hreads.trans (reads_lineFeed [] stop [])).append (endsLine_colon head.toList).endsFeed
    (' ' :: ' ' :: ' ' :: ' ' :: (text.toList ++ ['\n']))
  have hindent : ∀ b ∈ [' ', ' ', ' ', ' '], isIndentation b = true := by simp [isIndentation]
  have henter : Move
      ⟨⟨[], [], true, false⟩, stop + 1, ' ' :: ' ' :: ' ' :: ' ' :: (text.toList ++ ['\n'])⟩
      [.mark .indent (stop + 5)] ⟨⟨[4], [], false, true⟩, stop + 5, text.toList ++ ['\n']⟩ :=
    .enter rfl hindent line.content rfl
  have hblock := (henter.reads.trans (line.reads (stop + 5) [4] true)).trans
    (reads_lineFeed [4] (stop + 5 + width) [])
  have htokens := @tokenize_of_reads (head ++ ":\n    " ++ text ++ "\n") [] _ _ _ _ _
    (by simp) (.inl rfl)
    (fun _ => by simpa using hmark ('\n' :: ' ' :: ' ' :: ' ' :: ' ' :: (text.toList ++ ['\n'])))
    (htitle.trans hblock) rfl
  simpa [lineBelow, Token.mark] using htokens

/-- The tokens of a header and of a line behind its colon. -/
theorem tokenize_behind (header : IsLine (head ++ ":") hs)
    (hcolon : hs.getLast? = some (.colon (byteLength head.toList))) (line : IsLine text ts) :
    let stop := byteLength head.toList + 1
    let width := byteLength text.toList
    tokenize (head ++ ": " ++ text ++ "\n") =
      .ok (hs ++ lineBehind stop width ts ++ [.mark .endMarker (stop + 1 + width + 1)]) := by
  intro stop width
  obtain ⟨hs, rfl⟩ := List.getLast?_eq_some_iff.mp hcolon
  obtain ⟨hreads, hmark⟩ := header.reads_title
  obtain ⟨m, m', hbefore, hcolon, hafter⟩ := hreads.cut rfl
  obtain ⟨_, _, brackets, -, -, hinside, hplace, hstate⟩ := hcolon.exists_token rfl
  obtain ⟨w, hw, hoffset⟩ := hbefore.rest_eq
  dsimp only [Token.colon] at hplace hw hoffset
  obtain ⟨rfl, hrest⟩ := append_inj_of_byteLength_eq hw (by omega)
  -- The line state before the colon is that of the end of the line.
  have hbegun := (hbefore.coherent fun _ => rfl).atLineStart_eq hinside
  have hm' := hafter.eq_of_offset (State.isInside_of_begun (by rw [hstate]; exact hbegun))
    (hcolon.stop_eq _ List.mem_cons_self)
  have hbrackets := hcolon.reads.brackets_eq (fun us hus => by
    rcases List.prefix_cons_iff.mp hus with rfl | ⟨_, rfl, hnil⟩
    · decide
    · rw [List.prefix_nil.mp hnil]
      exact Int.le_refl 0) rfl
  have hm : m.state = ⟨[], [], false, m.state.lineOpen⟩ := by
    rw [← hm'] at hstate hbrackets
    have hindents : m.state.indents = [] := (congrArg State.indents hstate).symm
    have hclosed : m.state.brackets = [] := hbrackets.symm
    rw [← hindents, ← hclosed, ← hbegun]
  obtain ⟨hs', htitle, -, hsame⟩ := hbefore.transplant (text.toList ++ ['\n']) 0 hw
    (show m.rest = [':'] ++ '\n' :: [] from hrest.symm) nofun (y := ' ') (by decide) nofun nofun
  obtain rfl := hsame rfl
  rw [hm, Nat.zero_add] at htitle
  have hline := (reads_colon [] m.state.lineOpen (byteLength head.toList)
    (text.toList ++ ['\n'])).trans (line.reads (stop + 1) [] true)
  have hwhole := (htitle.trans hline).trans (reads_lineFeed [] (stop + 1 + width) [])
  have htokens := @tokenize_of_reads (head ++ ": " ++ text ++ "\n") [] _ _ _ _ _ (by simp) (.inl rfl)
    (fun _ => hmark (' ' :: (text.toList ++ ['\n']))) hwhole rfl
  simpa [lineBehind, Token.mark] using htokens

end IsLine

end WorkflowAudit.Script
