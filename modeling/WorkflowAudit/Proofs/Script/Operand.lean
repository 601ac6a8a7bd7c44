import WorkflowAudit.Proofs.Script.Parser.Assignment

/-!
# A line of tokens in the place of an operand

A logical line that its last token ends may stand before a colon or between brackets, on the same line
as other tokens. It is read in the same way there.
-/

namespace WorkflowAudit.Script

open Text

namespace Lexer

/-! ## Brackets around a line -/

theorem brackets?_append {brackets brackets' : List Char} {c : Char} (outer : List Char)
    (h : brackets? brackets c = .ok brackets') :
    brackets? (brackets ++ outer) c = .ok (brackets' ++ outer) := by
  unfold brackets? at h ⊢
  split at h
  case isTrue hopener =>
    cases h
    rw [if_pos hopener]
    rfl
  case isFalse hopener =>
    rw [if_neg hopener]
    split at h
    case h_1 => exact congrArg (fun b => Except.ok (b ++ outer)) (Except.ok.inj h)
    case h_2 expected =>
      split at h
      case h_1 b below =>
        split at h
        case isTrue hb =>
          cases h
          exact if_pos hb
        case isFalse => cases h
      case h_2 => cases h

theorem bracketsAfter_append {kind : TokenKind} {brackets brackets' : List Char} {c : Char}
    (outer : List Char) (h : bracketsAfter kind brackets c = .ok brackets') :
    bracketsAfter kind (brackets ++ outer) c = .ok (brackets' ++ outer) := by
  unfold bracketsAfter at h ⊢
  split at h
  case isTrue hop => rw [if_pos hop, brackets?_append outer h]
  case isFalse hop => rw [if_neg hop, Except.ok.inj h]

/-- A line that goes on is read between any brackets. -/
theorem Reads.inBrackets {p q : Place} {ts : List Token} (h : Reads p ts q)
    (hbegun : p.state.atLineStart = false) (hopen : p.state.lineOpen = true)
    (hlexical : ∀ t ∈ ts, t.kind.isLexical = true) (outer : List Char) :
    Reads ⟨{ p.state with brackets := p.state.brackets ++ outer }, p.offset, p.rest⟩ ts
      ⟨{ q.state with brackets := q.state.brackets ++ outer }, q.offset, q.rest⟩ := by
  induction h with
  | refl => exact .refl _
  | @step p m q ts us move reads ih =>
    have hinside := State.isInside_of_begun hbegun
    obtain ⟨hts, hus⟩ := List.forall_mem_append.mp hlexical
    have hnext := move.reads.state_eq hopen hbegun hts
    have hbegun' : m.state.atLineStart = false := by rw [hnext]; exact hbegun
    have hopen' : m.state.lineOpen = true := by rw [hnext]; exact hopen
    refine .step ?_ (ih hbegun' hopen' hus)
    cases move with
    | skip inside hfront => exact .skip (State.isInside_of_begun hbegun) hfront
    | feed inBrackets => exact .feed (by simp [inBrackets])
    | lineEnd => cases hbegun'
    | token inside hfront balance =>
      exact .token (State.isInside_of_begun hbegun) hfront (bracketsAfter_append outer balance)
    | emptyLine atStart | commentLine atStart | trailing atStart | enter atStart =>
      cases hinside.symm.trans atStart

/-! ## The text behind a line -/

/-- Tokens of a line are read in the same way with another text behind the last one, unless it goes
on that one. -/
theorem Reads.replace {p q : Place} {ts : List Token} {t : Token} {u rest' : List Char}
    (h : Reads p (ts ++ [t]) q) (hbegun : p.state.atLineStart = false)
    (hopen : p.state.lineOpen = true) (hlexical : ∀ v ∈ ts ++ [t], v.kind.isLexical = true)
    (hstop : t.span.stop = q.offset) (hp : p.rest = u ++ q.rest) (hrest' : Detached rest')
    (hfeed : rest'.head? ≠ some '\n') (hseam : (Piece.token t.kind).EndsBefore q.rest rest') :
    Reads ⟨p.state, p.offset, u ++ rest'⟩ (ts ++ [t]) ⟨q.state, q.offset, rest'⟩ := by
  have ht := hlexical t (by simp)
  obtain ⟨m, m', hbefore, hmove, hafter⟩ := h.cut ht
  obtain ⟨c, w, brackets, hm, hfront, hbalance, hinside, htoken, hm'⟩ := hmove.exists_front ht
  have hstate := hbefore.state_eq hopen hbegun fun v hv => hlexical v (List.mem_append_left _ hv)
  have hbegun' : m'.state.atLineStart = false := by rw [hm', hstate]; exact hbegun
  obtain rfl : q = m' := hafter.eq_of_offset (State.isInside_of_begun hbegun')
    (hstop.symm.trans (hmove.stop_eq t (by simp)))
  obtain ⟨v, hv, -⟩ := hbefore.rest_eq
  obtain rfl : u = v ++ c :: w := by
    refine List.append_cancel_right (hp.symm.trans (hv.trans ?_))
    rw [hm]
    simp
  have hlast : Move ⟨m.state, m.offset, c :: w ++ rest'⟩ [t] ⟨q.state, q.offset, rest'⟩ := by
    rw [hm', htoken]
    have hfront' : front c (w ++ ([] ++ rest')) = .ok (.token t.kind, w.length) :=
      front_replace hrest' (fun _ => hseam) hfront
    exact .token hinside hfront' hbalance
  have hearlier := hbefore.beyond hv hm (List.cons_ne_nil c w) hrest' hfeed
  simpa using hearlier.trans hlast.reads

/-- What begins with an `=` is an operator. -/
theorem kind_of_equals {cs : List Char} {kind : TokenKind} {n : Nat}
    (h : front '=' cs = .ok (.token kind, n)) : kind = .op := by
  cases front_cases h with
  | literal hquote => cases hquote
  | number hdigit => exact absurd hdigit (by simp)
  | name hname | prefixed hname => exact absurd hname (by decide)
  | operator => rfl

end Lexer

theorem byteLength_parens (text : String) :
    byteLength ("(" ++ text ++ ")").toList = byteLength text.toList + 2 := by
  have hsize : '('.utf8Size = 1 ∧ ')'.utf8Size = 1 := ⟨rfl, rfl⟩
  have htext : ("(" ++ text ++ ")").toList = '(' :: (text.toList ++ [')']) := by simp
  simp only [htext, byteLength_cons, byteLength_append, byteLength_nil, hsize]
  omega

/-- Tokens further on have the same outline. -/
theorem Outline.follow?_shift (n : Nat) (o : Outline) (ts : List Token) :
    o.follow? (ts.map (Token.shift n)) = o.follow? ts := List.foldlM_map ..

theorem skip_shift (n depth : Nat) (ts : List Token) :
    (ts.map (Token.shift n)).foldlM skip? depth = ts.foldlM skip? depth := List.foldlM_map ..

/-- The tokens of `width` bytes between parentheses. -/
def inParens (width : Nat) (ts : List Token) : List Token :=
  ⟨.op, ⟨0, 1⟩, "("⟩ :: (ts.map (Token.shift 1) ++ [⟨.op, ⟨width + 1, width + 2⟩, ")"⟩])

/-- A text that stands on a line between an `=`, on which it does not go, and a colon, with its tokens. -/
structure Operand (text : String) (ts : List Token) : Prop where
  begins : ∀ rest, (text.toList ++ ':' :: rest).head? ≠ some '='
  lexical : ∀ t ∈ ts, t.kind.isLexical = true
  reads : ∀ rest, Lexer.Reads ⟨⟨[], [], false, true⟩, 0, text.toList ++ ':' :: rest⟩ ts
    ⟨⟨[], [], false, true⟩, byteLength text.toList, ':' :: rest⟩

namespace IsLine

open Lexer

variable {text : String} {ts : List Token} {t : Token}

/-- The line on a line that other tokens have begun. -/
theorem reads_here (h : IsLine text ts) :
    Reads ⟨⟨[], [], false, true⟩, 0, text.toList ++ ['\n']⟩ ts
      ⟨⟨[], [], false, true⟩, byteLength text.toList, ['\n']⟩ := by
  have hreads := h.reads 0 [] true
  rwa [show Token.shift 0 = id from rfl, List.map_id, Nat.zero_add] at hreads

/-- A line that its last token ends, before a colon or a closing parenthesis. -/
theorem reads_before (h : IsLine text (ts ++ [t])) (hstop : t.span.stop = byteLength text.toList)
    {c : Char} (hc : c ∈ [':', ')']) (rest : List Char) :
    Reads ⟨⟨[], [], false, true⟩, 0, text.toList ++ c :: rest⟩ (ts ++ [t])
      ⟨⟨[], [], false, true⟩, byteLength text.toList, c :: rest⟩ := by
  have hplain : ([':', ')'].all fun c => !c.isDigit && c != '\n' && !continuesName c && !isQuote c &&
      !continuesNumber c && c != '+' && c != '-' &&
      (longOperators ++ mediumOperators).all fun op => !op.tail.contains c) = true := by decide
  have hplain := List.all_eq_true.mp hplain c hc
  simp only [Bool.and_eq_true, Bool.not_eq_true', bne_iff_ne, List.all_eq_true] at hplain
  obtain ⟨⟨⟨⟨⟨⟨⟨hdigit, hfeed⟩, hname⟩, hquote⟩, hnumber⟩, hplus⟩, hminus⟩, hoperators⟩ := hplain
  refine h.reads_here.replace rfl rfl h.lexical hstop rfl ?_ (by simp [hfeed]) ?_
  · rintro _ ⟨⟩
    exact ⟨hdigit, fun op hop hmem => by simpa [hmem] using hoperators op hop⟩
  · have ht := h.lexical t (by simp)
    cases hkind : t.kind with
    | name => rintro _ ⟨⟩; exact ⟨hname, hquote⟩
    | number => rintro _ ⟨⟩; exact ⟨hnumber, hplus, hminus⟩
    | str => rintro _ ⟨⟩; exact hquote
    | _ => trivial

/-- A line that its last token ends, as an operand. -/
theorem operand (h : IsLine text (ts ++ [t])) (hstop : t.span.stop = byteLength text.toList)
    (hbegins : text.toList.head? ≠ some '=') : Operand text (ts ++ [t]) where
  begins rest := by
    cases htext : text.toList with
    | nil => simp
    | cons c cs => simpa [htext] using hbegins
  lexical := h.lexical
  reads rest := h.reads_before hstop (by simp) rest

/-- A line that its last token ends, as an operand in parentheses. -/
theorem operand_parens (h : IsLine text (ts ++ [t])) (hstop : t.span.stop = byteLength text.toList) :
    Operand ("(" ++ text ++ ")") (inParens (byteLength text.toList) (ts ++ [t])) := by
  have htext : ("(" ++ text ++ ")").toList = '(' :: (text.toList ++ [')']) := by simp
  have hlexical : ∀ v ∈ (ts ++ [t]).map (Token.shift 1), v.kind.isLexical = true :=
    List.forall_mem_map.mpr h.lexical
  refine ⟨fun rest => by simp [htext], ?_, fun rest => ?_⟩
  · simpa [inParens, or_imp, forall_and, TokenKind.isLexical] using hlexical
  · have hopening : Move ⟨⟨[], [], false, true⟩, 0, '(' :: ([] ++ (text.toList ++ ')' :: ':' :: rest))⟩
        [⟨.op, ⟨0, 1⟩, "("⟩] ⟨⟨[], ['('], false, true⟩, 1, text.toList ++ ')' :: ':' :: rest⟩ :=
      .token rfl (front_bracket _ (by simp)) rfl
    have hinside := ((h.reads_before hstop (c := ')') (by simp) (':' :: rest)).inBrackets rfl rfl
      h.lexical ['(']).further 1
    have hclosing : Move ⟨⟨[], ['('], false, true⟩, byteLength text.toList + 1, ')' :: ([] ++ ':' :: rest)⟩
        [⟨.op, ⟨byteLength text.toList + 1, byteLength text.toList + 2⟩, ")"⟩]
        ⟨⟨[], [], false, true⟩, byteLength text.toList + 2, ':' :: rest⟩ :=
      .token rfl (front_bracket _ (by simp)) rfl
    have hall := Reads.step hopening (hinside.trans hclosing.reads)
    rw [byteLength_parens]
    simpa [htext, inParens] using hall

/-- A line leaves no bracket open. -/
theorem settled (h : IsLine text ts) (n : Nat) :
    Settled (ts.map (Token.shift n)) ∧ balance (ts.map (Token.shift n)) = 0 := by
  simpa using (h.reads n [] true).settled rfl

/-- Between parentheses a line is skipped where it comes among the parameters of a lambda. -/
theorem skip_parens (h : IsLine text ts) (width : Nat) : (inParens width ts).foldlM skip? 0 = some 0 := by
  obtain ⟨hsettled, hzero⟩ := h.settled 1
  exact foldlM_bracketed (f := id) skip?_of_pos (fun hbracket depth => skip?_of_weight depth hbracket)
    rfl hsettled (ne_of_lexical rfl (List.forall_mem_map.mpr h.lexical)) rfl hzero

/-- A line begins with an `=` only if its first token does. -/
theorem head_ne (h : IsLine text ts)
    (hbegins : ∀ t ∈ ts.head?, t.kind = .op → t.text.toList.head? ≠ some '=') :
    text.toList.head? ≠ some '=' := by
  obtain ⟨t, more, rfl, hstart⟩ := h.begins
  have ht := h.lexical t List.mem_cons_self
  intro hhead
  obtain ⟨cs, hcs⟩ := List.head?_eq_some_iff.mp hhead
  obtain ⟨m, hmove, -⟩ := h.reads_here.exists_first rfl ht hstart
  obtain ⟨c, w, _, hrest, hfront, -, -, htoken, -⟩ := hmove.exists_front ht
  obtain rfl : '=' = c := by
    rw [hcs] at hrest
    exact (List.cons.inj hrest).1
  refine hbegins t rfl (kind_of_equals hfront) ?_
  rw [htoken]
  simp [tokenAt]

end IsLine

/-! ## Expressions -/

/-- Whether a line holds one expression, which begins and ends where the line does. -/
def holdsExpression (text : String) : Bool :=
  match parse (text ++ "\n") with
  | .ok ⟨[.expr span _], _⟩ => span = ⟨0, byteLength text.toList⟩
  | _ => false

/-- A text that is one logical line with one expression on it, and its tokens. -/
structure IsExpression (text : String) (ts : List Token) : Prop where
  line : IsLine text ts
  holds : holdsExpression text = true

namespace IsExpression

variable {text : String} {ts : List Token}

/-- Such a text is read as one expression, up to its end. -/
theorem exists_run (h : IsExpression text ts) : ∃ (c d : Cursor) (e : Expr),
    c.rest = ts ++ [.lineFeed (byteLength text.toList)] ∧ c.lastEnd = 0 ∧
      Parser.Runs (Parser.yieldOrStar (Level.ofBudget levelLimit)) c e d ∧
      d.lastEnd = byteLength text.toList := by
  obtain ⟨e, lines, hparse⟩ : ∃ e lines, parse (text ++ "\n") =
      .ok ⟨[.expr ⟨0, byteLength text.toList⟩ e], lines⟩ := by
    have hholds := h.holds
    unfold holdsExpression at hholds
    split at hholds
    case h_1 span e lines hparse => exact ⟨e, lines, of_decide_eq_true hholds ▸ hparse⟩
    case h_2 => cases hholds
  obtain ⟨tokens, d, htokens, hrun, -⟩ := parse_eq_ok_iff.mp hparse
  obtain rfl := Except.ok.inj (h.line.tokens.symm.trans htokens)
  have hkinds : ∀ t ∈ ts ++ [.lineFeed (byteLength text.toList)], t.kind ≠ .endMarker := by
    simpa [or_imp, forall_and, Token.lineFeed] using ne_of_lexical rfl h.line.lexical
  rw [List.append_cons] at hrun
  have hrest := @rest_ofTokens _ (.mark .endMarker (byteLength text.toList + 1)) rfl hkinds
  obtain ⟨t, more, rfl, hstart⟩ := h.line.begins
  obtain ⟨m, hvalue, hspan⟩ := Parser.exists_of_expr (Level.ofBudget_sound levelLimit)
    (Cursor.atText_of_rest hrest (h.line.lexical t List.mem_cons_self)) hrun
  have hstop := (Span.mk.inj hspan).2
  rw [Cursor.peek_of_rest hrest, hstart, Nat.max_zero] at hstop
  exact ⟨_, m, e, hrest, rfl, hvalue, hstop.symm⟩

/-- The tokens of such a text have the outline of an expression, and the last one ends it. -/
theorem exists_last (h : IsExpression text ts) : Clear ts ∧
    ∃ init t, ts = init ++ [t] ∧ t.span.stop = byteLength text.toList := by
  obtain ⟨c, d, e, hrest, hlast, hrun, hstop⟩ := h.exists_run
  obtain ⟨us, htook, hus⟩ := Parser.outlines_yieldOrStar (Level.ofBudget_outlined levelLimit) hrun
  obtain ⟨hspans, hpairs⟩ := h.line.reads_here.spans
  -- The run takes no line end, and a token that it left would stand behind the end of the line.
  obtain rfl : us = ts := by
    rcases List.append_eq_append_iff.mp (hrest.symm.trans htook.rest) with
      ⟨excess, rfl, hfeed⟩ | ⟨excess, rfl, -⟩
    · cases excess with
      | nil => exact List.append_nil _
      | cons v excess =>
        obtain ⟨rfl, -⟩ := List.cons.inj hfeed
        exact absurd rfl (hus.onLine _ (List.mem_append_right _ List.mem_cons_self))
    · cases excess with
      | nil => exact (List.append_nil _).symm
      | cons v excess =>
        have hv := List.mem_append_right us (List.mem_cons_self (a := v) (l := excess))
        obtain ⟨-, -, hle, hlt⟩ := hspans v hv
        dsimp only at hle
        have hbefore := (List.pairwise_append.mp hpairs).2.2
        have := stopAfter_le (Nat.zero_le v.span.start) fun t ht => hbefore t ht v List.mem_cons_self
        have := hlt (h.line.lexical v hv)
        rw [htook.lastEnd, hlast] at hstop
        omega
  obtain ⟨t, more, hbegin, -⟩ := h.line.begins
  obtain ⟨init, t, hinit⟩ := (List.eq_nil_or_concat us).resolve_left (by simp [hbegin])
  rw [List.concat_eq_append] at hinit
  refine ⟨hus, init, t, hinit, ?_⟩
  rw [← hstop, htook.lastEnd, hinit, stopAfter_concat _ _ (h.line.lexical t (by simp [hinit]))]

/-- Such a text does not begin with an `=`. -/
theorem begins (h : IsExpression text ts) : text.toList.head? ≠ some '=' := by
  obtain ⟨c, d, e, hrest, -, hrun, -⟩ := h.exists_run
  refine h.line.head_ne fun t ht hop => ?_
  obtain ⟨more, rfl⟩ := List.head?_eq_some_iff.mp ht
  have hpeek := Cursor.peek_of_rest hrest
  have hyield : c.isName "yield" = false := by simp [Cursor.isName, hpeek, hop]
  rw [Parser.yieldOrStar, Parser.runs_ask_bind, hyield, if_neg Bool.false_ne_true] at hrun
  have hstart := Parser.starts_starExpressions hrun
  simp only [Parser.canStartExpr, hpeek, hop, List.contains_iff_mem] at hstart
  have hplain : (["(", "[", "\x7b", "-", "+", "~", "*", "..."].all fun s =>
    s.toList.head? != some '=') = true := by decide
  simpa using List.all_eq_true.mp hplain _ hstart

theorem follows (h : IsExpression text ts) : Outline.follow? ⟨0, false⟩ ts = some ⟨0, false⟩ := by
  have hzero := (h.line.settled 0).2
  rw [show Token.shift 0 = id from rfl, List.map_id] at hzero
  exact h.exists_last.1.follows hzero

theorem operand (h : IsExpression text ts) : Operand text ts := by
  obtain ⟨-, init, t, rfl, hstop⟩ := h.exists_last
  exact h.line.operand hstop h.begins

theorem operand_parens (h : IsExpression text ts) :
    Operand ("(" ++ text ++ ")") (inParens (byteLength text.toList) ts) := by
  obtain ⟨-, init, t, rfl, hstop⟩ := h.exists_last
  exact h.line.operand_parens hstop

end IsExpression

end WorkflowAudit.Script
