import WorkflowAudit.Proofs.Script.Laminar
import WorkflowAudit.Proofs.Text.LineIndex

/-!
# What stands before the line of a statement

A token that stands for text ends on a character of its own: of a name, a number or an operator,
or on a quote. None of these is white space. So where a line begins with white space and a
statement, whatever stops before the statement stops before the line.
-/

namespace WorkflowAudit

open Text

namespace Script

namespace Lexer

/-! ## The last character of a token -/

/-- Whether a character can be the last one of a token that stands for text. -/
def endsToken (c : Char) : Bool :=
  continuesName c || isQuote c || continuesNumber c || "+-*/%@&|^~<>()[]\x7b\x7d,:.;=".toList.contains c

theorem endsToken_of_isWhiteSpace {c : Char} (h : isWhiteSpace c = true) : endsToken c = false := by
  have blanks : [0x9, 0xA, 0xB, 0xC, 0xD, 0x20, 0x85, 0xA0, 0x1680, 0x2000, 0x2001, 0x2002, 0x2003,
      0x2004, 0x2005, 0x2006, 0x2007, 0x2008, 0x2009, 0x200A, 0x2028, 0x2029, 0x202F, 0x205F,
      0x3000].all (fun n => !endsToken (Char.ofNat n)) = true := by decide +kernel
  have member : c.toNat ∈ [0x9, 0xA, 0xB, 0xC, 0xD, 0x20, 0x85, 0xA0, 0x1680, 0x2000, 0x2001,
      0x2002, 0x2003, 0x2004, 0x2005, 0x2006, 0x2007, 0x2008, 0x2009, 0x200A, 0x2028, 0x2029,
      0x202F, 0x205F, 0x3000] := by
    simp only [isWhiteSpace, inRanges, CharRange.whiteSpace, List.any_cons, List.any_nil,
      Bool.or_false, Bool.or_eq_true, Bool.and_eq_true, decide_eq_true_eq] at h
    simp only [List.mem_cons, List.not_mem_nil, or_false]
    omega
  simpa [Char.ofNat_toNat] using List.all_eq_true.mp blanks _ member

theorem continuesName_of_startsName {c : Char} (h : startsName c = true) :
    continuesName c = true := by
  simp only [startsName, continuesName, isAlphabetic, isAlphanumeric, Char.isAlphanum,
    Bool.or_eq_true] at h ⊢
  refine h.imp_right fun letter => ?_
  split at letter
  case isTrue ascii => simp [ascii, letter]
  case isFalse ascii => simp [ascii, letter]

theorem shortLiteralTail?_last {quote : Char} {cs : List Char} {n : Nat}
    (h : shortLiteralTail? quote cs = some n) : cs[n - 1]? = some quote := by
  induction cs using escaped_induction generalizing n with
  | nil => simp [shortLiteralTail?] at h
  | lone => simp [shortLiteralTail?] at h
  | escape c cs ih =>
    obtain ⟨m, hm, rfl⟩ := Option.map_eq_some_iff.mp h
    obtain ⟨k, rfl⟩ := Nat.exists_eq_add_of_lt (shortLiteralTail?_bounds hm).1
    simpa using ih hm
  | plain c cs hc ih =>
    rw [shortLiteralTail?_cons quote cs hc] at h
    split at h
    case isTrue hquote =>
      cases h
      simp [hquote]
    split at h
    case isTrue => cases h
    case isFalse =>
      obtain ⟨m, hm, rfl⟩ := Option.map_eq_some_iff.mp h
      obtain ⟨k, rfl⟩ := Nat.exists_eq_add_of_lt (shortLiteralTail?_bounds hm).1
      simpa using ih hm

theorem longLiteralTail?_last {quote : Char} {cs : List Char} {n : Nat}
    (h : longLiteralTail? quote cs = some n) : cs[n - 1]? = some quote := by
  induction cs using escaped_induction generalizing n with
  | nil => simp [longLiteralTail?] at h
  | lone => simp [longLiteralTail?] at h
  | escape c cs ih =>
    obtain ⟨m, hm, rfl⟩ := Option.map_eq_some_iff.mp h
    obtain ⟨k, rfl⟩ := Nat.exists_eq_add_of_le (longLiteralTail?_bounds hm).1
    have := ih hm
    rw [show 3 + k - 1 = k + 2 by omega] at this
    rw [show 3 + k + 2 - 1 = k + 4 by omega]
    simpa using this
  | plain c cs hc ih =>
    rw [longLiteralTail?_cons quote cs hc] at h
    split at h
    case isTrue hclose =>
      cases h
      simp only [Bool.and_eq_true, List.isPrefixOf_iff_prefix] at hclose
      obtain ⟨-, rest, rfl⟩ := hclose
      rfl
    case isFalse =>
      obtain ⟨m, hm, rfl⟩ := Option.map_eq_some_iff.mp h
      obtain ⟨k, rfl⟩ := Nat.exists_eq_add_of_le (longLiteralTail?_bounds hm).1
      have := ih hm
      rw [show 3 + k - 1 = k + 2 by omega] at this
      rw [show 3 + k + 1 - 1 = k + 3 by omega]
      simpa using this

theorem literalTail?_last {quote : Char} {cs : List Char} {n : Nat}
    (h : literalTail? quote cs = some n) : 0 < n ∧ cs[n - 1]? = some quote := by
  unfold literalTail? at h
  split at h
  · obtain ⟨m, hm, rfl⟩ := Option.map_eq_some_iff.mp h
    have hlast := longLiteralTail?_last hm
    have := (longLiteralTail?_bounds hm).1
    rw [List.getElem?_drop] at hlast
    exact ⟨by omega, by rw [show m + 2 - 1 = 2 + (m - 1) by omega, hlast]⟩
  · exact ⟨(shortLiteralTail?_bounds h).1, shortLiteralTail?_last h⟩

theorem numberTail_last {hasRadix : Bool} {last c : Char} {cs : List Char}
    (hc : endsToken c = true) :
    ∃ d, (c :: cs)[numberTail hasRadix last cs]? = some d ∧ endsToken d = true := by
  induction cs generalizing last c with
  | nil => exact ⟨c, rfl, hc⟩
  | cons d cs ih =>
    rw [numberTail_cons]
    split
    case isFalse => exact ⟨c, rfl, hc⟩
    case isTrue joins =>
      refine ih ?_
      simp only [joinsNumber, Bool.or_eq_true, Bool.and_eq_true, decide_eq_true_eq] at joins
      rcases joins with joins | ⟨⟨⟨rfl | rfl, -⟩, -⟩, -⟩
      · simp [endsToken, joins]
      · decide
      · decide

theorem operatorLength?_last {c : Char} {cs : List Char} {n : Nat}
    (h : operatorLength? c cs = some (n + 1)) :
    ∃ d, (c :: cs)[n]? = some d ∧ endsToken d = true := by
  have long : longOperators.all (·[2]?.any endsToken) = true := by decide
  have medium : mediumOperators.all (·[1]?.any endsToken) = true := by decide
  have short : shortOperators.all endsToken = true := by decide
  have among : ∀ {op : List Char} {n : Nat} {d : Char}, op.isPrefixOf (c :: cs) = true → op[n]? = some d →
      (c :: cs)[n]? = some d := by
    intro op n d opens last
    obtain ⟨inside, rfl⟩ := List.getElem?_eq_some_iff.mp last
    exact List.prefix_iff_getElem?.mp (List.isPrefixOf_iff_prefix.mp opens) n inside
  unfold operatorLength? at h
  split at h
  case isTrue opens =>
    cases h
    obtain ⟨op, hop, hprefix⟩ := List.any_eq_true.mp opens
    obtain ⟨d, last, ends⟩ := (Option.any_eq_true _ _).mp (List.all_eq_true.mp long op hop)
    exact ⟨d, among hprefix last, ends⟩
  split at h
  case isTrue opens =>
    cases h
    obtain ⟨op, hop, hprefix⟩ := List.any_eq_true.mp opens
    obtain ⟨d, last, ends⟩ := (Option.any_eq_true _ _).mp (List.all_eq_true.mp medium op hop)
    exact ⟨d, among hprefix last, ends⟩
  split at h
  case isTrue member =>
    cases h
    exact ⟨c, rfl, List.all_eq_true.mp short c (by simpa using member)⟩
  case isFalse => cases h

theorem front_last {c : Char} {cs : List Char} {kind : TokenKind} {n : Nat}
    (h : front c cs = .ok (.token kind, n)) :
    ∃ d, (c :: cs)[n]? = some d ∧ endsToken d = true := by
  have quoted : ∀ {q : Char}, isQuote q = true → endsToken q = true := by
    intro q quote
    simp [endsToken, quote]
  have word : ∀ {d : Char}, continuesName d = true → endsToken d = true := by
    intro d continues
    simp [endsToken, continues]
  cases front_cases h with
  | literal quote tail =>
    obtain ⟨hpos, last⟩ := literalTail?_last tail
    obtain ⟨k, rfl⟩ := Nat.exists_eq_add_of_lt hpos
    exact ⟨c, by simpa using last, quoted quote⟩
  | number starts =>
    refine numberTail_last ?_
    simp only [Bool.or_eq_true, Bool.and_eq_true, decide_eq_true_eq] at starts
    rcases starts with digit | ⟨rfl, -⟩
    · simp [endsToken, continuesNumber_of_isDigit digit]
    · decide
  | name starts =>
    generalize tail : cs.takeWhile continuesName = w
    rcases List.eq_nil_or_concat w with rfl | ⟨w, d, rfl⟩
    · exact ⟨c, rfl, word (continuesName_of_startsName starts)⟩
    · obtain ⟨rest, hrest⟩ := List.takeWhile_prefix continuesName (l := cs)
      have member : d ∈ cs.takeWhile continuesName := by simp [tail]
      refine ⟨d, ?_, word (List.mem_takeWhile_imp member)⟩
      rw [← hrest, tail]
      simp
  | @prefixed _ q cs after n starts quote drop tail =>
    obtain ⟨hpos, last⟩ := literalTail?_last tail
    obtain ⟨k, rfl⟩ := Nat.exists_eq_add_of_lt hpos
    refine ⟨q, ?_, quoted quote⟩
    have behind := congrArg (·[0 + k + 1]?) drop
    simp only [List.getElem?_drop, List.getElem?_cons_succ] at behind
    rw [show (cs.takeWhile continuesName).length + 1 + (0 + k + 1) =
      (cs.takeWhile continuesName).length + (0 + k + 1) + 1 by omega, List.getElem?_cons_succ, behind]
    exact last
  | operator length => exact operatorLength?_last length

/-- The characters of a token that stands for text end on one that is not white space. -/
def EndsVisibly (t : Token) : Prop :=
  t.kind.isLexical = true → ∃ init last, t.text = String.ofList (init ++ [last]) ∧
    isWhiteSpace last = false

theorem Move.endsVisibly {p q : Place} {ts : List Token} (h : Move p ts q) :
    ∀ t ∈ ts, EndsVisibly t := by
  cases h with
  | skip | feed | emptyLine | commentLine | trailing => simp
  | lineEnd =>
    unfold lineEnding
    split <;> simp [EndsVisibly, TokenKind.isLexical]
  | @token st offset c w rest kind brackets inside reads =>
    intro t member lexical
    obtain rfl := List.mem_singleton.mp member
    obtain ⟨d, last, ends⟩ := front_last reads
    rw [← List.cons_append, List.getElem?_append_left (by simp)] at last
    obtain ⟨init, hinit⟩ : ∃ init, c :: w = init ++ [d] :=
      List.getLast?_eq_some_iff.mp (List.getLast?_eq_getElem?.trans last)
    refine ⟨init, d, congrArg String.ofList hinit, ?_⟩
    by_contra white
    rw [endsToken_of_isWhiteSpace (by simpa using white)] at ends
    cases ends
  | enter atStart indented content enters =>
    intro t member lexical
    rw [(span_of_enterLine enters t member).2] at lexical
    cases lexical

theorem Reads.endsVisibly {p q : Place} {ts : List Token} (h : Reads p ts q) :
    ∀ t ∈ ts, EndsVisibly t := by
  induction h with
  | refl => simp
  | step move _ ih =>
    intro t member
    exact (List.mem_append.mp member).elim (move.endsVisibly t) (ih t)

theorem endsVisibly_of_tokenize {text : String} {tokens : List Token}
    (h : tokenize text = .ok tokens) : ∀ t ∈ tokens, EndsVisibly t := by
  obtain ⟨mark, cs, read, st, offset, closing, -, -, -, hreads, hfinish, rfl⟩ :=
    exists_reads_of_tokenize h
  intro t member
  rcases List.mem_append.mp member with member | member
  · exact hreads.endsVisibly t member
  · intro lexical
    rw [(closing_of_finish hfinish t member).1] at lexical
    cases lexical

end Lexer

/-! ## The line of a node -/

/-- Whether only white space stands before an offset on its line. -/
def OnlyBlank (text : String) (m : Module) (offset : Nat) : Prop :=
  (Span.slice ⟨m.lines.lineStart offset, offset⟩ text).toList.all isWhiteSpace = true

theorem lines_of_parse {text : String} {m : Module} (h : parse text = .ok m) :
    m.lines = LineIndex.ofText text := by
  obtain ⟨tokens, d, -, -, hlines⟩ := parse_eq_ok_iff.mp h
  exact hlines

/-- What stands before a place that only white space precedes on its line is an earlier part of the
text and that white space. -/
theorem OnlyBlank.exists_margin {text : String} {m : Module} (h : parse text = .ok m)
    {before after : List Char} (split : text.toList = before ++ after)
    (blank : OnlyBlank text m (byteLength before)) :
    ∃ front margin, before = front ++ margin ∧ (∀ c ∈ margin, isWhiteSpace c = true) ∧
      m.lines.lineStart (byteLength before) = byteLength front := by
  rw [OnlyBlank, lines_of_parse h] at blank
  rw [lines_of_parse h]
  obtain ⟨front, margin, rfl, -, -, start⟩ := LineIndex.exists_line split
  refine ⟨front, margin, rfl, ?_, start⟩
  have slice : slice? text.toList (byteLength front) (byteLength (front ++ margin)) = some margin :=
    slice?_eq_some_iff.mpr ⟨front, after, by simpa using split, rfl, byteLength_append _ _⟩
  rw [start, Span.slice, slice] at blank
  simpa using blank

/-- A token that stops before such a place stops before the line begins. -/
theorem Lexer.EndsVisibly.stop_le {t : Token} (h : EndsVisibly t) (lexical : t.kind.isLexical = true)
    {front margin after : List Char} (token : ∃ inside, slice? (front ++ margin ++ after) t.span.start
      t.span.stop = some inside ∧ t.text = String.ofList inside)
    (white : ∀ c ∈ margin, isWhiteSpace c = true)
    (before : t.span.stop ≤ byteLength (front ++ margin)) : t.span.stop ≤ byteLength front := by
  obtain ⟨inside, slice, written⟩ := token
  obtain ⟨init, last, ending, visible⟩ := h lexical
  obtain rfl : inside = init ++ [last] := String.ofList_inj.mp (written.symm.trans ending)
  obtain ⟨earlier, later, split, start, stop⟩ := slice?_eq_some_iff.mp slice
  have length : byteLength (earlier ++ (init ++ [last])) = t.span.stop := by
    rw [byteLength_append, start, stop]
  by_contra behind
  obtain ⟨between, rest, -⟩ := exists_append_of_byteLength_le
    ((List.append_assoc ..).trans split.symm) (length ▸ before)
  obtain ⟨reach, longer, within⟩ := exists_append_of_byteLength_le rest (by omega)
  rcases List.eq_nil_or_concat reach with rfl | ⟨reach, c, rfl⟩
  · rw [longer, List.append_nil] at length
    omega
  · have same : [last] = [c] := by
      rw [List.concat_eq_append, ← List.append_assoc, ← List.append_assoc] at longer
      exact List.append_inj_right' longer rfl
    obtain rfl := List.singleton_inj.mp same
    rw [white last (by simp [within])] at visible
    cases visible

/-- What stops before a place that only white space precedes on its line stops before the line
begins. -/
theorem stop_le_lineStart {text : String} {m : Module} (h : parse text = .ok m)
    {path path' : List Nat} {v w : Node} (hv : m.at? path = some v) (hw : m.at? path' = some w)
    (blank : OnlyBlank text m w.span.start) (before : v.span.stop ≤ w.span.start) :
    v.span.stop ≤ m.lines.lineStart w.span.start := by
  obtain ⟨tokens, htokens, -, tidy, -⟩ := tidy_of_parse h
  obtain ⟨_, -, u, hu, -, lexical, -, hspan⟩ := bounds_of_at? tidy hv
  obtain ⟨t, ht, _, -, -, -, -, hspan'⟩ := bounds_of_at? tidy hw
  have lexed := lexed_of_tokenize htokens
  obtain ⟨inside, slice, written⟩ := lexed.sliced u hu
  obtain ⟨_, slice', -⟩ := lexed.sliced t ht
  obtain ⟨earlier, later, split, start, -⟩ := slice?_eq_some_iff.mp slice'
  rw [hspan', ← start] at blank ⊢
  rw [hspan, hspan', ← start] at before
  obtain ⟨front, margin, rfl, white, line⟩ := blank.exists_margin h split
  rw [line, hspan]
  rw [split] at slice
  exact (Lexer.endsVisibly_of_tokenize htokens u hu).stop_le lexical
    ⟨inside, slice, (written lexical).2⟩ white before

/-- Of what is not inside a statement that begins its line, all stops before the line or starts
behind the statement. -/
theorem stop_le_lineStart_or {text : String} {m : Module} (h : parse text = .ok m) {s : Stmt}
    (member : s ∈ m.body) (blank : OnlyBlank text m s.span.start) {path : List Nat} {v : Node}
    (hv : m.at? path = some v) :
    v.span.stop ≤ m.lines.lineStart s.span.start ∨ s.span.start ≤ v.span.start := by
  obtain ⟨i, hi⟩ := List.mem_iff_getElem?.mp member
  obtain ⟨tokens, -, ordered, tidy, apart⟩ := tidy_of_parse h
  have hs := Module.at?_of_body hi
  by_cases below : [i] <+: path
  · obtain ⟨more, rfl⟩ := below
    have inside := ((Node.tidy_of_among? tidy hs).at? ((Node.among?_append _ hs).symm.trans hv)).2
    simp only [Span.contains, Bool.and_eq_true, decide_eq_true_eq] at inside
    exact .inr inside.1
  by_cases above : path <+: [i]
  · obtain ⟨more, hmore⟩ := above
    cases path with
    | nil => cases hv
    | cons j path =>
      obtain ⟨rfl, hrest⟩ := List.cons.inj hmore
      obtain ⟨rfl, -⟩ := List.append_eq_nil_iff.mp hrest
      exact absurd (List.prefix_refl _) below
  · have apart := Node.apart_of_among? tidy apart hv hs above below
    simp only [Node.Apart, Span.overlaps, Bool.and_eq_false_iff, decide_eq_false_iff_not, Nat.not_lt] at apart
    rcases apart with behind | before
    · exact .inr ((Nat.le_of_lt (start_lt_stop_of_parse h hs)).trans behind)
    · exact .inl (stop_le_lineStart h hv hs blank before)

theorem lineStart_le {text : String} {m : Module} (h : parse text = .ok m) {path : List Nat}
    {v : Node} (hv : m.at? path = some v) :
    m.lines.lineStart v.span.start ≤ v.span.start := by
  obtain ⟨tokens, htokens, -, tidy, -⟩ := tidy_of_parse h
  obtain ⟨inside, slice, -⟩ := (lexed_of_tokenize htokens).filled (bounds_of_at? tidy hv)
  obtain ⟨before, after, split, start, -⟩ := slice?_eq_some_iff.mp slice
  obtain ⟨front, line, rfl, -, -, begins⟩ := LineIndex.exists_line split
  rw [lines_of_parse h, ← start, begins, byteLength_append]
  exact Nat.le_add_right _ _

end Script

end WorkflowAudit
