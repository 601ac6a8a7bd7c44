import WorkflowAudit.Proofs.Script.Piece
import WorkflowAudit.Proofs.Text.Span

/-!
# Readings of a text

A run of the lexer as a sequence of moves from place to place. A step at the start of a line
does two things, so it is two moves here: the line is entered, and its first piece is read.
Between two moves a text can be cut, and every token begins and ends at such a cut.
-/

namespace WorkflowAudit.Script

/-- What a token is without its place. -/
def Token.lexeme (t : Token) : TokenKind × String := (t.kind, t.text)

namespace Lexer

open Text

/-- Where the lexer stands: its line state, a byte offset and the characters left. -/
structure Place where
  state : State
  offset : Nat
  rest : List Char

/-- Whether the next character does not begin a line. -/
def State.isInside (st : State) : Bool := !(st.atLineStart && st.brackets.isEmpty)

/-- The state once a line has begun. -/
def State.begun (st : State) : State := { st with atLineStart := false }

/-- The open brackets after a token of a class that begins with `c`. -/
def bracketsAfter (kind : TokenKind) (brackets : List Char) (c : Char) :
    Except SyntaxFault (List Char) :=
  if kind = .op then brackets? brackets c else .ok brackets

/-- The token of a class whose text stands at an offset. -/
def tokenAt (kind : TokenKind) (offset : Nat) (lexeme : List Char) : Token :=
  ⟨kind, ⟨offset, offset + byteLength lexeme⟩, String.ofList lexeme⟩

/-- What a line feed that ends a line writes. -/
def lineEnding (st : State) (offset : Nat) : List Token :=
  if st.lineOpen then [⟨.newline, ⟨offset, offset + 1⟩, "\n"⟩] else []

/-- Whether a line has content from here on. -/
def hasContent : List Char → Bool
  | [] | '\n' :: _ | '\r' :: '\n' :: _ | '#' :: _ => false
  | c :: _ => !isIndentation c

/-- One move of the lexer, with the tokens that it writes. -/
inductive Move : Place → List Token → Place → Prop
  /-- Over white space, a comment or a joined line. -/
  | skip {st offset c w rest} (inside : st.isInside = true)
      (reads : front c (w ++ rest) = .ok (.skipped, w.length)) :
      Move ⟨st, offset, c :: (w ++ rest)⟩ [] ⟨st, offset + byteLength (c :: w), rest⟩
  /-- Over a line feed between brackets. -/
  | feed {st offset rest} (inBrackets : st.brackets ≠ []) :
      Move ⟨st, offset, '\n' :: rest⟩ [] ⟨st, offset + 1, rest⟩
  /-- Over the end of a line. -/
  | lineEnd {st offset rest} (inside : st.isInside = true) (closed : st.brackets = []) :
      Move ⟨st, offset, '\n' :: rest⟩ (lineEnding st offset)
        ⟨{ st with atLineStart := true, lineOpen := false }, offset + 1, rest⟩
  /-- Over a token. -/
  | token {st offset c w rest kind brackets} (inside : st.isInside = true)
      (reads : front c (w ++ rest) = .ok (.token kind, w.length))
      (balance : bracketsAfter kind st.brackets c = .ok brackets) :
      Move ⟨st, offset, c :: (w ++ rest)⟩ [tokenAt kind offset (c :: w)]
        ⟨{ st with brackets, lineOpen := true }, offset + byteLength (c :: w), rest⟩
  /-- Over an empty line. -/
  | emptyLine {st offset blanks feed rest} (atStart : st.isInside = false)
      (indented : ∀ b ∈ blanks, isIndentation b = true)
      (ends : feed = ['\n'] ∨ feed = ['\r', '\n']) :
      Move ⟨st, offset, blanks ++ (feed ++ rest)⟩ []
        ⟨st, offset + byteLength (blanks ++ feed), rest⟩
  /-- Over a comment that stands alone on its line. -/
  | commentLine {st offset blanks w rest} (atStart : st.isInside = false)
      (indented : ∀ b ∈ blanks, isIndentation b = true)
      (ends : ((w ++ rest).takeWhile (· ≠ '\n')).length = w.length) :
      Move ⟨st, offset, blanks ++ ('#' :: w ++ rest)⟩ []
        ⟨st.begun, offset + byteLength (blanks ++ '#' :: w), rest⟩
  /-- Over white space at the end of the text. -/
  | trailing {st offset blanks} (atStart : st.isInside = false) (some : blanks ≠ [])
      (indented : ∀ b ∈ blanks, isIndentation b = true) :
      Move ⟨st, offset, blanks⟩ [] ⟨st.begun, offset + byteLength blanks, []⟩
  /-- Over the indentation of a line, up to its content. -/
  | enter {st st' offset blanks rest written} (atStart : st.isInside = false)
      (indented : ∀ b ∈ blanks, isIndentation b = true) (content : hasContent rest = true)
      (enters : enterLine st.begun (blanks.foldl advanceColumn 0) (offset + byteLength blanks) =
        .ok (st', written)) :
      Move ⟨st, offset, blanks ++ rest⟩ written ⟨st', offset + byteLength blanks, rest⟩

/-- A sequence of moves, with the tokens that they write. -/
inductive Reads : Place → List Token → Place → Prop
  | refl (p : Place) : Reads p [] p
  | step {p m q : Place} {ts us : List Token} (move : Move p ts m) (reads : Reads m us q) :
      Reads p (ts ++ us) q

theorem Move.reads {p q : Place} {ts : List Token} (h : Move p ts q) : Reads p ts q := by
  simpa using Reads.step h (.refl q)

theorem Reads.trans {p m q : Place} {ts us : List Token} (h : Reads p ts m) (h' : Reads m us q) :
    Reads p (ts ++ us) q := by
  induction h with
  | refl => exact h'
  | step move _ ih =>
    rw [List.append_assoc]
    exact .step move (ih h')

/-! ## Readings and runs -/

/-- A step on a line that has begun is one move. -/
theorem move_of_pieceStep {st : State} {offset : Nat} {c : Char} {w rest : List Char}
    {p : Piece} {s : Step} (inside : st.isInside = true)
    (hfront : front c (w ++ rest) = .ok (p, w.length))
    (h : pieceStep st offset c (w ++ rest) = .ok s) :
    s.taken = w.length + 1 ∧
      Move ⟨st, offset, c :: (w ++ rest)⟩ s.tokens
        ⟨s.state, offset + byteLength (c :: w), rest⟩ := by
  unfold pieceStep at h
  rw [hfront] at h
  cases p with
  | skipped =>
    cases h
    exact ⟨rfl, .skip inside hfront⟩
  | lineFeed =>
    obtain ⟨rfl, hlength⟩ := eq_lineFeed_of_front hfront
    obtain rfl := List.eq_nil_of_length_eq_zero hlength
    simp only at h
    split at h
    case isTrue hclosed =>
      cases h
      exact ⟨rfl, .lineEnd inside (by simpa using hclosed)⟩
    case isFalse hopen =>
      cases h
      exact ⟨rfl, .feed (by simpa using hopen)⟩
  | token kind =>
    simp only [List.take_left] at h
    by_cases hop : kind = .op
    · subst hop
      cases hbrackets : brackets? st.brackets c with
      | error fault =>
        rw [hbrackets] at h
        cases h
      | ok brackets =>
        rw [hbrackets] at h
        cases h
        exact ⟨rfl, .token inside hfront (by rw [bracketsAfter, if_pos rfl, hbrackets])⟩
    · have hplain : s = ⟨{ st with lineOpen := true }, [tokenAt kind offset (c :: w)],
          w.length + 1, by omega⟩ := by
        cases kind with
        | op => exact absurd rfl hop
        | _ => exact (Except.ok.inj h).symm
      subst hplain
      exact ⟨rfl, .token inside hfront (by rw [bracketsAfter, if_neg hop])⟩

/-- What entering a line does: a block begins, blocks end, or the line goes on at its level. -/
inductive Enters (st : State) (column offset : Nat) : State → List Token → Prop
  | deeper (h : st.indents.headD 0 < column) :
      Enters st column offset { st with indents := column :: st.indents, lineOpen := true }
        [⟨.indent, .point offset, ""⟩]
  | back {closed outer} (hindents : st.indents = closed ++ outer) (hne : closed ≠ [])
      (hclosed : ∀ w ∈ closed, column < w) (houter : outer.headD 0 = column) :
      Enters st column offset { st with indents := outer, lineOpen := true }
        (closed.map fun _ => ⟨.dedent, .point offset, ""⟩)
  | level (h : st.indents.headD 0 = column) : Enters st column offset st []

theorem enterLine_cases {st st' : State} {column offset : Nat} {written : List Token}
    (h : enterLine st column offset = .ok (st', written)) :
    Enters st column offset st' written := by
  unfold enterLine at h
  dsimp only at h
  split at h
  case isTrue hdeeper =>
    cases h
    exact .deeper hdeeper
  split at h
  case isTrue hback =>
    split at h
    case isTrue houter =>
      cases h
      refine .back List.takeWhile_append_dropWhile.symm ?_ (fun w hw => ?_) houter
      · cases hindents : st.indents with
        | nil => simp [hindents] at hback
        | cons w ws =>
          rw [hindents, List.headD_cons] at hback
          simp [hback]
      · simpa using List.mem_takeWhile_imp hw
    case isFalse => cases h
  case isFalse hdeeper hback =>
    cases h
    exact .level (by omega)

theorem isInside_of_enterLine {st st' : State} {column offset : Nat} {written : List Token}
    (h : enterLine st.begun column offset = .ok (st', written)) : st'.isInside = true := by
  cases enterLine_cases h <;> rfl

theorem exists_move_of_pieceStep {st : State} {offset : Nat} {c : Char} {cs : List Char}
    {s : Step} (inside : st.isInside = true) (h : pieceStep st offset c cs = .ok s) :
    ∃ w rest, cs = w ++ rest ∧ s.taken = w.length + 1 ∧
      Move ⟨st, offset, c :: cs⟩ s.tokens ⟨s.state, offset + byteLength (c :: w), rest⟩ := by
  cases hfront : front c cs with
  | error fault =>
    rw [pieceStep, hfront] at h
    cases h
  | ok found =>
    obtain ⟨p, n⟩ := found
    have hsplit := List.take_append_drop n cs
    have hlength : (cs.take n).length = n := List.length_take_of_le (length_le_of_front hfront)
    have hpiece : front c (cs.take n ++ cs.drop n) = .ok (p, (cs.take n).length) := by
      rw [hsplit, hlength, hfront]
    rw [← hsplit] at h ⊢
    obtain ⟨htaken, hmove⟩ := move_of_pieceStep inside hpiece h
    exact ⟨_, _, rfl, htaken, hmove⟩

/-- The place after `n` characters, when these and the others are known. -/
theorem Reads.to_drop {p : Place} {ts : List Token} {st : State} {offset n : Nat}
    {text : List Char} (consumed rest : List Char) (htext : text = consumed ++ rest) (hn : n = consumed.length)
    (h : Reads p ts ⟨st, offset + byteLength consumed, rest⟩) :
    Reads p ts ⟨st, offset + byteLength (text.take n), text.drop n⟩ := by
  subst htext hn
  simpa using h

/-- A step at the start of a line is a move over a line without content, or two moves. -/
theorem reads_of_lineStep {st : State} {offset : Nat} {text : List Char} {s : Step}
    (hne : text ≠ []) (atStart : st.isInside = false) (h : lineStep st offset text = .ok s) :
    Reads ⟨st, offset, text⟩ s.tokens
      ⟨s.state, offset + byteLength (text.take s.taken), text.drop s.taken⟩ := by
  have indented : ∀ b ∈ text.takeWhile isIndentation, isIndentation b = true :=
    fun b hb => List.mem_takeWhile_imp hb
  have hsplit := List.takeWhile_append_dropWhile (p := isIndentation) (l := text)
  have hhead := List.head?_dropWhile_not isIndentation text
  unfold lineStep at h
  dsimp only at h
  split at h
  case h_1 hcontent =>
    cases h
    rw [hcontent, List.append_nil] at hsplit
    rw [hsplit] at indented
    have hmove : Reads ⟨st, offset, text⟩ _ _ := (Move.trailing atStart hne indented).reads
    simpa only [hsplit, State.begun, List.take_of_length_le (Nat.le_succ _),
      List.drop_eq_nil_of_le (Nat.le_succ _)] using hmove
  case h_2 rest hcontent =>
    cases h
    rw [hcontent] at hsplit
    refine Reads.to_drop (text.takeWhile isIndentation ++ ['\n']) rest (by simp [hsplit])
      (by simp) ?_
    have hmove : Move ⟨st, offset, _ ++ (_ ++ rest)⟩ _ _ :=
      .emptyLine atStart indented (.inl rfl)
    rw [List.singleton_append, hsplit] at hmove
    exact hmove.reads
  case h_3 rest hcontent =>
    cases h
    rw [hcontent] at hsplit
    refine Reads.to_drop (text.takeWhile isIndentation ++ ['\r', '\n']) rest (by simp [hsplit])
      (by simp) ?_
    have hmove : Move ⟨st, offset, _ ++ (_ ++ rest)⟩ _ _ :=
      .emptyLine atStart indented (.inr rfl)
    rw [List.cons_append, List.singleton_append, hsplit] at hmove
    exact hmove.reads
  case h_4 after hcontent =>
    cases h
    rw [hcontent] at hsplit
    have hafter := List.takeWhile_append_dropWhile (p := fun c => decide (c ≠ '\n')) (l := after)
    have ends : ((after.takeWhile (· ≠ '\n') ++ after.dropWhile (· ≠ '\n')).takeWhile
        (· ≠ '\n')).length = (after.takeWhile (· ≠ '\n')).length := by rw [hafter]
    refine Reads.to_drop (text.takeWhile isIndentation ++ '#' :: after.takeWhile (· ≠ '\n'))
      (after.dropWhile (· ≠ '\n')) (by simp [hsplit]) (by simp; omega) ?_
    have hmove : Move ⟨st, offset, _⟩ _ _ := .commentLine atStart indented ends
    rw [List.cons_append, hafter, hsplit] at hmove
    exact hmove.reads
  case h_5 c after hfeed hreturn hcomment hcontent =>
    rw [hcontent] at hsplit hhead
    have content : hasContent (c :: after) = true := by
      unfold hasContent
      split <;> simp_all
    have hbind := h
    simp only [bind, Except.bind] at hbind
    split at hbind
    case h_1 => cases hbind
    case h_2 entered henter =>
      obtain ⟨st', written⟩ := entered
      split at hbind
      case h_1 => cases hbind
      case h_2 piece hpiece =>
        cases hbind
        have inside := isInside_of_enterLine henter
        obtain ⟨w, rest, rfl, htaken, hmove⟩ := exists_move_of_pieceStep inside hpiece
        have henters := Move.enter atStart indented content henter
        rw [hsplit] at henters
        refine Reads.to_drop (text.takeWhile isIndentation ++ c :: w) rest (by simp [hsplit])
          (by simp [htaken]) ?_
        rw [byteLength_append, ← Nat.add_assoc]
        exact .step henters hmove.reads

/-- A step is one or two moves. -/
theorem reads_of_step {st : State} {offset : Nat} {c : Char} {cs : List Char} {s : Step}
    (h : step st offset c cs = .ok s) :
    Reads ⟨st, offset, c :: cs⟩ s.tokens
      ⟨s.state, offset + byteLength ((c :: cs).take s.taken), (c :: cs).drop s.taken⟩ := by
  unfold step at h
  split at h
  case isTrue hstart => exact reads_of_lineStep (by simp) (by simp [State.isInside, hstart]) h
  case isFalse hinside =>
    have inside : st.isInside = true := by
      rw [State.isInside, (Bool.not_eq_true _).mp hinside]
      rfl
    obtain ⟨w, rest, rfl, htaken, hmove⟩ := exists_move_of_pieceStep inside h
    exact Reads.to_drop (c :: w) rest rfl (by simp [htaken]) hmove.reads

/-- A run that succeeds reads the whole text. -/
theorem exists_reads_of_run {st : State} {offset : Nat} {cs : List Char} {written out : List Token}
    (h : run st offset cs written = .ok out) :
    ∃ ts st' offset' closing, Reads ⟨st, offset, cs⟩ ts ⟨st', offset', []⟩ ∧
      finish st' offset' = .ok closing ∧ out = written.reverse ++ (ts ++ closing) := by
  induction st, offset, cs, written using run.induct generalizing out with
  | case1 st offset written =>
    rw [run.eq_1] at h
    cases hfinish : finish st offset with
    | error e =>
      rw [hfinish] at h
      cases h
    | ok closing =>
      rw [hfinish] at h
      cases h
      exact ⟨[], st, offset, closing, .refl _, hfinish, rfl⟩
  | case2 st offset written c cs e herror =>
    rw [run.eq_2, herror] at h
    cases h
  | case3 st offset written c cs s hstep ih =>
    rw [run.eq_2, hstep] at h
    obtain ⟨ts, st', offset', closing, hreads, hfinish, rfl⟩ := ih h
    refine ⟨s.tokens ++ ts, st', offset', closing, (reads_of_step hstep).trans hreads, hfinish, ?_⟩
    simp

theorem run_of_step {st : State} {offset : Nat} {c : Char} {cs : List Char} {s : Step}
    (consumed rest : List Char) (written : List Token) (h : step st offset c cs = .ok s)
    (htext : c :: cs = consumed ++ rest) (htaken : s.taken = consumed.length) :
    run st offset (c :: cs) written =
      run s.state (offset + byteLength consumed) rest (s.tokens.reverse ++ written) := by
  rw [run.eq_2, h]
  dsimp only
  rw [htext, htaken, List.take_left, List.drop_left]

theorem step_of_isInside {st : State} (offset : Nat) (c : Char) (cs : List Char)
    (inside : st.isInside = true) : step st offset c cs = pieceStep st offset c cs := by
  rw [State.isInside, Bool.not_eq_true'] at inside
  rw [step, if_neg (by rw [inside]; exact Bool.false_ne_true)]

theorem run_of_pieceStep {st : State} {offset : Nat} {c : Char} {w rest : List Char} {s : Step}
    (written : List Token) (inside : st.isInside = true)
    (h : pieceStep st offset c (w ++ rest) = .ok s) (htaken : s.taken = w.length + 1) :
    run st offset (c :: (w ++ rest)) written =
      run s.state (offset + byteLength (c :: w)) rest (s.tokens.reverse ++ written) :=
  run_of_step (c :: w) rest written (by rw [step_of_isInside offset c _ inside, h]) rfl
    (by simp [htaken])

/-- A step at the start of a line whose indentation and content are known. -/
theorem run_of_lineStep {st : State} {offset : Nat} {blanks content : List Char} {s : Step}
    (consumed rest : List Char) (written : List Token) (atStart : st.isInside = false)
    (h : lineStep st offset (blanks ++ content) = .ok s) (hne : blanks ++ content ≠ [])
    (htext : blanks ++ content = consumed ++ rest) (htaken : s.taken = consumed.length) :
    run st offset (blanks ++ content) written =
      run s.state (offset + byteLength consumed) rest (s.tokens.reverse ++ written) := by
  obtain ⟨c, cs, hcons⟩ := List.exists_cons_of_ne_nil hne
  rw [State.isInside, Bool.not_eq_false'] at atStart
  rw [hcons] at h htext ⊢
  exact run_of_step consumed rest written (by rw [step, if_pos atStart, h]) htext htaken

theorem takeWhile_dropWhile_append {p : Char → Bool} {w rest : List Char}
    (hw : ∀ c ∈ w, p c = true) (hrest : ∀ c ∈ rest.head?, p c = false) :
    (w ++ rest).takeWhile p = w ∧ (w ++ rest).dropWhile p = rest := by
  have htake := takeWhile_append_eq (length_takeWhile_append.mpr ⟨hw, hrest⟩)
  have hsplit := List.takeWhile_append_dropWhile (p := p) (l := w ++ rest)
  rw [htake] at hsplit
  exact ⟨htake, List.append_cancel_left hsplit⟩

theorem hasContent_cons {c : Char} {cs : List Char} :
    hasContent (c :: cs) = true ↔
      isIndentation c = false ∧ c ≠ '\n' ∧ c ≠ '#' ∧ ∀ rest, c = '\r' → cs ≠ '\n' :: rest := by
  unfold hasContent
  split
  case h_1 hcons => cases hcons
  case h_2 hcons =>
    obtain ⟨hc, -⟩ := List.cons.inj hcons
    simp [hc]
  case h_3 hcons =>
    obtain ⟨hc, hcs⟩ := List.cons.inj hcons
    simp [hc, hcs]
  case h_4 hcons =>
    obtain ⟨hc, -⟩ := List.cons.inj hcons
    simp [hc]
  case h_5 hfeed hreturn hcomment hcons =>
    cases hcons
    rw [Bool.not_eq_true']
    exact ⟨fun h => ⟨h, hfeed, hcomment, hreturn⟩, fun h => h.1⟩

theorem lineStep_of_content {st st' : State} {offset : Nat} {blanks cs : List Char} {c : Char}
    {written : List Token} (indented : ∀ b ∈ blanks, isIndentation b = true)
    (content : hasContent (c :: cs) = true)
    (enters : enterLine st.begun (blanks.foldl advanceColumn 0) (offset + byteLength blanks) =
      .ok (st', written)) :
    lineStep st offset (blanks ++ c :: cs) =
      (pieceStep st' (offset + byteLength blanks) c cs >>= fun s =>
        .ok ⟨s.state, written ++ s.tokens, blanks.length + s.taken,
          Nat.lt_of_lt_of_le s.taken_pos (Nat.le_add_left _ _)⟩) := by
  obtain ⟨hblank, hfeed, hcomment, hreturn⟩ := hasContent_cons.mp content
  obtain ⟨htake, hdrop⟩ := takeWhile_dropWhile_append indented
    (show ∀ d ∈ (c :: cs).head?, isIndentation d = false by simpa using hblank)
  unfold lineStep
  unfold State.begun at enters
  simp only [htake, hdrop, enters]
  rfl

/-- A move is a part of every run through its place. -/
theorem Move.run_eq {p q : Place} {ts : List Token} (h : Move p ts q) (written : List Token) :
    run p.state p.offset p.rest written =
      run q.state q.offset q.rest (ts.reverse ++ written) := by
  cases h with
  | skip inside reads =>
    exact run_of_pieceStep written inside (s := ⟨_, [], _, by omega⟩) (by rw [pieceStep, reads]) rfl
  | @feed st offset rest inBrackets =>
    have inside : st.isInside = true := by simp [State.isInside, inBrackets]
    have hstep : pieceStep st offset '\n' ([] ++ rest) = .ok ⟨st, [], 1, by omega⟩ := by
      simp [pieceStep, front, inBrackets]
    exact run_of_pieceStep written inside hstep rfl
  | @lineEnd st offset rest inside closed =>
    have hstep : pieceStep st offset '\n' ([] ++ rest) =
        .ok ⟨{ st with atLineStart := true, lineOpen := false }, lineEnding st offset, 1,
          by omega⟩ := by
      simp [pieceStep, front, closed, lineEnding]
    exact run_of_pieceStep written inside hstep rfl
  | @token st offset c w rest kind brackets inside reads balance =>
    have hstep : pieceStep st offset c (w ++ rest) =
        .ok ⟨{ st with brackets, lineOpen := true }, [tokenAt kind offset (c :: w)], w.length + 1,
          by omega⟩ := by
      unfold pieceStep
      rw [reads]
      simp only [List.take_left]
      unfold bracketsAfter at balance
      cases kind with
      | op =>
        rw [if_pos rfl] at balance
        rw [balance]
        rfl
      | _ =>
        cases balance
        rfl
    exact run_of_pieceStep written inside hstep rfl
  | @emptyLine st offset blanks feed rest atStart indented ends =>
    have hhead : ∀ c ∈ (feed ++ rest).head?, isIndentation c = false := by
      rcases ends with rfl | rfl <;> simp [isIndentation]
    obtain ⟨htake, hdrop⟩ := takeWhile_dropWhile_append indented hhead
    have hstep : lineStep st offset (blanks ++ (feed ++ rest)) =
        .ok ⟨st, [], blanks.length + feed.length, by rcases ends with rfl | rfl <;> simp⟩ := by
      unfold lineStep
      rcases ends with rfl | rfl <;>
      · simp only [htake, hdrop]
        rfl
    have hne : feed ≠ [] := by rcases ends with rfl | rfl <;> simp
    exact run_of_lineStep _ _ written atStart hstep (by simp [hne]) (by simp) (by simp)
  | @commentLine st offset blanks w rest atStart indented ends =>
    obtain ⟨htake, hdrop⟩ := takeWhile_dropWhile_append indented
      (show ∀ c ∈ ('#' :: w ++ rest).head?, isIndentation c = false by simp [isIndentation])
    have hstep : lineStep st offset (blanks ++ ('#' :: w ++ rest)) =
        .ok ⟨st.begun, [], blanks.length + 1 + w.length, by omega⟩ := by
      rw [List.cons_append] at htake hdrop ⊢
      unfold lineStep
      simp only [htake, hdrop, ends]
      rfl
    exact run_of_lineStep _ _ written atStart hstep (by simp) (by simp) (by simp; omega)
  | @trailing st offset blanks atStart hne indented =>
    obtain ⟨htake, hdrop⟩ := takeWhile_dropWhile_append indented
      (show ∀ c ∈ ([] : List Char).head?, isIndentation c = false by simp)
    rw [List.append_nil] at htake hdrop
    have hstep : lineStep st offset blanks = .ok ⟨st.begun, [], blanks.length + 1, by omega⟩ := by
      unfold lineStep
      simp only [htake, hdrop]
      rfl
    obtain ⟨c, cs, hcons⟩ := List.exists_cons_of_ne_nil hne
    rw [State.isInside, Bool.not_eq_false'] at atStart
    simp only [hcons] at hstep ⊢
    rw [run.eq_2, step, if_pos atStart, hstep]
    simp [List.take_of_length_le (Nat.le_succ cs.length),
      List.drop_eq_nil_of_le (Nat.le_succ cs.length)]
  | @enter st st' offset blanks rest ts atStart indented content enters =>
    obtain ⟨c, cs, rfl⟩ := List.exists_cons_of_ne_nil (l := rest) (by
      rintro rfl
      cases content)
    have hline := lineStep_of_content indented content enters
    have hstep := step_of_isInside (offset + byteLength blanks) c cs (isInside_of_enterLine enters)
    cases hpiece : pieceStep st' (offset + byteLength blanks) c cs with
    | error e =>
      rw [hpiece] at hline hstep
      obtain ⟨d, ds, hcons⟩ := List.exists_cons_of_ne_nil (l := blanks ++ c :: cs) (by simp)
      rw [State.isInside, Bool.not_eq_false'] at atStart
      simp only [hcons] at hline ⊢
      rw [run.eq_2, step, if_pos atStart, hline, run.eq_2, hstep]
      rfl
    | ok s =>
      rw [hpiece] at hline hstep
      obtain ⟨w, rest, rfl, htaken, -⟩ :=
        exists_move_of_pieceStep (isInside_of_enterLine enters) hpiece
      rw [run_of_step (c :: w) rest _ hstep rfl (by simp [htaken]),
        run_of_lineStep (blanks ++ c :: w) rest written atStart hline (by simp) (by simp)
          (by simp [htaken])]
      simp [Nat.add_assoc]

/-- A reading is a part of every run through its place. -/
theorem Reads.run_eq {p q : Place} {ts : List Token} (h : Reads p ts q) (written : List Token) :
    run p.state p.offset p.rest written =
      run q.state q.offset q.rest (ts.reverse ++ written) := by
  induction h generalizing written with
  | refl => rfl
  | step move _ ih => rw [move.run_eq, ih, List.reverse_append, List.append_assoc]

end Lexer

end WorkflowAudit.Script
