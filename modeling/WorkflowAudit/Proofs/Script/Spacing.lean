import WorkflowAudit.Proofs.Script.Joining

/-! # Tokens and the space between them

Where a token ends does not depend on what comes behind it, as long as that does not go on the token;
a blank goes on none. So the tokens of a logical line, written with one blank between two of them,
are read again as the same tokens: neither the spacing of the line nor its comments and joins decide
what they are. The brackets are matched within the line, since no line ends inside brackets.
-/

namespace WorkflowAudit.Script

/-- For each logical line its tokens that stand for text. -/
def logicalLines (tokens : List Token) : List (List Token) :=
  (tokens.splitOnP (·.kind = .newline)).map (List.filter (·.kind.isLexical))

/-- The texts of tokens, with one blank between two of them. -/
def spaced (line : List Token) : String := " ".intercalate (line.map (·.text))

namespace Lexer

open Text

/-! ## Tokens that can be read again -/

/-- Tokens that were read where some brackets were open: each that stands for text is read at the
front of some text, and no bracket is open where a line ends or where the tokens end. -/
inductive Legible : List Char → List Token → Prop
  | nil : Legible [] []
  | mark {brackets t ts} (structural : t.kind.isLexical = false)
      (closed : t.kind = .newline → brackets = []) (rest : Legible brackets ts) :
      Legible brackets (t :: ts)
  | word {brackets brackets' c w after t ts} (text : t.text = String.ofList (c :: w))
      (reads : front c (w ++ after) = .ok (.token t.kind, w.length))
      (balance : bracketsAfter t.kind brackets c = .ok brackets') (rest : Legible brackets' ts) :
      Legible brackets (t :: ts)

theorem Legible.marks {brackets : List Char} {ts us : List Token}
    (structural : ∀ t ∈ ts, t.kind.isLexical = false)
    (closed : ∀ t ∈ ts, t.kind = .newline → brackets = []) (rest : Legible brackets us) :
    Legible brackets (ts ++ us) := by
  induction ts with
  | nil => exact rest
  | cons t ts ih =>
    obtain ⟨ht, hts⟩ := List.forall_mem_cons.mp structural
    obtain ⟨hfirst, hmore⟩ := List.forall_mem_cons.mp closed
    exact .mark ht hfirst (ih hts hmore)

theorem Move.legible {p q : Place} {ts us : List Token} (h : Move p ts q)
    (rest : Legible q.state.brackets us) : Legible p.state.brackets (ts ++ us) := by
  cases h with
  | skip | feed | emptyLine | commentLine | trailing => exact rest
  | @lineEnd st offset _ inside closed =>
    refine .marks (fun t ht => ?_) (fun _ _ _ => closed) rest
    unfold lineEnding at ht
    split at ht
    · rw [List.mem_singleton.mp ht]
      rfl
    · cases ht
  | token inside reads balance => exact .word rfl reads balance rest
  | @enter st st' offset blanks _ _ atStart indented content enters =>
    rw [brackets_of_enterLine enters] at rest
    refine .marks (fun t ht => (span_of_enterLine enters t ht).2) (fun t ht hline => ?_) rest
    cases enterLine_cases enters with
    | deeper => cases (congrArg Token.kind (List.mem_singleton.mp ht)).symm.trans hline
    | back =>
      obtain ⟨_, -, rfl⟩ := List.mem_map.mp ht
      cases hline
    | level => cases ht

theorem Completes.legible {p : Place} {ts : List Token} (h : Completes p ts) :
    Legible p.state.brackets ts := by
  induction h with
  | @done st offset closing finishes =>
    have closed := (exists_of_finish finishes).1
    have marks := closing_of_finish finishes
    simpa [closed] using
      Legible.marks (fun t ht => (marks t ht).1) (fun _ _ _ => rfl) Legible.nil
  | step move _ ih => exact move.legible ih

theorem legible_of_tokenize {text : String} {tokens : List Token} (h : tokenize text = .ok tokens) :
    Legible [] tokens := by
  obtain ⟨_, _, _, _, _, _, -, -, -, reads, finishes, rfl⟩ := exists_reads_of_tokenize h
  exact (reads.completes (.done finishes)).legible

/-! ## Lines -/

theorem logicalLines_cons_newline {t : Token} (ts : List Token) (ht : t.kind = .newline) :
    logicalLines (t :: ts) = [] :: logicalLines ts := by
  simp [logicalLines, List.splitOnP_cons_eq_if_modifyHead, ht]

theorem logicalLines_cons {t : Token} {ts : List Token} {line : List Token}
    {lines : List (List Token)} (ht : t.kind ≠ .newline) (h : logicalLines ts = line :: lines) :
    logicalLines (t :: ts) = (if t.kind.isLexical then t :: line else line) :: lines := by
  obtain ⟨run, runs, split, rfl, rfl⟩ := List.map_eq_cons_iff.mp h
  simp [logicalLines, List.splitOnP_cons_eq_if_modifyHead, ht, split, List.filter_cons]

/-- The words of each line are legible from no open bracket on, but for the first line. -/
theorem Legible.lines {brackets : List Char} {ts : List Token} (h : Legible brackets ts) :
    ∃ line lines, logicalLines ts = line :: lines ∧ Legible brackets line ∧
      ∀ l ∈ lines, Legible [] l := by
  induction h with
  | nil => exact ⟨[], [], rfl, .nil, nofun⟩
  | @mark brackets t ts structural closed _ ih =>
    obtain ⟨line, lines, split, first, others⟩ := ih
    by_cases hline : t.kind = .newline
    · obtain rfl := closed hline
      exact ⟨[], line :: lines, by rw [logicalLines_cons_newline ts hline, split], .nil,
        List.forall_mem_cons.mpr ⟨first, others⟩⟩
    · exact ⟨line, lines, by simp [logicalLines_cons hline split, structural], first, others⟩
  | @word brackets brackets' c w after t ts text reads balance _ ih =>
    obtain ⟨line, lines, split, first, others⟩ := ih
    have lexical := isLexical_of_front reads
    have hline : t.kind ≠ .newline := by
      intro hkind
      rw [hkind] at lexical
      cases lexical
    exact ⟨t :: line, lines, by simp [logicalLines_cons hline split, lexical],
      .word text reads balance first, others⟩

theorem legible_of_mem_logicalLines {text : String} {tokens line : List Token}
    (h : tokenize text = .ok tokens) (member : line ∈ logicalLines tokens) : Legible [] line := by
  obtain ⟨first, lines, split, hfirst, others⟩ := (legible_of_tokenize h).lines
  rw [split] at member
  rcases List.mem_cons.mp member with rfl | member
  · exact hfirst
  · exact others line member

/-! ## Reading again -/

/-- Before a blank, and before the end of a text, every token ends. -/
theorem front_token_append {c : Char} {w rest : List Char} (rest' : List Char) {kind : TokenKind}
    (h : front c (w ++ rest) = .ok (.token kind, w.length)) (blank : ∀ y ∈ rest'.head?, y = ' ') :
    front c (w ++ rest') = .ok (.token kind, w.length) := by
  have same : front c (w ++ ([] ++ rest)) = .ok (.token kind, w.length) := h
  refine front_replace (fun y hy => ?_) (fun _ => ?_) same
  · obtain rfl := blank y hy
    decide
  · cases kind with
    | name | number | str =>
      intro y hy
      obtain rfl := blank y hy
      decide
    | _ => trivial

/-- Words that are legible from some open brackets on are read where these are open. -/
theorem Legible.reads_spaced {brackets : List Char} {line : List Token} (h : Legible brackets line)
    (words : ∀ t ∈ line, t.kind.isLexical = true) (lineOpen : Bool) (offset : Nat)
    (some : line ≠ []) :
    ∃ again, Reads ⟨⟨[], brackets, false, lineOpen⟩, offset, (spaced line).toList⟩ again
        ⟨⟨[], [], false, true⟩, offset + byteLength (spaced line).toList, []⟩ ∧
      again.map Token.lexeme = line.map Token.lexeme := by
  induction h generalizing lineOpen offset with
  | nil => exact absurd rfl some
  | mark structural =>
    cases structural.symm.trans (words _ List.mem_cons_self)
  | @word brackets brackets' c w after t ts text reads balance rest ih =>
    have lexeme : (tokenAt t.kind offset (c :: w)).lexeme = t.lexeme := by
      rw [Token.lexeme, Token.lexeme, text]
      rfl
    cases ts with
    | nil =>
      cases rest
      have content : (spaced [t]).toList = c :: (w ++ []) := by simp [spaced, text]
      have move : Move ⟨⟨[], brackets, false, lineOpen⟩, offset, c :: (w ++ [])⟩
          [tokenAt t.kind offset (c :: w)] ⟨⟨[], [], false, true⟩, offset + byteLength (c :: w), []⟩ :=
        .token rfl (front_token_append [] reads (by simp)) balance
      rw [content]
      exact ⟨_, by simpa using move.reads, by rw [List.map_singleton, lexeme]; rfl⟩
    | cons u ts =>
      have content : (spaced (t :: u :: ts)).toList = c :: (w ++ ' ' :: (spaced (u :: ts)).toList) := by
        simp [spaced, text, String.intercalate_cons_cons]
      have move : Move ⟨⟨[], brackets, false, lineOpen⟩, offset, _⟩
          [tokenAt t.kind offset (c :: w)] ⟨⟨[], brackets', false, true⟩, _, _⟩ :=
        .token rfl (front_token_append (' ' :: (spaced (u :: ts)).toList) reads (by simp)) balance
      have blank : Move ⟨⟨[], brackets', false, true⟩, offset + byteLength (c :: w),
          ' ' :: ([] ++ (spaced (u :: ts)).toList)⟩ [] ⟨⟨[], brackets', false, true⟩, _, _⟩ :=
        .skip rfl rfl
      obtain ⟨again, more, lexemes⟩ := ih (List.forall_mem_cons.mp words).2 true
        (offset + byteLength (c :: w) + byteLength [' ']) (by simp)
      refine ⟨tokenAt t.kind offset (c :: w) :: again, ?_, ?_⟩
      · rw [content]
        have all := Reads.step move (.step blank more)
        simpa [Nat.add_assoc] using all
      · rw [List.map_cons, lexemes, lexeme]
        rfl

theorem mem_of_operatorLength? {c : Char} {cs : List Char} {n : Nat}
    (h : operatorLength? c cs = some n) : c ∈ '!' :: shortOperators := by
  have heads : ((longOperators ++ mediumOperators).all fun op =>
      op.head?.any ('!' :: shortOperators).contains) = true := by decide
  have first : ∀ op ∈ longOperators ++ mediumOperators, op.isPrefixOf (c :: cs) = true →
      c ∈ '!' :: shortOperators := by
    intro op hop stands
    obtain ⟨d, hd, hmem⟩ := (Option.any_eq_true _ _).mp (List.all_eq_true.mp heads op hop)
    obtain ⟨rest, rfl⟩ := List.head?_eq_some_iff.mp hd
    obtain ⟨rfl, -⟩ := List.cons_prefix_cons.mp (List.isPrefixOf_iff_prefix.mp stands)
    exact List.contains_iff_mem.mp hmem
  unfold operatorLength? at h
  split at h
  case isTrue long =>
    obtain ⟨op, hop, stands⟩ := List.any_eq_true.mp long
    exact first op (List.mem_append_left _ hop) stands
  split at h
  case isTrue medium =>
    obtain ⟨op, hop, stands⟩ := List.any_eq_true.mp medium
    exact first op (List.mem_append_right _ hop) stands
  split at h
  case isTrue short => exact List.mem_cons_of_mem _ (List.contains_iff_mem.mp short)
  case isFalse => cases h

/-- A token begins neither with white space nor with a mark of the encoding. -/
theorem begins_of_front {c : Char} {cs : List Char} {kind : TokenKind} {n : Nat}
    (h : front c cs = .ok (.token kind, n)) (rest : List Char) :
    hasContent (c :: rest) = true ∧ c ≠ '\ufeff' := by
  have plain : ∀ d, (∀ k, front d cs ≠ .ok (.token kind, k)) → c ≠ d := by
    rintro d none rfl
    exact none n h
  refine ⟨hasContent_cons.mpr ⟨?_, plain '\n' ?_, plain '#' ?_, fun _ hreturn => ?_⟩, plain _ ?_⟩
  · rw [isIndentation]
    simp only [Bool.or_eq_false_iff, decide_eq_false_iff_not]
    exact ⟨⟨plain ' ' (by simp [front]), plain '\t' (by simp [front])⟩, plain '\x0c' (by simp [front])⟩
  · simp [front]
  · simp [front]
  · exact absurd hreturn (plain '\r' (by simp [front]))
  · intro k hmark
    cases front_cases hmark with
    | literal hquote => exact absurd hquote (by decide)
    | number hnumber => simp [Char.isDigit] at hnumber
    | name hname | prefixed hname =>
      have none : startsName '\ufeff' = false := by decide +kernel
      cases none.symm.trans hname
    | operator hlength => exact absurd (mem_of_operatorLength? hlength) (by decide)

theorem Legible.begins_spaced {brackets : List Char} {line : List Token} (h : Legible brackets line)
    (words : ∀ t ∈ line, t.kind.isLexical = true) (some : line ≠ []) :
    hasContent (spaced line).toList = true ∧ (spaced line).toList.head? ≠ Option.some '\ufeff' := by
  cases h with
  | nil => exact absurd rfl some
  | mark structural => cases structural.symm.trans (words _ List.mem_cons_self)
  | @word _ _ c w after t ts text reads =>
    obtain ⟨rest, begins⟩ : ∃ rest, (spaced (t :: ts)).toList = c :: rest := by
      cases ts <;> simp [spaced, text, String.intercalate_cons_cons]
    obtain ⟨content, mark⟩ := begins_of_front reads rest
    exact ⟨begins ▸ content, by simpa [begins] using mark⟩

end Lexer

/-- The tokens of a logical line, written with one blank between two of them, are read again as the
same tokens, with the end of a line and the end of the text behind them. -/
theorem tokenize_spaced {text : String} {tokens line : List Token}
    (h : tokenize text = .ok tokens) (member : line ∈ logicalLines tokens) (some : line ≠ []) :
    ∃ again, tokenize (spaced line) = .ok again ∧
      again.map Token.lexeme = line.map Token.lexeme ++ [(.newline, ""), (.endMarker, "")] := by
  have words : ∀ t ∈ line, t.kind.isLexical = true := by
    obtain ⟨run, -, rfl⟩ := List.mem_map.mp member
    exact fun t ht => (List.mem_filter.mp ht).2
  have legible := Lexer.legible_of_mem_logicalLines h member
  obtain ⟨again, reads, lexemes⟩ := legible.reads_spaced words false 0 some
  obtain ⟨content, mark⟩ := legible.begins_spaced words some
  have enters : Lexer.Move ⟨.initial, 0, [] ++ (spaced line).toList⟩ []
      ⟨Lexer.State.initial.begun, 0, (spaced line).toList⟩ :=
    .enter rfl nofun content rfl
  obtain ⟨closing, finishes, closes⟩ : ∃ closing,
      Lexer.finish ⟨[], [], false, true⟩ (0 + Text.byteLength (spaced line).toList) = .ok closing ∧
      closing.map Token.lexeme = [(.newline, ""), (.endMarker, "")] := ⟨_, rfl, rfl⟩
  refine ⟨again ++ closing, ?_, by rw [List.map_append, lexemes, closes]⟩
  have text : (spaced line).toList = [] ++ (spaced line).toList := rfl
  exact Lexer.tokenize_of_reads text (.inl rfl) (fun _ => mark) (.step enters reads) finishes

/-- A line in a block, with a comment inside its brackets and a join. -/
def crampedText : String := "if a:\n  x=f(1e-3,#b\n\n'y'\\\n**2)\n"

def crampedLine : List Token := [
  ⟨.name, ⟨8, 9⟩, "x"⟩, ⟨.op, ⟨9, 10⟩, "="⟩, ⟨.name, ⟨10, 11⟩, "f"⟩, ⟨.op, ⟨11, 12⟩, "("⟩,
  ⟨.number, ⟨12, 16⟩, "1e-3"⟩, ⟨.op, ⟨16, 17⟩, ","⟩, ⟨.str, ⟨21, 24⟩, "'y'"⟩,
  ⟨.op, ⟨26, 28⟩, "**"⟩, ⟨.number, ⟨28, 29⟩, "2"⟩, ⟨.op, ⟨29, 30⟩, ")"⟩]

theorem tokenize_spaced_crampedText : ∃ tokens, tokenize crampedText = .ok tokens ∧
    crampedLine ∈ logicalLines tokens ∧ crampedLine ≠ [] ∧
    spaced crampedLine = "x = f ( 1e-3 , 'y' ** 2 )" ∧
    ∃ again, tokenize "x = f ( 1e-3 , 'y' ** 2 )" = .ok again ∧
      again.map Token.lexeme =
        crampedLine.map Token.lexeme ++ [(.newline, ""), (.endMarker, "")] := by
  have tokens : tokenize crampedText = .ok ([⟨.name, ⟨0, 2⟩, "if"⟩, ⟨.name, ⟨3, 4⟩, "a"⟩,
      ⟨.op, ⟨4, 5⟩, ":"⟩, ⟨.newline, ⟨5, 6⟩, "\n"⟩, ⟨.indent, ⟨8, 8⟩, ""⟩] ++ crampedLine ++
      [⟨.newline, ⟨30, 31⟩, "\n"⟩, ⟨.dedent, ⟨31, 31⟩, ""⟩, ⟨.endMarker, ⟨31, 31⟩, ""⟩]) := by
    decide +kernel
  have member := List.mem_cons_of_mem
    [⟨.name, ⟨0, 2⟩, "if"⟩, ⟨.name, ⟨3, 4⟩, "a"⟩, ⟨.op, ⟨4, 5⟩, ":"⟩]
    (List.mem_cons_self (a := crampedLine) (l := [[]]))
  have spacing : spaced crampedLine = "x = f ( 1e-3 , 'y' ** 2 )" := by decide +kernel
  exact ⟨_, tokens, member, nofun, spacing, spacing ▸ tokenize_spaced tokens member nofun⟩

end WorkflowAudit.Script
