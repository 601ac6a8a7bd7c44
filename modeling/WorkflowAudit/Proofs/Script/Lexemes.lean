import WorkflowAudit.Proofs.Script.Bracket

/-!
# Lexemes of a text

Tokens without their places. A whole text is lexed exactly when there is a reading of it to its
end; texts such as calls and quoted words, which begin and end with characters of their own,
give the same lexemes wherever they stand and leave the line state as it was.
-/

namespace WorkflowAudit.Script

open Text

/-- The lexemes of a text that stand for text; a text that does not lex has none. -/
def lexemes (text : String) : List (TokenKind × String) :=
  match tokenize text with
  | .ok ts => (ts.filter (·.kind.isLexical)).map Token.lexeme
  | .error _ => []

namespace Lexer

/-! ## Whole texts -/

/-- A byte-order mark that may stand before a script. -/
def isMark (mark : List Char) : Prop := mark = [] ∨ mark = ['\ufeff']

theorem exists_mark (text : String) :
    ∃ mark cs, text.toList = mark ++ cs ∧ isMark mark ∧ (mark = [] → cs.head? ≠ some '\ufeff') := by
  by_cases h : text.toList.head? = some '\ufeff'
  · obtain ⟨cs, hcs⟩ := List.head?_eq_some_iff.mp h
    exact ⟨['\ufeff'], cs, hcs, .inr rfl, nofun⟩
  · exact ⟨[], text.toList, rfl, .inl rfl, fun _ => h⟩

theorem tokenize_eq_run {text : String} {mark cs : List Char} (htext : text.toList = mark ++ cs)
    (hmark : isMark mark) (hhead : mark = [] → cs.head? ≠ some '\ufeff') :
    tokenize text = run .initial (byteLength mark) cs [] := by
  unfold tokenize
  rcases hmark with rfl | rfl
  · split
    case h_1 cs' hcs =>
      rw [htext, List.nil_append] at hcs
      exact absurd (congrArg List.head? hcs) (hhead rfl)
    case h_2 => rw [htext]; rfl
  · rw [htext]
    rfl

theorem exists_reads_of_tokenize {text : String} {out : List Token} (h : tokenize text = .ok out) :
    ∃ mark cs ts st offset closing, text.toList = mark ++ cs ∧ isMark mark ∧
      (mark = [] → cs.head? ≠ some '\ufeff') ∧
      Reads ⟨.initial, byteLength mark, cs⟩ ts ⟨st, offset, []⟩ ∧
      finish st offset = .ok closing ∧ out = ts ++ closing := by
  obtain ⟨mark, cs, htext, hmark, hhead⟩ := exists_mark text
  rw [tokenize_eq_run htext hmark hhead] at h
  obtain ⟨ts, st, offset, closing, hreads, hfinish, hout⟩ := exists_reads_of_run h
  exact ⟨mark, cs, ts, st, offset, closing, htext, hmark, hhead, hreads, hfinish, hout⟩

theorem tokenize_of_reads {text : String} {mark cs : List Char} {ts closing : List Token}
    {st : State} {offset : Nat} (htext : text.toList = mark ++ cs) (hmark : isMark mark)
    (hhead : mark = [] → cs.head? ≠ some '\ufeff')
    (hreads : Reads ⟨.initial, byteLength mark, cs⟩ ts ⟨st, offset, []⟩)
    (hfinish : finish st offset = .ok closing) : tokenize text = .ok (ts ++ closing) := by
  have hrun := hreads.run_eq []
  dsimp only at hrun
  rw [tokenize_eq_run htext hmark hhead, hrun, run.eq_1, hfinish]
  simp [bind, Except.bind]

/-- What is written at the end of a text is line structure, and stands at the end. -/
theorem closing_of_finish {st : State} {offset : Nat} {closing : List Token}
    (h : finish st offset = .ok closing) :
    ∀ t ∈ closing, t.kind.isLexical = false ∧ t.span = .point offset := by
  unfold finish at h
  split at h
  · cases h
  · cases h
    intro t ht
    simp only [List.mem_append, List.mem_map, List.mem_singleton] at ht
    rcases ht with (ht | ⟨_, _, rfl⟩) | rfl
    · split at ht
      · rw [List.mem_singleton] at ht
        subst ht
        exact ⟨rfl, rfl⟩
      · cases ht
    · exact ⟨rfl, rfl⟩
    · exact ⟨rfl, rfl⟩

theorem finish_offset {st : State} {offset : Nat} {closing : List Token}
    (h : finish st offset = .ok closing) (offset' : Nat) :
    ∃ closing', finish st offset' = .ok closing' ∧
      closing'.map Token.lexeme = closing.map Token.lexeme := by
  unfold finish at h ⊢
  split at h
  · cases h
  · cases h
    refine ⟨_, rfl, ?_⟩
    simp only [List.map_append, List.map_map, List.map_singleton]
    split <;> rfl

/-! ## Steady texts -/

/-- Whether a text gives some lexemes wherever it stands on a line, and leaves the line state as
    it was, with an open line. -/
def Steady (text : List Char) (found : List (TokenKind × String)) : Prop :=
  ∀ st offset rest, st.isInside = true →
    ∃ ts, Reads ⟨st, offset, text ++ rest⟩ ts
        ⟨{ st with lineOpen := true }, offset + byteLength text, rest⟩ ∧
      ts.map Token.lexeme = found

/-- A token before a steady text that it does not run into. -/
theorem Steady.cons {kind : TokenKind} {c : Char} {w text : List Char}
    {found : List (TokenKind × String)} (h : Steady text found)
    (hfront : ∀ rest, front c (w ++ (text ++ rest)) = .ok (.token kind, w.length))
    (hbrackets : ∀ brackets, bracketsAfter kind brackets c = .ok brackets) :
    Steady (c :: (w ++ text)) ((kind, String.ofList (c :: w)) :: found) := by
  intro st offset rest inside
  have hmove : Move ⟨st, offset, c :: (w ++ (text ++ rest))⟩ [tokenAt kind offset (c :: w)]
      ⟨{ st with lineOpen := true }, offset + byteLength (c :: w), text ++ rest⟩ :=
    .token inside (hfront rest) (hbrackets st.brackets)
  obtain ⟨ts, hreads, hlexemes⟩ :=
    h { st with lineOpen := true } (offset + byteLength (c :: w)) rest inside
  refine ⟨tokenAt kind offset (c :: w) :: ts, ?_, by rw [List.map_cons, hlexemes]; rfl⟩
  simpa [Nat.add_assoc] using Reads.step hmove hreads

theorem front_operator {c : Char} {cs : List Char} {n : Nat}
    (hclass : c ∉ [' ', '\t', '\x0c', '\r', '\n', '#', '\\', '"', '\''])
    (hdigit : (c.isDigit || c = '.' && cs.head?.any Char.isDigit) = false)
    (hword : startsName c = false) (hlength : operatorLength? c cs = some n) :
    front c cs = .ok (.token .op, n - 1) := by
  simp only [List.mem_cons, List.not_mem_nil, or_false, not_or] at hclass
  unfold front
  simp [hclass, isQuote, hword, hlength, hdigit]

theorem front_bracket {c : Char} (rest : List Char)
    (hc : c ∈ ['(', '[', '\x7b', ')', ']', '\x7d']) : front c rest = .ok (.token .op, 0) := by
  have hclass : (['(', '[', '\x7b', ')', ']', '\x7d'].all fun c =>
      !([' ', '\t', '\x0c', '\r', '\n', '#', '\\', '"', '\''].contains c) && !c.isDigit &&
        c != '.' && !startsName c) = true := by decide
  have hall := List.all_eq_true.mp hclass c hc
  simp only [Bool.and_eq_true, Bool.not_eq_true', bne_iff_ne, ne_eq] at hall
  obtain ⟨⟨⟨hplain, hdigit⟩, hdot⟩, hword⟩ := hall
  exact front_operator (by simpa using hplain) (by simp [hdigit, hdot]) hword
    (operatorLength?_bracket rest hc)

theorem front_name {c d : Char} {w : List Char} (rest : List Char) (hc : startsName c = true)
    (hw : ∀ e ∈ w, continuesName e = true) (hd : continuesName d = false)
    (hquote : isQuote d = false) :
    front c (w ++ d :: rest) = .ok (.token .name, w.length) := by
  rw [front_word hc hw (by simpa using hd)]
  simp [wordPiece, hquote]

theorem front_dot {c : Char} (rest : List Char) (hc : startsName c = true) :
    front '.' (c :: rest) = .ok (.token .op, 0) := by
  have hword : beginsWord c = true := by rw [beginsWord, hc, Bool.true_or]
  have hdot : c ≠ '.' := ne_of_beginsWord hword '.' (by decide)
  have hpoints : ∀ op ∈ longOperators ++ mediumOperators,
      op.head? = some '.' → op[1]? = some '.' := by decide
  have hlength : operatorLength? '.' (c :: rest) = some 1 := by
    refine operatorLength?_of_second (fun op hop hhead hsecond => hdot ?_) (by decide)
    exact (Option.some.inj ((hpoints op hop hhead).symm.trans hsecond)).symm
  refine front_operator (by decide) ?_ (by decide) hlength
  rw [List.head?_cons, Option.any_some, isDigit_of_beginsWord hword]
  rfl

theorem front_equals {rest : List Char} (h : rest.head? ≠ some '=') :
    front '=' rest = .ok (.token .op, 0) := by
  have hdouble : ∀ op ∈ longOperators ++ mediumOperators,
      op.head? = some '=' → op[1]? = some '=' := by decide
  refine front_operator (by decide) (by simp) (by decide) (operatorLength?_of_second ?_ (by decide))
  intro op hop hhead hsecond
  exact h (hsecond.symm.trans (hdouble op hop hhead))

/-- Parentheses around nothing or around a steady text. -/
theorem Steady.parens {inner : List Char} {found : List (TokenKind × String)}
    (h : inner = [] ∧ found = [] ∨ Steady inner found) :
    Steady ('(' :: (inner ++ [')'])) ((.op, "(") :: (found ++ [(.op, ")")])) := by
  intro st offset rest inside
  let opened : State := { st with brackets := '(' :: st.brackets, lineOpen := true }
  have hinside : opened.isInside = true := by simp [opened, State.isInside]
  have hopen : Move ⟨st, offset, '(' :: ([] ++ (inner ++ ')' :: rest))⟩
      [tokenAt .op offset ['(']] ⟨opened, offset + 1, inner ++ ')' :: rest⟩ :=
    .token inside (front_bracket _ (by simp)) rfl
  have hinner : ∃ ts, Reads ⟨opened, offset + 1, inner ++ ')' :: rest⟩ ts
      ⟨opened, offset + 1 + byteLength inner, ')' :: rest⟩ ∧ ts.map Token.lexeme = found := by
    rcases h with ⟨rfl, rfl⟩ | h
    · exact ⟨[], .refl _, rfl⟩
    · exact h opened (offset + 1) (')' :: rest) hinside
  have hclose : Move ⟨opened, offset + 1 + byteLength inner, ')' :: ([] ++ rest)⟩
      [tokenAt .op (offset + 1 + byteLength inner) [')']]
      ⟨{ st with lineOpen := true }, offset + 1 + byteLength inner + 1, rest⟩ :=
    .token hinside (front_bracket _ (by simp)) rfl
  obtain ⟨ts, hreads, hlexemes⟩ := hinner
  refine ⟨tokenAt .op offset ['('] ::
    (ts ++ [tokenAt .op (offset + 1 + byteLength inner) [')']]), ?_, ?_⟩
  · have hall := Reads.step hopen (hreads.trans hclose.reads)
    have hlength : offset + byteLength ('(' :: (inner ++ [')'])) =
        offset + 1 + byteLength inner + 1 := by
      have hsize : '('.utf8Size = 1 ∧ ')'.utf8Size = 1 := ⟨rfl, rfl⟩
      simp only [byteLength_cons, byteLength_append, byteLength_nil, hsize]
      omega
    rw [hlength]
    simpa using hall
  · rw [List.map_cons, List.map_append, hlexemes]
    rfl

theorem shortLiteralTail?_plain {quote : Char} {w : List Char} (rest : List Char)
    (hquote : quote ≠ '\\') (hw : ∀ d ∈ w, d ≠ quote ∧ d ≠ '\\' ∧ d ≠ '\n') :
    shortLiteralTail? quote (w ++ quote :: rest) = some (w.length + 1) := by
  induction w with
  | nil => rw [List.nil_append, shortLiteralTail?_cons quote rest hquote, if_pos rfl]; rfl
  | cons d w ih =>
    obtain ⟨hne, hescape, hfeed⟩ := hw d List.mem_cons_self
    rw [List.cons_append, shortLiteralTail?_cons quote _ hescape, if_neg hne, if_neg hfeed,
      ih fun e he => hw e (List.mem_cons_of_mem d he)]
    rfl

/-- A quoted word. -/
theorem steady_literal {quote : Char} {w : List Char} (hquote : isQuote quote = true)
    (hne : w ≠ []) (hw : ∀ d ∈ w, d ≠ quote ∧ d ≠ '\\' ∧ d ≠ '\n') :
    Steady (quote :: (w ++ [quote])) [(.str, String.ofList (quote :: (w ++ [quote])))] := by
  intro st offset rest inside
  have hquotes : quote = '"' ∨ quote = '\'' := by simpa [isQuote] using hquote
  have hfront : front quote ((w ++ [quote]) ++ rest) =
      .ok (.token .str, (w ++ [quote]).length) := by
    have htail : literalTail? quote (w ++ quote :: rest) = some (w.length + 1) := by
      obtain ⟨d, w, rfl⟩ := List.exists_cons_of_ne_nil hne
      have hshort : ¬[quote, quote].isPrefixOf (d :: w ++ quote :: rest) = true := by
        rw [List.isPrefixOf_iff_prefix, List.cons_append, List.cons_prefix_cons]
        exact fun h => (hw d List.mem_cons_self).1 h.1.symm
      rw [literalTail?, if_neg hshort]
      refine shortLiteralTail?_plain rest ?_ hw
      rcases hquotes with rfl | rfl <;> decide
    rw [List.append_assoc, List.singleton_append]
    unfold front
    rcases hquotes with rfl | rfl <;> simp [isQuote, htail]
  have hmove : Move ⟨st, offset, quote :: ((w ++ [quote]) ++ rest)⟩
      [tokenAt .str offset (quote :: (w ++ [quote]))]
      ⟨{ st with lineOpen := true }, offset + byteLength (quote :: (w ++ [quote])), rest⟩ :=
    .token inside hfront rfl
  exact ⟨_, hmove.reads, rfl⟩

/-- The lexemes of a steady text that begins with a word. -/
theorem lexemes_of_steady {c : Char} {text : List Char} {found : List (TokenKind × String)}
    (h : Steady (c :: text) found) (hc : beginsWord c = true)
    (hfound : ∀ l ∈ found, l.1.isLexical = true) :
    lexemes (String.ofList (c :: text)) = found := by
  have henters : Move ⟨.initial, 0, [] ++ c :: text⟩ [] ⟨State.initial.begun, 0, c :: text⟩ :=
    .enter rfl (by simp) (hasContent_of_beginsWord text hc) rfl
  obtain ⟨ts, hreads, hlexemes⟩ := h State.initial.begun 0 [] rfl
  rw [List.append_nil] at hreads
  obtain ⟨closing, hfinish⟩ : ∃ closing, finish { State.initial.begun with lineOpen := true }
      (0 + byteLength (c :: text)) = .ok closing := ⟨_, rfl⟩
  have hmark : ([] : List Char) = [] → (c :: text).head? ≠ some '\ufeff' := by
    intro _ hhead
    exact ne_of_beginsWord hc '\ufeff' (by decide +kernel) (Option.some.inj hhead)
  have htokens : tokenize (String.ofList (c :: text)) = .ok (ts ++ closing) :=
    tokenize_of_reads (String.toList_ofList) (.inl rfl) hmark (.step henters hreads) hfinish
  have hts : ts.filter (·.kind.isLexical) = ts := by
    refine List.filter_eq_self.mpr fun t ht => ?_
    exact hfound t.lexeme (hlexemes ▸ List.mem_map_of_mem ht)
  have hclosing : closing.filter (·.kind.isLexical) = [] := by
    refine List.filter_eq_nil_iff.mpr fun t ht => ?_
    rw [(closing_of_finish hfinish t ht).1]
    exact Bool.false_ne_true
  rw [lexemes, htokens]
  simp only [List.filter_append, hts, hclosing, List.append_nil, hlexemes]

end Lexer

end WorkflowAudit.Script
