import WorkflowAudit.Proofs.Script.CarriageReturn
import WorkflowAudit.Proofs.Script.Failure
import WorkflowAudit.Proofs.Script.Parser.Honest

/-!
# Literals, as they are lexed and as they are decoded

The lexer finds the end of a literal in the source, and looks behind its first quote to see whether
three quotes enclose it. The decoder sees the token alone, and looks at its length as well. Both
take the literal apart in the same way, so every token of the class decodes, and its content is
what stands between the quotes.
-/

namespace WorkflowAudit.Script

open Text

/-- The parts of a literal. -/
structure Quoted where
  /-- What stands before the opening quotes. -/
  flags : List Char
  quote : Char
  /-- Whether three quotes enclose the content, and not one. -/
  isLong : Bool
  content : List Char

namespace Quoted

def width (l : Quoted) : Nat := if l.isLong then 3 else 1

def quotes (l : Quoted) : List Char := List.replicate l.width l.quote

def body (l : Quoted) : List Char := l.quotes ++ (l.content ++ l.quotes)

def chars (l : Quoted) : List Char := l.flags ++ l.body

/-- What the literal stands for. -/
def piece (l : Quoted) : StringPiece :=
  let flags := l.flags.map Char.toLower
  { value := String.ofList
      (if flags.contains 'r' then l.content else StringPiece.unescape l.content)
    isFormatted := flags.contains 'f'
    isBytes := flags.contains 'b' }

/-- How the lexer reads a literal that stands before some text: it looks at what stands behind the
first quote to choose how many quotes there are, and finds the end that belongs to them. -/
structure LexedBefore (l : Quoted) (after : List Char) : Prop where
  quote : Lexer.isQuote l.quote = true
  flags : ∀ c ∈ l.flags, Lexer.isQuote c = false
  isLong : l.isLong = [l.quote, l.quote].isPrefixOf (l.body.drop 1 ++ after)
  ends : Lexer.literalTail? l.quote (l.body.drop 1 ++ after) = some (l.body.drop 1).length

end Quoted

namespace Lexer

/-- The literal that begins with a quote. -/
theorem exists_quoted_of_literalTail? (flags : List Char) {quote : Char} {w rest : List Char}
    (hquote : isQuote quote = true) (hflags : ∀ c ∈ flags, isQuote c = false)
    (h : literalTail? quote (w ++ rest) = some w.length) :
    ∃ l : Quoted, flags ++ quote :: w = l.chars ∧ l.LexedBefore rest := by
  have hends := exists_of_literalTail? h
  by_cases hlong : [quote, quote].isPrefixOf (w ++ rest) = true
  · rw [if_pos hlong] at hends
    obtain ⟨content, rfl⟩ := hends
    exact ⟨⟨flags, quote, true, content⟩, rfl, hquote, hflags, hlong.symm, h⟩
  · rw [if_neg hlong] at hends
    obtain ⟨content, rfl⟩ := hends
    exact ⟨⟨flags, quote, false, content⟩, rfl, hquote, hflags,
      ((Bool.not_eq_true _).mp hlong).symm, h⟩

/-- A token of the class is a literal. -/
theorem exists_quoted_of_front {c : Char} {w rest : List Char}
    (h : front c (w ++ rest) = .ok (.token .str, w.length)) :
    ∃ l : Quoted, c :: w = l.chars ∧ l.LexedBefore rest := by
  generalize hn : w.length = n at h
  generalize hcs : w ++ rest = cs at h
  cases front_cases h with
  | literal hquote htail =>
    exact exists_quoted_of_literalTail? [] hquote nofun (hcs ▸ hn ▸ htail)
  | prefixed hc hquote hafter htail =>
    obtain ⟨body, hw, rfl, rfl⟩ := exists_body_of_prefixed (hcs ▸ hafter) (hcs ▸ hn)
    have hname : ∀ d ∈ (w ++ rest).takeWhile continuesName, isQuote d = false := fun d hd => by
      by_contra hd'
      cases (continuesName_of_isQuote ((Bool.not_eq_false _).mp hd')).symm.trans
        (List.mem_takeWhile_imp hd)
    have hflags : ∀ d ∈ c :: (w ++ rest).takeWhile continuesName, isQuote d = false :=
      List.forall_mem_cons.mpr ⟨isQuote_of_startsName hc, hname⟩
    rw [hw]
    exact exists_quoted_of_literalTail? (c :: (w ++ rest).takeWhile continuesName) hquote hflags htail

end Lexer

namespace Quoted

theorem isQuote_eq (c : Char) : StringPiece.isQuote c = Lexer.isQuote c := Bool.or_comm _ _

variable {l : Quoted} {after : List Char}

theorem body_eq_cons (l : Quoted) : l.body = l.quote :: l.body.drop 1 := by
  unfold body quotes width
  split <;> rfl

/-- The decoder finds the flags and the body of a literal. -/
theorem LexedBefore.split (h : l.LexedBefore after) :
    l.chars.takeWhile (!StringPiece.isQuote ·) = l.flags ∧
      l.chars.dropWhile (!StringPiece.isQuote ·) = l.body := by
  refine Lexer.takeWhile_dropWhile_append (fun c hc => ?_) fun c hc => ?_
  · rw [isQuote_eq, h.flags c hc]
    rfl
  · rw [body_eq_cons, List.head?_cons, Option.mem_some_iff] at hc
    rw [isQuote_eq, ← hc, h.quote]
    rfl

/-- The decoder counts the same quotes as the lexer. -/
theorem LexedBefore.quoteWidth_eq (h : l.LexedBefore after) :
    StringPiece.quoteWidth l.body = l.width := by
  have hwidth := Lexer.quoteWidth_of_literalTail? h.ends
  rw [List.take_left, ← body_eq_cons, ← h.isLong] at hwidth
  exact hwidth

theorem byteLength_quotes (h : l.LexedBefore after) : byteLength l.quotes = l.width := by
  have hsize : l.quote.utf8Size = 1 := by
    rcases (by simpa [Lexer.isQuote] using h.quote : l.quote = '"' ∨ l.quote = '\'') with hq | hq <;>
      rw [hq] <;> rfl
  unfold quotes width
  split <;> simp [List.replicate_succ, hsize]

/-- What lies within the quotes, by their bytes, is the content. -/
theorem LexedBefore.slice_body (h : l.LexedBefore after) :
    ¬byteLength l.body < 2 * l.width ∧
      slice? l.body l.width (byteLength l.body - l.width) = some l.content := by
  have hquotes := byteLength_quotes h
  have hsize : byteLength l.body = l.width + (byteLength l.content + l.width) := by
    rw [body, byteLength_append, byteLength_append, hquotes]
  refine ⟨by omega, slice?_eq_some_iff.mpr ⟨l.quotes, l.quotes, rfl, hquotes, by omega⟩⟩

/-- A literal decodes to what it stands for. -/
theorem LexedBefore.ofToken? (h : l.LexedBefore after) :
    StringPiece.ofToken? (String.ofList l.chars) = some l.piece := by
  obtain ⟨hflags, hbody⟩ := h.split
  obtain ⟨hlong, hslice⟩ := h.slice_body
  unfold StringPiece.ofToken?
  rw [String.toList_ofList, hflags, hbody]
  dsimp only
  rw [h.quoteWidth_eq, if_neg hlong, hslice]
  rfl

end Quoted

/-- A token that the decoder takes apart as the lexer read it: it stands in the text as a literal, the
decoder counts the quotes that the lexer saw, and the content is what stands between them. -/
structure Token.Decodes (text : String) (t : Token) (l : Quoted) (before after : List Char) :
    Prop where
  source : text.toList = before ++ (l.chars ++ after)
  span : t.span = ⟨byteLength before, byteLength (before ++ l.chars)⟩
  token : t.text = String.ofList l.chars
  lexed : l.LexedBefore after
  width : StringPiece.quoteWidth (t.text.toList.dropWhile (!StringPiece.isQuote ·)) = l.width
  decoded : StringPiece.ofToken? t.text = some l.piece

theorem exists_decodes {text : String} {tokens : List Token} {t : Token}
    (h : tokenize text = .ok tokens) (ht : t ∈ tokens) (hkind : t.kind = .str) :
    ∃ l before after, t.Decodes text l before after := by
  obtain ⟨mark, cs, ts, st, offset, closing, htext, -, -, hreads, hfinish, rfl⟩ :=
    Lexer.exists_reads_of_tokenize h
  have hlexical : t.kind.isLexical = true := by rw [hkind]; rfl
  have ht : t ∈ ts := (List.mem_append.mp ht).resolve_right fun ht => by
    cases hlexical.symm.trans (Lexer.closing_of_finish hfinish t ht).1
  obtain ⟨before, after, rfl⟩ := List.append_of_mem ht
  obtain ⟨m, m', hbefore, hmove, -⟩ := hreads.cut hlexical
  obtain ⟨c, w, -, hrest, hfront, -, -, htoken, -⟩ := hmove.exists_front hlexical
  rw [hkind] at hfront htoken
  obtain ⟨l, hl, hlexed⟩ := Lexer.exists_quoted_of_front hfront
  obtain ⟨v, hv, hoffset⟩ := hbefore.rest_eq
  have hplace : byteLength (mark ++ v) = m.offset := by rw [byteLength_append, hoffset]
  have hchars : t.text = String.ofList l.chars := by rw [htoken, Lexer.tokenAt, hl]
  refine ⟨l, mark ++ v, m'.rest, ?_, ?_, hchars, hlexed, ?_, ?_⟩
  · rw [htext, show cs = v ++ m.rest from hv, hrest, ← hl, List.append_assoc, List.cons_append]
  · rw [htoken, Lexer.tokenAt, hl, byteLength_append (mark ++ v), hplace]
  · rw [hchars, String.toList_ofList, hlexed.split.2, hlexed.quoteWidth_eq]
  · rw [hchars, hlexed.ofToken?]

/-- No script is refused for a literal that does not decode. -/
theorem fault_ne_malformedString {text : String} {e : SyntaxError} (h : parse text = .error e) :
    e.fault ≠ .malformedString := by
  intro hfault
  unfold parse at h
  cases htokens : tokenize text with
  | error e' =>
    rw [htokens] at h
    obtain rfl : e' = e := Except.error.inj h
    obtain ⟨mark, cs, htext, hmark, hhead⟩ := Lexer.exists_mark text
    rw [Lexer.tokenize_eq_run htext hmark hhead] at htokens
    have := Lexer.isLexical_of_run htokens
    rw [hfault] at this
    cases this
  | ok tokens =>
    have hparse := Parser.honest_statements (Level.honest_ofBudget levelLimit) (.ofTokens tokens)
    cases hrun : Parser.statements (Level.ofBudget levelLimit) (.ofTokens tokens) with
    | ok => simp [htokens, hrun, bind, Except.bind, pure, Except.pure] at h
    | error e' =>
      simp only [htokens, hrun, bind, Except.bind, Except.error.injEq] at h
      subst h
      rw [hrun] at hparse
      obtain ⟨t, ht, hkind, hbad⟩ := hparse hfault
      obtain ⟨l, before, after, hdecodes⟩ :=
        exists_decodes htokens ((List.takeWhile_prefix _).subset ht) hkind
      cases hbad.symm.trans hdecodes.decoded

/-- Every string token decodes as the lexer read it, so no literal is ever called malformed. -/
theorem literals_decode (text : String) :
    (∀ tokens, tokenize text = .ok tokens → ∀ t ∈ tokens, t.kind = .str →
      ∃ l before after, t.Decodes text l before after) ∧
    ∀ e, parse text = .error e → e.fault ≠ .malformedString :=
  ⟨fun _ h _ ht hkind => exists_decodes h ht hkind, fun _ h => fault_ne_malformedString h⟩

/-- A quote stands in each of two literals; no number may follow them. -/
def quotesText : String := "x = rb'\\'' '''a'b''' 1\n"

theorem literals_decode_quotesText : ∃ tokens t l before after e,
    tokenize quotesText = .ok tokens ∧ t ∈ tokens ∧ t.kind = .str ∧
      t.Decodes quotesText l before after ∧
      parse quotesText = .error e ∧ e.fault ≠ .malformedString := by
  have hstrings : ((tokenize quotesText).toOption.getD []).any (·.kind = .str) = true := by
    decide +kernel
  have hfails : (parse quotesText).isOk = false := by decide +kernel
  cases htokens : tokenize quotesText with
  | error e =>
    rw [htokens] at hstrings
    cases hstrings
  | ok tokens =>
    rw [htokens] at hstrings
    obtain ⟨t, ht, hkind⟩ := List.any_eq_true.mp hstrings
    have hkind : t.kind = .str := by simpa using hkind
    obtain ⟨l, before, after, hdecodes⟩ :=
      (literals_decode quotesText).1 tokens htokens t ht hkind
    cases hparse : parse quotesText with
    | ok m =>
      rw [hparse] at hfails
      cases hfails
    | error e =>
      exact ⟨tokens, t, l, before, after, e, rfl, ht, hkind, hdecodes, rfl,
        (literals_decode quotesText).2 e hparse⟩

end WorkflowAudit.Script
