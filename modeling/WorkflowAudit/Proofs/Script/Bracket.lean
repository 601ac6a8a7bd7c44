import Mathlib.Algebra.Ring.Int.Defs
import WorkflowAudit.Proofs.Script.Seam

/-!
# Brackets in a run of tokens

Opening brackets count one and closing ones minus one. A run of tokens that sums to nothing
and goes below nothing nowhere leaves the open brackets as they were, so it can be taken out
of a text without a change of state.
-/

namespace WorkflowAudit.Script

/-- How a token changes the number of open brackets. -/
def Token.weight (t : Token) : Int :=
  if t.kind = .op then
    if ["(", "[", "\x7b"].contains t.text then 1
    else if [")", "]", "\x7d"].contains t.text then -1
    else 0
  else 0

/-- How a run of tokens changes the number of open brackets. -/
def balance (ts : List Token) : Int := (ts.map Token.weight).sum

@[simp] theorem balance_nil : balance [] = 0 := rfl

@[simp] theorem balance_cons (t : Token) (ts : List Token) :
    balance (t :: ts) = t.weight + balance ts := rfl

@[simp] theorem balance_append (ts us : List Token) :
    balance (ts ++ us) = balance ts + balance us := by
  simp [balance]

theorem Token.weight_of_ne_op {t : Token} (h : t.kind ≠ .op) : t.weight = 0 := if_neg h

theorem balance_eq_zero {ts : List Token} (h : ∀ t ∈ ts, t.weight = 0) : balance ts = 0 := by
  induction ts with
  | nil => rfl
  | cons t ts ih =>
    rw [balance_cons, h t List.mem_cons_self, ih fun u hu => h u (List.mem_cons_of_mem t hu)]
    rfl

/-! ## Runs of tokens that leave no bracket open -/

/-- Whether no bracket that these tokens open stays open, at the end of any part of them. -/
def Settled : List Token → Prop
  | [] => True
  | t :: ts => balance (t :: ts) ≤ 0 ∧ Settled ts

namespace Settled

theorem balance_le {ts : List Token} (h : Settled ts) : balance ts ≤ 0 := by
  cases ts with
  | nil => exact Int.le_refl 0
  | cons => exact h.1

theorem append {ts us : List Token} (h : Settled ts) (h' : Settled us) : Settled (ts ++ us) := by
  induction ts with
  | nil => exact h'
  | cons t ts ih =>
    refine ⟨?_, ih h.2⟩
    have := h.1
    have := h'.balance_le
    rw [List.append_eq, ← List.cons_append, balance_append]
    omega

theorem singleton {t : Token} (h : t.weight ≤ 0) : Settled [t] := ⟨by simpa using h, trivial⟩

theorem bracketed {ts : List Token} {l r : Token} (h : Settled ts) (hl : l.weight = 1)
    (hr : r.weight = -1) : Settled (l :: (ts ++ [r])) := by
  refine ⟨?_, h.append (singleton (by omega))⟩
  have := h.balance_le
  simp only [balance_cons, balance_append, balance_nil]
  omega

theorem of_append {ts us : List Token} (h : Settled (ts ++ us)) : Settled us := by
  induction ts with
  | nil => exact h
  | cons t ts ih => exact ih h.2

/-- No part that comes first closes more brackets than it opens, if that holds of all tokens. -/
theorem balance_prefix {ts us : List Token} (h : Settled (ts ++ us)) :
    balance (ts ++ us) ≤ balance ts := by
  have := h.of_append.balance_le
  rw [balance_append]
  omega

theorem of_weights {ts : List Token} (h : ∀ t ∈ ts, t.weight ≤ 0) : Settled ts := by
  induction ts with
  | nil => trivial
  | cons t ts ih =>
    exact (singleton (h t List.mem_cons_self)).append (ih fun u hu => h u (List.mem_cons_of_mem t hu))

end Settled

/-! ## Brackets of a reading -/

namespace Lexer

theorem operatorLength?_eq_one {c : Char} {cs : List Char}
    (hnone : ∀ op ∈ longOperators ++ mediumOperators, ¬op <+: c :: cs)
    (hshort : shortOperators.contains c = true) : operatorLength? c cs = some 1 := by
  unfold operatorLength?
  rw [if_neg, if_neg, if_pos hshort]
  · rw [List.any_eq_true]
    rintro ⟨op, hop, hprefix⟩
    exact hnone op (List.mem_append_right _ hop) (List.isPrefixOf_iff_prefix.mp hprefix)
  · rw [List.any_eq_true]
    rintro ⟨op, hop, hprefix⟩
    exact hnone op (List.mem_append_left _ hop) (List.isPrefixOf_iff_prefix.mp hprefix)

/-- An operator that is no part of a longer one. -/
theorem operatorLength?_of_second {c : Char} {cs : List Char}
    (hsecond : ∀ op ∈ longOperators ++ mediumOperators, op.head? = some c → op[1]? ≠ cs.head?)
    (hshort : shortOperators.contains c = true) : operatorLength? c cs = some 1 := by
  have hlong : ∀ op ∈ longOperators ++ mediumOperators, op ≠ [] ∧ op.tail ≠ [] := by decide
  refine operatorLength?_eq_one (fun op hop hprefix => ?_) hshort
  obtain ⟨a, op, rfl⟩ := List.exists_cons_of_ne_nil (hlong op hop).1
  obtain ⟨b, more, rfl⟩ := List.exists_cons_of_ne_nil (hlong _ hop).2
  obtain ⟨rfl, rest, rfl⟩ := List.cons_prefix_cons.mp hprefix
  exact hsecond _ hop rfl rfl

/-- Brackets are operators of one character. -/
theorem operatorLength?_bracket {c : Char} (cs : List Char)
    (hc : c ∈ ['(', '[', '\x7b', ')', ']', '\x7d']) : operatorLength? c cs = some 1 := by
  have hheads : (['(', '[', '\x7b', ')', ']', '\x7d'].all fun c =>
      shortOperators.contains c &&
        (longOperators ++ mediumOperators).all fun op => op.head?.any (· != c)) = true := by decide
  obtain ⟨hshort, hothers⟩ := Bool.and_eq_true_iff.mp (List.all_eq_true.mp hheads c hc)
  refine operatorLength?_eq_one (fun op hop hprefix => ?_) hshort
  obtain ⟨d, hd, hne⟩ : ∃ d ∈ op.head?, d ≠ c := by
    simpa [Option.any_eq_true] using List.all_eq_true.mp hothers op hop
  obtain ⟨op, rfl⟩ := List.head?_eq_some_iff.mp hd
  exact hne (List.cons_prefix_cons.mp hprefix).1

theorem mem_of_contains_ofList {c : Char} {w : List Char} (brackets : List Char)
    (texts : List String) (hsame : texts.map String.toList = brackets.map fun b => [b])
    (h : texts.contains (String.ofList (c :: w)) = true) : c ∈ brackets := by
  rw [List.contains_iff_mem] at h
  have hmem := List.mem_map_of_mem (f := String.toList) h
  rw [hsame, String.toList_ofList, List.mem_map] at hmem
  obtain ⟨b, hb, hcons⟩ := hmem
  exact (List.cons.inj hcons).1 ▸ hb

theorem weight_opener {c : Char} (offset : Nat) (hc : isOpener c = true) :
    (tokenAt .op offset [c]).weight = 1 := by
  simp only [isOpener, Bool.or_eq_true, decide_eq_true_eq] at hc
  rcases hc with (rfl | rfl) | rfl <;> rfl

theorem weight_closer {c b : Char} (offset : Nat) (hc : openerOf? c = some b) :
    (tokenAt .op offset [c]).weight = -1 := by
  unfold openerOf? at hc
  split at hc
  · rfl
  · rfl
  · rfl
  · cases hc

theorem weight_plain {c : Char} (offset : Nat) (w : List Char) (hopener : isOpener c = false)
    (hcloser : openerOf? c = none) : (tokenAt .op offset (c :: w)).weight = 0 := by
  have hkind : (tokenAt .op offset (c :: w)).kind = .op := rfl
  rw [Token.weight, if_pos hkind, if_neg, if_neg]
  · intro hcontains
    have hmem := mem_of_contains_ofList [')', ']', '\x7d'] _ rfl hcontains
    simp only [List.mem_cons, List.not_mem_nil, or_false] at hmem
    rcases hmem with rfl | rfl | rfl <;> cases hcloser
  · intro hcontains
    have hmem := mem_of_contains_ofList ['(', '[', '\x7b'] _ rfl hcontains
    simp only [List.mem_cons, List.not_mem_nil, or_false] at hmem
    rcases hmem with rfl | rfl | rfl <;> cases hopener

/-- What a token does to the open brackets: it opens one, closes the innermost one that it
    answers, or is no bracket. -/
theorem brackets_tokenAt {kind : TokenKind} {c : Char} {w rest brackets brackets' : List Char}
    (offset : Nat) (reads : front c (w ++ rest) = .ok (.token kind, w.length))
    (balance : bracketsAfter kind brackets c = .ok brackets') :
    (isOpener c = true ∧ kind = .op ∧ w = [] ∧ brackets' = c :: brackets) ∨
      (∃ b, openerOf? c = some b ∧ kind = .op ∧ w = [] ∧ brackets = b :: brackets') ∨
      ((tokenAt kind offset (c :: w)).weight = 0 ∧ brackets' = brackets) := by
  unfold bracketsAfter at balance
  by_cases hop : kind = .op
  · subst hop
    rw [if_pos rfl] at balance
    have halone : c ∈ ['(', '[', '\x7b', ')', ']', '\x7d'] → w = [] := by
      intro hc
      have hlength := operatorLength?_of_front reads
      rw [operatorLength?_bracket _ hc, Option.some.injEq] at hlength
      exact List.eq_nil_of_length_eq_zero (by omega)
    unfold brackets? at balance
    split at balance
    case isTrue hopener =>
      cases balance
      refine .inl ⟨hopener, rfl, halone ?_, rfl⟩
      simp only [isOpener, Bool.or_eq_true, decide_eq_true_eq] at hopener
      rcases hopener with (rfl | rfl) | rfl <;> simp
    case isFalse hopener =>
      split at balance
      case h_1 hcloser =>
        cases balance
        exact .inr (.inr ⟨weight_plain offset w (by simpa using hopener) hcloser, rfl⟩)
      case h_2 expected hcloser =>
        have hw : w = [] := halone (by
          unfold openerOf? at hcloser
          split at hcloser
          · simp
          · simp
          · simp
          · cases hcloser)
        split at balance
        case h_2 => cases balance
        case h_1 b outer =>
          split at balance
          case isFalse => cases balance
          case isTrue hb =>
            cases balance
            exact .inr (.inl ⟨expected, hcloser, rfl, hw, by rw [hb]⟩)
  · rw [if_neg hop] at balance
    cases balance
    exact .inr (.inr ⟨Token.weight_of_ne_op hop, rfl⟩)

theorem weight_tokenAt {kind : TokenKind} {c : Char} {w rest brackets brackets' : List Char}
    (offset : Nat) (reads : front c (w ++ rest) = .ok (.token kind, w.length))
    (balance : bracketsAfter kind brackets c = .ok brackets') :
    ((tokenAt kind offset (c :: w)).weight = 1 ∧ brackets' = c :: brackets) ∨
      ((tokenAt kind offset (c :: w)).weight = -1 ∧ ∃ b, brackets = b :: brackets') ∨
      ((tokenAt kind offset (c :: w)).weight = 0 ∧ brackets' = brackets) := by
  rcases brackets_tokenAt offset reads balance with
    ⟨hopener, rfl, rfl, hbrackets⟩ | ⟨b, hcloser, rfl, rfl, hbrackets⟩ | hplain
  · exact .inl ⟨weight_opener offset hopener, hbrackets⟩
  · exact .inr (.inl ⟨weight_closer offset hcloser, b, hbrackets⟩)
  · exact .inr (.inr hplain)

/-! ## Brackets along a reading -/

theorem brackets_of_enterLine {st st' : State} {column offset : Nat} {written : List Token}
    (h : enterLine st column offset = .ok (st', written)) : st'.brackets = st.brackets := by
  cases enterLine_cases h <;> rfl

/-- A move opens a bracket, closes one, or leaves the brackets as they are. -/
theorem Move.brackets {p q : Place} {ts : List Token} (h : Move p ts q) :
    (balance ts = 1 ∧ ∃ b, q.state.brackets = b :: p.state.brackets) ∨
      (balance ts = -1 ∧ ∃ b, p.state.brackets = b :: q.state.brackets) ∨
      (balance ts = 0 ∧ q.state.brackets = p.state.brackets) := by
  cases h with
  | skip | feed | emptyLine | commentLine | trailing => exact .inr (.inr ⟨rfl, rfl⟩)
  | lineEnd =>
    refine .inr (.inr ⟨?_, rfl⟩)
    unfold lineEnding
    split <;> rfl
  | @token st offset c w rest kind brackets inside reads hbalance =>
    have hweight : balance [tokenAt kind offset (c :: w)] =
        (tokenAt kind offset (c :: w)).weight := by simp
    rw [hweight]
    exact (weight_tokenAt offset reads hbalance).imp_left fun h => ⟨h.1, c, h.2⟩
  | enter atStart indented content enters =>
    have hsame := brackets_of_enterLine enters
    refine .inr (.inr ⟨balance_eq_zero fun t ht => ?_, hsame⟩)
    refine Token.weight_of_ne_op fun hop => ?_
    have := (span_of_enterLine enters t ht).2
    rw [hop] at this
    cases this

/-- Brackets that are open before a reading stay open below those that it opens, as long as it
    closes no more than that. -/
theorem Reads.exists_brackets {p q : Place} {ts : List Token} {top base : List Char}
    (h : Reads p ts q) (hstack : p.state.brackets = top ++ base)
    (hdip : ∀ us, us <+: ts → 0 ≤ top.length + balance us) :
    ∃ top', q.state.brackets = top' ++ base ∧ (top'.length : Int) = top.length + balance ts := by
  induction h generalizing top with
  | refl => exact ⟨top, hstack, by simp⟩
  | @step p m q ts us move reads ih =>
    have hnext : ∃ top', m.state.brackets = top' ++ base ∧
        (top'.length : Int) = top.length + balance ts := by
      rcases move.brackets with ⟨hweight, b, hb⟩ | ⟨hweight, b, hb⟩ | ⟨hweight, hb⟩
      · exact ⟨b :: top, by rw [hb, hstack]; rfl, by simp [hweight]⟩
      · have hpos := hdip ts (List.prefix_append ts us)
        rw [hweight] at hpos
        cases top with
        | nil => simp at hpos
        | cons d top =>
          rw [hstack] at hb
          exact ⟨top, (List.cons.inj hb).2.symm, by simp only [hweight, List.length_cons]; omega⟩
      · exact ⟨top, by rw [hb, hstack], by simp [hweight]⟩
    obtain ⟨top', hstack', hlength⟩ := hnext
    obtain ⟨top'', hstack'', hlength'⟩ := ih hstack' fun vs hvs => by
      have := hdip (ts ++ vs) ((List.prefix_append_right_inj ts).mpr hvs)
      rw [balance_append] at this
      omega
    exact ⟨top'', hstack'', by rw [hlength', hlength, balance_append]; omega⟩

/-- A run of tokens with all its brackets matched leaves the open brackets as they were. -/
theorem Reads.brackets_eq {p q : Place} {ts : List Token} (h : Reads p ts q)
    (hdip : ∀ us, us <+: ts → 0 ≤ balance us) (hzero : balance ts = 0) :
    q.state.brackets = p.state.brackets := by
  obtain ⟨top, hstack, hlength⟩ := @Reads.exists_brackets p q ts [] p.state.brackets h rfl
    (by simpa using hdip)
  rw [hzero] at hlength
  obtain rfl : top = [] := List.eq_nil_of_length_eq_zero (by simpa using hlength)
  exact hstack

/-- A reading that ends with no bracket open leaves none open that it opens. -/
theorem Reads.settled {p q : Place} {ts : List Token} (h : Reads p ts q)
    (hclosed : q.state.brackets = []) :
    Settled ts ∧ balance ts = -(p.state.brackets.length : Int) := by
  induction h with
  | refl => exact ⟨trivial, by simp [hclosed]⟩
  | @step p m q ts us move reads ih =>
    obtain ⟨hsettled, hbalance⟩ := ih hclosed
    have hall : balance (ts ++ us) = -(p.state.brackets.length : Int) := by
      rw [balance_append, hbalance]
      rcases move.brackets with ⟨hweight, b, hb⟩ | ⟨hweight, b, hb⟩ | ⟨hweight, hb⟩ <;>
        simp only [hweight, hb, List.length_cons] <;> omega
    refine ⟨?_, hall⟩
    have hstructure : (∀ t ∈ ts, t.kind.isLexical = false) → Settled (ts ++ us) := by
      intro hkinds
      refine .append (.of_weights fun t ht => Int.le_of_eq (Token.weight_of_ne_op fun hop => ?_))
        hsettled
      have := hkinds t ht
      rw [hop] at this
      cases this
    cases move with
    | skip | feed | emptyLine | commentLine | trailing => exact hsettled
    | lineEnd =>
      refine hstructure ?_
      unfold lineEnding
      split <;> simp [TokenKind.isLexical]
    | @token st offset c w rest kind =>
      refine ⟨?_, hsettled⟩
      change balance (tokenAt kind offset (c :: w) :: us) ≤ 0
      rw [← List.singleton_append, hall]
      omega
    | enter atStart indented content enters =>
      exact hstructure fun t ht => (span_of_enterLine enters t ht).2

/-- Within an open line, tokens that stand for text change nothing but the brackets. -/
theorem Reads.state_eq {p q : Place} {ts : List Token} (h : Reads p ts q)
    (hopen : p.state.lineOpen = true) (hbegun : p.state.atLineStart = false)
    (hlexical : ∀ t ∈ ts, t.kind.isLexical = true) :
    q.state = { p.state with brackets := q.state.brackets } := by
  induction h with
  | refl => rfl
  | @step p m q ts us move reads ih =>
    have hinside : p.state.isInside = true := by simp [State.isInside, hbegun]
    have hnext : m.state = { p.state with brackets := m.state.brackets } := by
      cases move with
      | skip | feed => rfl
      | @lineEnd st offset =>
        -- the line is open, so its end would write a token of line structure
        have hwritten : lineEnding st offset = [⟨.newline, ⟨offset, offset + 1⟩, "\n"⟩] :=
          if_pos hopen
        have := hlexical _ (List.mem_append_left us (hwritten ▸ List.mem_singleton_self _))
        cases this
      | token =>
        simp only at hopen ⊢
        rw [hopen]
      | emptyLine atStart | commentLine atStart | trailing atStart | enter atStart =>
        cases hinside.symm.trans atStart
    have hlast := ih (by rw [hnext]; exact hopen) (by rw [hnext]; exact hbegun)
      fun t ht => hlexical t (List.mem_append_right ts ht)
    rw [hlast, hnext]

end Lexer

end WorkflowAudit.Script
