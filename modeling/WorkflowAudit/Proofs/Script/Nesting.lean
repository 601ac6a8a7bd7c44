import WorkflowAudit.Proofs.Script.Rewriting

/-!
# How the tokens of a text nest

Brackets of one kind answer each other and hold no line structure, and every dedent ends a
block that an indent before it began. Both are read off the stack of open brackets and the
widths of the open blocks that the lexer carries along.
-/

namespace WorkflowAudit.Script

/-! ## Brackets -/

def bracketPairs : List (String × String) := [("(", ")"), ("[", "]"), ("\x7b", "\x7d")]

/-- Whether one token is an opening bracket and the other the closing one that answers it. -/
structure Token.Pairs (l r : Token) : Prop where
  left : l.kind = .op
  right : r.kind = .op
  texts : (l.text, r.text) ∈ bracketPairs

/-- Tokens whose brackets nest, with nothing but text between two that answer each other. -/
inductive Nested : List Token → Prop
  | nil : Nested []
  | plain {t ts} (weight : t.weight = 0) (rest : Nested ts) : Nested (t :: ts)
  | pair {l r inner ts} (pairs : l.Pairs r) (lexical : ∀ t ∈ inner, t.kind.isLexical = true)
      (inside : Nested inner) (rest : Nested ts) : Nested (l :: (inner ++ r :: ts))

namespace Nested

theorem append {ts us : List Token} (h : Nested ts) (h' : Nested us) : Nested (ts ++ us) := by
  induction h with
  | nil => exact h'
  | plain weight _ ih => exact .plain weight ih
  | pair pairs lexical inside _ _ ih =>
    rw [List.cons_append, List.append_assoc, List.cons_append]
    exact .pair pairs lexical inside ih

theorem of_weights {ts : List Token} (h : ∀ t ∈ ts, t.weight = 0) : Nested ts := by
  induction ts with
  | nil => exact .nil
  | cons t ts ih =>
    exact .plain (h t List.mem_cons_self) (ih fun u hu => h u (List.mem_cons_of_mem t hu))

end Nested

/-- Tokens that close some open brackets, innermost first, and nest between them. -/
def Closing : List Char → List Token → Prop
  | [], ts => Nested ts
  | b :: outer, ts => ∃ inner r rest, ts = inner ++ r :: rest ∧
      r.kind = .op ∧ (String.ofList [b], r.text) ∈ bracketPairs ∧
      (∀ t ∈ inner, t.kind.isLexical = true) ∧ Nested inner ∧ Closing outer rest

namespace Closing

variable {open_ : List Char} {ts : List Token}

theorem plain {t : Token} (h : Closing open_ ts) (weight : t.weight = 0)
    (lexical : open_ ≠ [] → t.kind.isLexical = true) : Closing open_ (t :: ts) := by
  cases open_ with
  | nil => exact .plain weight h
  | cons b outer =>
    obtain ⟨inner, r, rest, rfl, hr, htexts, hlexical, hnested, hrest⟩ := h
    refine ⟨t :: inner, r, rest, rfl, hr, htexts, ?_, .plain weight hnested, hrest⟩
    simpa [lexical (List.cons_ne_nil b outer)] using hlexical

theorem opened {b : Char} {l : Token} (h : Closing (b :: open_) ts) (hl : l.kind = .op)
    (htext : l.text = String.ofList [b]) : Closing open_ (l :: ts) := by
  obtain ⟨inner, r, rest, rfl, hr, htexts, hlexical, hnested, hrest⟩ := h
  have hpairs : l.Pairs r := ⟨hl, hr, htext ▸ htexts⟩
  cases open_ with
  | nil => exact .pair hpairs hlexical hnested hrest
  | cons b' outer =>
    obtain ⟨inner', r', rest', rfl, hr', htexts', hlexical', hnested', hrest'⟩ := hrest
    refine ⟨l :: (inner ++ r :: inner'), r', rest', by simp, hr', htexts', ?_,
      .pair hpairs hlexical hnested hnested', hrest'⟩
    intro t ht
    simp only [List.mem_cons, List.mem_append] at ht
    rcases ht with rfl | ht | rfl | ht
    · rw [hl]
      rfl
    · exact hlexical t ht
    · rw [hr]
      rfl
    · exact hlexical' t ht

theorem closed {b : Char} {r : Token} (h : Closing open_ ts) (hr : r.kind = .op)
    (htexts : (String.ofList [b], r.text) ∈ bracketPairs) : Closing (b :: open_) (r :: ts) :=
  ⟨[], r, ts, rfl, hr, htexts, by simp, .nil, h⟩

end Closing

namespace Lexer

theorem brackets_of_not_isInside {st : State} (h : st.isInside = false) : st.brackets = [] := by
  simp only [State.isInside, Bool.not_eq_false', Bool.and_eq_true, List.isEmpty_iff] at h
  exact h.2

theorem pair_of_openerOf? {c b : Char} (h : openerOf? c = some b) :
    (String.ofList [b], String.ofList [c]) ∈ bracketPairs := by
  unfold openerOf? at h
  split at h <;> cases h <;> decide

/-- One move keeps the brackets that are open to be closed by what follows. -/
theorem Move.closing {p q : Place} {ts us : List Token} (h : Move p ts q)
    (hrest : Closing q.state.brackets us) : Closing p.state.brackets (ts ++ us) := by
  cases h with
  | skip | feed | emptyLine | commentLine | trailing => exact hrest
  | @lineEnd st offset rest inside closed =>
    unfold lineEnding
    split
    · exact hrest.plain rfl (fun hopen => absurd closed hopen)
    · exact hrest
  | @token st offset c w rest kind brackets inside reads balance =>
    rcases brackets_tokenAt offset reads balance with
      ⟨-, rfl, rfl, rfl⟩ | ⟨b, hcloser, rfl, rfl, hb⟩ | ⟨hweight, rfl⟩
    · exact hrest.opened rfl rfl
    · simp only [hb]
      exact hrest.closed rfl (pair_of_openerOf? hcloser)
    · exact hrest.plain hweight (fun _ => isLexical_of_front reads)
  | @enter st st' offset blanks rest written atStart indented content enters =>
    have hclosed := brackets_of_not_isInside atStart
    have hsame : st'.brackets = [] := (brackets_of_enterLine enters).trans hclosed
    simp only [hclosed, hsame] at hrest ⊢
    refine Nested.append (.of_weights fun t ht => Token.weight_of_ne_op fun hop => ?_) hrest
    have := (span_of_enterLine enters t ht).2
    rw [hop] at this
    cases this

theorem Reads.closing {p q : Place} {ts us : List Token} (h : Reads p ts q)
    (hrest : Closing q.state.brackets us) : Closing p.state.brackets (ts ++ us) := by
  induction h with
  | refl => exact hrest
  | step move _ ih =>
    rw [List.append_assoc]
    exact move.closing (ih hrest)

end Lexer

/-! ## Blocks -/

/-- Number of tokens of a class. -/
def countKind (kind : TokenKind) (ts : List Token) : Nat := ts.countP (·.kind = kind)

@[simp] theorem countKind_append (kind : TokenKind) (ts us : List Token) :
    countKind kind (ts ++ us) = countKind kind ts + countKind kind us := List.countP_append

theorem countKind_eq_zero {kind : TokenKind} {ts : List Token} (h : ∀ t ∈ ts, t.kind ≠ kind) :
    countKind kind ts = 0 := by
  simpa [countKind, List.countP_eq_zero] using h

theorem countKind_le_of_prefix {us ts : List Token} (h : us <+: ts) (kind : TokenKind) :
    countKind kind us ≤ countKind kind ts := h.sublist.countP_le

/-- Tokens that may follow where `before` blocks are open, and that leave `after` of them open. -/
structure Blocks (before : Nat) (ts : List Token) (after : Nat) : Prop where
  dips : ∀ us, us <+: ts → countKind .dedent us ≤ before + countKind .indent us
  total : after + countKind .dedent ts = before + countKind .indent ts

namespace Blocks

theorem of_others {ts : List Token} (before : Nat)
    (h : ∀ t ∈ ts, t.kind ≠ .indent ∧ t.kind ≠ .dedent) : Blocks before ts before := by
  have hdedents : countKind .dedent ts = 0 := countKind_eq_zero fun t ht => (h t ht).2
  have hindents : countKind .indent ts = 0 := countKind_eq_zero fun t ht => (h t ht).1
  refine ⟨fun us hus => ?_, by omega⟩
  have := countKind_le_of_prefix hus .dedent
  omega

theorem append {a b c : Nat} {ts us : List Token} (h : Blocks a ts b) (h' : Blocks b us c) :
    Blocks a (ts ++ us) c := by
  have htotal := h.total
  refine ⟨fun vs hvs => ?_, by have := h'.total; simp only [countKind_append]; omega⟩
  rcases Lexer.prefix_append_iff.mp hvs with hvs | ⟨ws, rfl, hws⟩
  · exact h.dips vs hvs
  · have := h'.dips ws hws
    simp only [countKind_append]
    omega

/-- Several blocks end at one place. -/
theorem dedents {ts : List Token} (after : Nat) (h : ∀ t ∈ ts, t.kind = .dedent) :
    Blocks (ts.length + after) ts after := by
  have hindents : countKind .indent ts = 0 :=
    countKind_eq_zero fun t ht hkind => by rw [h t ht] at hkind; cases hkind
  have hdedents : countKind .dedent ts = ts.length :=
    List.countP_eq_length.mpr fun t ht => by simp [h t ht]
  refine ⟨fun us hus => ?_, by omega⟩
  have := countKind_le_of_prefix hus .dedent
  omega

end Blocks

namespace Lexer

theorem Move.blocks {p q : Place} {ts : List Token} (h : Move p ts q) :
    Blocks p.state.indents.length ts q.state.indents.length := by
  cases h with
  | skip | feed | emptyLine | commentLine | trailing => exact .of_others _ (by simp)
  | lineEnd =>
    refine .of_others _ ?_
    unfold lineEnding
    split <;> simp
  | @token st offset c w rest kind brackets inside reads balance =>
    refine .of_others _ fun t ht => ?_
    obtain rfl := List.mem_singleton.mp ht
    have := isLexical_of_front reads
    constructor <;> rintro (hkind : kind = _) <;> rw [hkind] at this <;> cases this
  | @enter st st' offset blanks rest written atStart indented content enters =>
    cases enterLine_cases enters with
    | deeper =>
      refine ⟨fun us hus => ?_, by simp [countKind, State.begun]⟩
      have := countKind_le_of_prefix hus .dedent
      simp only [countKind, List.countP_singleton] at this ⊢
      simp only [reduceCtorEq, decide_false, Bool.false_eq_true, if_false] at this
      omega
    | @back closed outer hindents =>
      have hdedents : Blocks ((closed.map fun _ => (⟨.dedent,
          .point (offset + Text.byteLength blanks), ""⟩ : Token)).length + outer.length)
          (closed.map fun _ => ⟨.dedent, .point (offset + Text.byteLength blanks), ""⟩)
          outer.length := .dedents outer.length (by simp)
      rw [List.length_map] at hdedents
      have hlength : st.indents.length = closed.length + outer.length := by
        rw [show st.indents = closed ++ outer from hindents, List.length_append]
      simpa only [hlength] using hdedents
    | level => exact .of_others _ (by simp)

theorem Reads.blocks {p q : Place} {ts : List Token} (h : Reads p ts q) :
    Blocks p.state.indents.length ts q.state.indents.length := by
  induction h with
  | refl => exact .of_others _ (by simp)
  | step move _ ih => exact move.blocks.append ih

end Lexer

end WorkflowAudit.Script
