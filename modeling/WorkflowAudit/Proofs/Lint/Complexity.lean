import Mathlib.Algebra.Ring.Nat
import WorkflowAudit.Lint.ConditionRule
import WorkflowAudit.Proofs.Lint.InPlace

/-!
# What the score of a condition counts

The rule on conditions tells a call from a group by the token before the parenthesis. It takes
every name for the end of an operand but the operators and three more words, so it is wrong after
the other keywords that an operand may follow, and after `...`. Where no parenthesis stands behind
one of these, the score is the number of operators that the tree of the condition has outside
argument lists, subscripts and displays.
-/

namespace WorkflowAudit

namespace Script

/-! ## The tokens of an argument -/

/-- The tokens that lie inside a span are those between its first and its last one, if tokens that
stand for text are next to them. -/
theorem filter_contains {before inside after : List Token} {l : Token} {s : Span}
    (hordered : Ordered (before ++ (l :: (inside ++ after)))) (hl : l.kind.isLexical = true)
    (hopens : Opens after) (hspans : Spans inside s) :
    (before ++ (l :: (inside ++ after))).filter (fun t => s.contains t.span) = inside := by
  obtain ⟨r, after, rfl, hr⟩ := hopens
  have hrest := hordered.of_append.2
  have hbounds := hspans.bounds hrest.of_cons.of_append.1
  obtain ⟨first, more, hfirst, hstart⟩ := hspans.start
  obtain ⟨init, last, hlast, hstop⟩ := hspans.stop
  have hwidth := (hrest.spans l List.mem_cons_self).2 hl
  have hwidth' := (hrest.of_cons.spans r (by simp)).2 hr
  have hlfirst := (List.pairwise_cons.mp hrest.pairs).1 first (by simp [hfirst])
  have hlastr := (List.pairwise_append.mp hrest.of_cons.pairs).2.2 last (by simp [hlast]) r
    List.mem_cons_self
  have hbefore : ∀ t ∈ before, s.contains t.span = false := by
    intro t ht
    have := (hordered.spans t (List.mem_append_left _ ht)).1
    have := (List.pairwise_append.mp hordered.pairs).2.2 t ht l List.mem_cons_self
    simp only [Span.contains, Bool.and_eq_false_iff, decide_eq_false_iff_not]
    exact .inl (by omega)
  have hafter : ∀ t ∈ after, s.contains t.span = false := by
    intro t ht
    have hpairs := (List.pairwise_append.mp hrest.of_cons.pairs).2.1
    have := (List.pairwise_cons.mp hpairs).1 t ht
    have := (hrest.of_cons.spans t (by simp [ht])).1
    simp only [Span.contains, Bool.and_eq_false_iff, decide_eq_false_iff_not]
    exact .inr (by omega)
  have hopening : s.contains l.span = false := by
    simp only [Span.contains, Bool.and_eq_false_iff, decide_eq_false_iff_not]
    exact .inl (by omega)
  have hclosing : s.contains r.span = false := by
    simp only [Span.contains, Bool.and_eq_false_iff, decide_eq_false_iff_not]
    exact .inr (by omega)
  have hinside : ∀ t ∈ inside, s.contains t.span = true := by
    intro t ht
    simp [Span.contains, hbounds t ht]
  rw [List.filter_append, List.filter_eq_nil_iff.mpr (by simpa using hbefore),
    List.filter_cons_of_neg (by simp [hopening]), List.filter_append,
    List.filter_eq_self.mpr hinside, List.filter_cons_of_neg (by simp [hclosing]),
    List.filter_eq_nil_iff.mpr (by simpa using hafter)]
  simp

/-- A span covers one run of tokens only. -/
theorem Spans.unique {before inside after before' inside' after' : List Token} {s : Span}
    (hsame : before ++ (inside ++ after) = before' ++ (inside' ++ after'))
    (hordered : Ordered (before ++ (inside ++ after)))
    (hlexical : ∀ t ∈ inside, t.kind.isLexical = true)
    (hlexical' : ∀ t ∈ inside', t.kind.isLexical = true) (h : Spans inside s)
    (h' : Spans inside' s) : inside = inside' := by
  obtain ⟨hbefore, hafter⟩ := filter_spans hordered hlexical h
  obtain ⟨hbefore', hafter'⟩ := filter_spans (hsame ▸ hordered) hlexical' h'
  rw [← hsame] at hbefore' hafter'
  obtain rfl := hbefore.symm.trans hbefore'
  obtain rfl := hafter.symm.trans hafter'
  exact List.append_cancel_right (List.append_cancel_left hsame)

/-- The tokens inside the span of a keyword argument's value make up the value. -/
theorem exists_phrase_of_keyword {text : String} {m : Module} {call : Call} {name : String}
    {value : Expr} (hparse : parse text = .ok m) (hcall : call ∈ m.calls)
    (hvalue : call.keyword? name = some value) : ∃ tokens vs, tokenize text = .ok tokens ∧
      Phrase none (tokens.filter fun t => value.span.contains t.span) [value] vs ∧
      balance (tokens.filter fun t => value.span.contains t.span) = 0 := by
  obtain ⟨tokens, htokens, hordered, hruns⟩ := exists_run_of_parse hparse
  obtain ⟨k, hk, rfl, hmem⟩ := keyword_mem_expressions hcall hvalue
  obtain ⟨before, _, after, hsplit, hmatched, -, hfits⟩ := hruns _ (exists_node_of_mem_calls hcall)
  obtain ⟨_, r, rfl, before', l, us, after', rfl, hl, hcovers, vs, hvs⟩ := hfits k hk
  have hlexical : ∀ t ∈ us, t.kind.isLexical = true := fun t ht => hmatched.lexical t (by simp [ht])
  have hopens : Opens (after' ++ (r :: after)) := by
    cases after' with
    | nil => exact opens_cons (hmatched.lexical r (by simp)) after
    | cons t after' => exact opens_cons (hmatched.lexical t (by simp)) _
  have hshape : tokens = (before ++ before') ++ (l :: (us ++ (after' ++ (r :: after)))) := by
    simp [hsplit]
  have hrest := hshape ▸ hordered
  have hspans := hcovers.spans hrest.of_append.2.of_cons.of_append.1 hlexical
  have hslice := filter_contains hrest (by rw [hl]; rfl) hopens hspans
  rw [← hshape] at hslice
  refine ⟨tokens, vs, htokens, by rwa [hslice], ?_⟩
  -- the value also stands on a run of tokens whose brackets match, which is this one
  obtain ⟨front, inside, back, hother, hinside, hspans', -⟩ := hruns _ hmem
  have hrun : tokens = (before ++ before' ++ [l]) ++ (us ++ (after' ++ (r :: after))) := by
    simp [hshape]
  have hsame : inside = us := Spans.unique (hother.symm.trans hrun) (hother ▸ hordered)
    hinside.lexical hlexical hspans' hspans
  rw [hslice, ← hsame]
  exact hinside.zero

end Script

namespace Lint

open Script

/-! ## The score of some tokens -/

/-- The number of operators among some tokens, each with the token before it. -/
def operators (vs : List (Option Token × Token)) : Nat := (vs.map fun v => weight v.1 v.2).sum

theorem isOp_opening (t : Token) :
    (t.kind = .op && openingBrackets.contains t.text) = decide (t.weight = 1) := by
  unfold Token.weight openingBrackets
  split
  · split
    · simp_all
    split <;> simp_all
  · simp_all

theorem isOp_closing {t : Token} (h : t.weight ≠ 1) :
    (t.kind = .op && closingBrackets.contains t.text) = decide (t.weight = -1) := by
  unfold Token.weight closingBrackets at *
  split
  · split
    · simp_all
    split <;> simp_all
  · simp_all

theorem scoreToken_opening {s : Scoring} {t : Token} (h : t.weight = 1) : scoreToken s t =
    ⟨(t.text ≠ "(" || s.previous.any endsOperand) :: s.hidden, some t, s.score⟩ := by
  simp only [scoreToken, isOp_opening, h]
  simp

theorem scoreToken_closing {s : Scoring} {t : Token} (h : t.weight = -1) :
    scoreToken s t = ⟨s.hidden.drop 1, some t, s.score⟩ := by
  simp only [scoreToken, isOp_opening, isOp_closing (show t.weight ≠ 1 by omega), h]
  simp

theorem scoreToken_plain {s : Scoring} {t : Token} (h : t.weight = 0) : scoreToken s t =
    ⟨s.hidden, some t, s.score + if s.hidden.contains true then 0 else weight s.previous t⟩ := by
  simp only [scoreToken, isOp_opening, isOp_closing (show t.weight ≠ 1 by omega), h]
  by_cases hhidden : true ∈ s.hidden <;> simp [hhidden]

theorem score_foldl (s : Scoring) (ts : List Token) : (ts.foldl scoreToken s).score =
    s.score + operators (shown endsOperand s.hidden s.previous ts) := by
  induction ts generalizing s with
  | nil => rfl
  | cons t ts ih =>
    rw [List.foldl_cons, ih]
    rcases weight_cases t with hweight | hweight | hweight
    · rw [shown_opening hweight, scoreToken_opening hweight]
    · rw [shown_closing hweight, scoreToken_closing hweight]
    · rw [shown_plain hweight, scoreToken_plain hweight]
      by_cases hhidden : true ∈ s.hidden <;> simp [hhidden, operators, Nat.add_assoc]

/-- The score of a span counts the operators that the guess of the rule shows. -/
theorem complexity_eq (tokens : List Token) (s : Span) : complexity tokens s =
    operators (shown endsOperand [] none (tokens.filter fun t => s.contains t.span)) := by
  rw [complexity, score_foldl]
  exact Nat.zero_add _

/-! ## Where the guess is right -/

/-- Keywords that the rule takes for the end of an operand, constants apart. -/
def misjudgedWords : List String :=
  ["as", "assert", "async", "await", "break", "class", "continue", "def", "del", "elif", "except",
    "finally", "for", "from", "global", "import", "nonlocal", "pass", "raise", "return", "try",
    "while", "with", "yield"]

/-- A token that the rule takes for the end of an operand, which it is not, or the one operand that
it does not take for one. -/
def Misjudged (t : Token) : Prop :=
  t.kind = .name ∧ t.text ∈ misjudgedWords ∨ t.kind = .op ∧ t.text = "..."

instance (t : Token) : Decidable (Misjudged t) := inferInstanceAs (Decidable (_ ∨ _))

theorem endsOperand_eq {t : Token} (h : ¬Misjudged t) : endsOperand t = t.endsOperand := by
  cases hkind : t.kind with
  | name =>
    have hword : t.text ∉ misjudgedWords := fun htext => h (.inl ⟨hkind, htext⟩)
    have hkeywords : ∀ s ∈ Parser.keywords, s ∉ misjudgedWords →
        (!wordOperators.contains s && !(["if", "else", "lambda"].contains s)) =
          ["None", "True", "False"].contains s := by decide +kernel
    have hothers : ∀ s ∈ wordOperators ++ ["if", "else", "lambda"], s ∈ Parser.keywords := by
      decide +kernel
    simp only [endsOperand, Token.endsOperand, hkind]
    by_cases htext : t.text ∈ Parser.keywords
    · rw [hkeywords _ htext hword]
      simp [htext]
    · have hnone : t.text ∉ wordOperators ∧ t.text ∉ ["if", "else", "lambda"] := by
        rw [← not_or, ← List.mem_append]
        exact fun hmem => htext (hothers t.text hmem)
      simp only [List.contains_eq_mem, hnone, htext, decide_false, Bool.not_false, Bool.and_self,
        Bool.true_or]
  | op =>
    have htext : t.text ≠ "..." := fun htext => h (.inr ⟨hkind, htext⟩)
    simp [endsOperand, Token.endsOperand, hkind, closingBrackets, htext]
  | _ => simp [endsOperand, Token.endsOperand, hkind]

/-- Two guesses show the same tokens if they agree on the tokens before parentheses. -/
theorem shown_congr {ends ends' : Token → Bool} {hidden : List Bool} {previous : Option Token}
    {ts : List Token} (h : (previous.toList ++ ts).IsChain fun t l =>
      l.kind = .op → l.text = "(" → ends t = ends' t) :
    shown ends hidden previous ts = shown ends' hidden previous ts := by
  induction ts generalizing hidden previous with
  | nil => rfl
  | cons t ts ih =>
    have hmore : ((some t).toList ++ ts).IsChain fun t l =>
        l.kind = .op → l.text = "(" → ends t = ends' t := by
      cases previous with
      | none => exact h
      | some p => exact (List.isChain_cons_cons.mp h).2
    rcases weight_cases t with hweight | hweight | hweight
    · have hkind : t.kind = .op := by
        by_contra hkind
        rw [Token.weight_of_ne_op hkind] at hweight
        omega
      have hfirst : (t.text ≠ "(" || previous.any ends) = (t.text ≠ "(" || previous.any ends') := by
        by_cases htext : t.text = "("
        · cases previous with
          | none => rfl
          | some p => simp [(List.isChain_cons_cons.mp h).1 hkind htext]
        · simp [htext]
      rw [shown_opening hweight, shown_opening hweight, hfirst, ih hmore]
    · rw [shown_closing hweight, shown_closing hweight, ih hmore]
    · rw [shown_plain hweight, shown_plain hweight, ih hmore]

/-- The score of a condition is the number of the operators that it has outside argument lists,
subscripts and displays, unless a parenthesis stands behind a token that the rule misjudges. -/
theorem complexity_condition {path text : String} {m : Module} {call : Call} {condition : Expr}
    (hparse : parse text = .ok m) (h : (call, condition) ∈ conditions (.ofText path text)) :
    ∃ tokens vs, tokenize text = .ok tokens ∧
      Phrase none (tokens.filter fun t => condition.span.contains t.span) [condition] vs ∧
      ((tokens.filter fun t => condition.span.contains t.span).IsChain (fun t l =>
          l.kind = .op → l.text = "(" → ¬Misjudged t) →
        complexity tokens condition.span = operators vs) := by
  obtain ⟨hcall, hvalue⟩ := call_of_conditions hparse h
  obtain ⟨tokens, vs, htokens, hphrase, hzero⟩ := exists_phrase_of_keyword hparse hcall hvalue
  refine ⟨tokens, vs, htokens, hphrase, fun hclear => ?_⟩
  rw [complexity_eq, ← hphrase.shown_eq hzero]
  congr 1
  exact shown_congr (hclear.imp fun t l h hl ht => endsOperand_eq (h hl ht))

/-- A condition with groups, calls, a subscript and a lambda. -/
def groupedText : String :=
  "j = Job(if_=(a and not b) or f(c and d)[e + 1] == 'x && y' " ++
    "or (lambda g=h(i + 1): g)(k - 1) is not z)\n"

theorem complexity_condition_groupedText : ∃ m call condition tokens vs,
    parse groupedText = .ok m ∧ (call, condition) ∈ conditions (.ofText "ci.py" groupedText) ∧
      tokenize groupedText = .ok tokens ∧
      Phrase none (tokens.filter fun t => condition.span.contains t.span) [condition] vs ∧
      complexity tokens condition.span = operators vs ∧ operators vs = 7 := by
  have hparses : (parse groupedText).isOk = true := by decide +kernel
  have hsome : (conditions (.ofText "ci.py" groupedText)).length = 1 := by decide +kernel
  have hscores : ((tokenize groupedText).toOption.map fun tokens =>
      (conditions (.ofText "ci.py" groupedText)).map fun c =>
        (decide ((tokens.filter fun t => c.2.span.contains t.span).IsChain fun t l =>
          l.kind = .op → l.text = "(" → ¬Misjudged t), complexity tokens c.2.span)) =
      some [(true, 7)] := by decide +kernel
  obtain ⟨m, hparse⟩ := exists_parse_of_isOk hparses
  obtain ⟨⟨call, condition⟩, hone⟩ := List.length_eq_one_iff.mp hsome
  have hmem : (call, condition) ∈ conditions (.ofText "ci.py" groupedText) := by simp [hone]
  obtain ⟨tokens, vs, htokens, hphrase, hscore⟩ := complexity_condition hparse hmem
  simp only [htokens, hone, Except.toOption, Option.map_some, List.map_cons, List.map_nil,
    Option.some.injEq, List.cons.injEq, Prod.mk.injEq, decide_eq_true_eq, and_true] at hscores
  exact ⟨m, call, condition, tokens, vs, hparse, hmem, htokens, hphrase, hscore hscores.1,
    (hscore hscores.1).symm.trans hscores.2⟩

/-- After `await` a group is taken for the arguments of a call. -/
example : ((tokenize "j = Job(if_=await (a and b and c and d and e))\n").toOption.map
    (complexity · ⟨12, 45⟩)) = some 0 := by decide +kernel

end Lint

end WorkflowAudit
