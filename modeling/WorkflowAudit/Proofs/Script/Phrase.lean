import WorkflowAudit.Proofs.Script.Bracket
import WorkflowAudit.Script.Parser.Expression
import WorkflowAudit.Script.Walk

/-!
# Phrases

How the tokens of some expressions make up their trees, bracket by bracket. A parenthesis calls
the operand that ends before it, or it groups what it holds; the tree has a node for the one and
none for the other. A phrase also lists the tokens that stand outside all argument lists,
subscripts and displays. They can be found without the tree, since the token before a parenthesis
tells whether an operand ends there.
-/

namespace WorkflowAudit.Script

/-- Whether an operand ends with a token. -/
def Token.endsOperand (t : Token) : Bool :=
  match t.kind with
  | .name => !Parser.keywords.contains t.text || ["None", "True", "False"].contains t.text
  | .str | .number => true
  | .op => [")", "]", "\x7d", "..."].contains t.text
  | _ => false

/-! ## Tokens outside brackets -/

/-- The last one of some tokens, or the one before them. -/
def after (previous : Option Token) (ts : List Token) : Option Token :=
  ts.foldl (fun _ t => some t) previous

@[simp] theorem after_nil (previous : Option Token) : after previous [] = previous := rfl

@[simp] theorem after_cons (previous : Option Token) (t : Token) (ts : List Token) :
    after previous (t :: ts) = after (some t) ts := rfl

@[simp] theorem after_append (previous : Option Token) (ts us : List Token) :
    after previous (ts ++ us) = after (after previous ts) us := List.foldl_append

/-- The tokens that no bracket hides, each with the token before it. A parenthesis hides what it
holds if `ends` says of the token before it that an operand ends there, another bracket always;
`hidden` has an entry for each bracket that is open. -/
def shown (ends : Token → Bool) (hidden : List Bool) (previous : Option Token) :
    List Token → List (Option Token × Token)
  | [] => []
  | t :: ts =>
    if t.weight = 1 then shown ends ((t.text ≠ "(" || previous.any ends) :: hidden) (some t) ts
    else if t.weight = -1 then shown ends (hidden.drop 1) (some t) ts
    else if hidden.contains true then shown ends hidden (some t) ts
    else (previous, t) :: shown ends hidden (some t) ts

section

variable {ends : Token → Bool} {hidden : List Bool} {previous : Option Token} {t : Token}
  {ts : List Token}

theorem shown_opening (h : t.weight = 1) : shown ends hidden previous (t :: ts) =
    shown ends ((t.text ≠ "(" || previous.any ends) :: hidden) (some t) ts := by
  rw [shown, if_pos h]

theorem shown_closing (h : t.weight = -1) : shown ends hidden previous (t :: ts) =
    shown ends (hidden.drop 1) (some t) ts := by
  rw [shown, if_neg (by omega), if_pos h]

theorem shown_plain (h : t.weight = 0) : shown ends hidden previous (t :: ts) =
    (if hidden.contains true then [] else [(previous, t)]) ++ shown ends hidden (some t) ts := by
  rw [shown, if_neg (by omega), if_neg (by omega)]
  split <;> rfl

theorem weight_cases (t : Token) : t.weight = 1 ∨ t.weight = -1 ∨ t.weight = 0 := by
  unfold Token.weight
  split
  · split
    · exact .inl rfl
    split
    · exact .inr (.inl rfl)
    · exact .inr (.inr rfl)
  · exact .inr (.inr rfl)

/-- Tokens that close all brackets of their own are hidden or shown by those around them. -/
theorem shown_append (us : List Token) (hsettled : Settled ts) (hzero : balance ts = 0) :
    shown ends hidden previous (ts ++ us) =
      (if hidden.contains true then [] else shown ends [] previous ts) ++
        shown ends hidden (after previous ts) us := by
  suffices hinside : ∀ top : List Bool, top.length + balance ts = 0 →
      shown ends (top ++ hidden) previous (ts ++ us) =
        (if hidden.contains true then [] else shown ends top previous ts) ++
          shown ends hidden (after previous ts) us by
    exact hinside [] (by simpa using hzero)
  clear hzero
  -- the entries of the brackets that these tokens opened stand on top of the others
  induction ts generalizing previous with
  | nil =>
    intro top hlength
    obtain rfl : top = [] := List.eq_nil_of_length_eq_zero (by simpa using hlength)
    simp [shown]
  | cons t ts ih =>
    intro top hlength
    have hmore := hsettled.2.balance_le
    rw [balance_cons] at hlength
    rw [List.cons_append, after_cons]
    rcases weight_cases t with hweight | hweight | hweight
    · rw [shown_opening hweight, shown_opening hweight, ← List.cons_append]
      exact ih hsettled.2 _ (by rw [List.length_cons]; omega)
    · obtain ⟨b, top, rfl⟩ := List.exists_cons_of_ne_nil (l := top) (by rintro rfl; simp at hlength; omega)
      rw [shown_closing hweight, shown_closing hweight, List.cons_append, List.drop_one, List.tail_cons,
        List.drop_one, List.tail_cons]
      exact ih hsettled.2 top (by rw [List.length_cons] at hlength; omega)
    · rw [shown_plain hweight, shown_plain hweight, ih hsettled.2 top (by omega)]
      by_cases hhidden : true ∈ hidden <;> simp [hhidden]

end

/-! ## Phrases -/

/-- How tokens make up expressions, after the token before them: what they spell, and which of
them stand outside every argument list, subscript and display, each with the token before it. -/
inductive Phrase : Option Token → List Token → List Expr → List (Option Token × Token) → Prop
  | nil (previous : Option Token) : Phrase previous [] [] []
  /-- A token that is no bracket. -/
  | word (previous : Option Token) {t : Token} (text : t.kind.isLexical = true)
      (plain : t.weight = 0) : Phrase previous [t] [] [(previous, t)]
  | append {previous : Option Token} {ts us : List Token} {es fs : List Expr}
      {vs ws : List (Option Token × Token)} (first : Phrase previous ts es vs)
      (more : Phrase (after previous ts) us fs ws) :
      Phrase previous (ts ++ us) (es ++ fs) (vs ++ ws)
  /-- A node other than a call, over the tokens of its parts. -/
  | node {previous : Option Token} {ts : List Token} {e : Expr}
      {vs : List (Option Token × Token)} (some : ts ≠ []) (plain : e.asCall? = none)
      (inside : Phrase previous ts e.children vs) : Phrase previous ts [e] vs
  /-- Parentheses that group, as no operand ends before them. -/
  | group {previous : Option Token} {l r : Token} {ts : List Token} {es : List Expr}
      {vs : List (Option Token × Token)} (opening : l.kind = .op ∧ l.text = "(")
      (first : previous.any Token.endsOperand = false) (inside : Phrase (some l) ts es vs)
      (closing : r.kind = .op ∧ r.text = ")") : Phrase previous (l :: (ts ++ [r])) es vs
  /-- A call; its arguments stand in the order of the tokens. -/
  | call {previous : Option Token} {l r : Token} {ts us : List Token} {func : Expr}
      {given args : List Expr} {keywords : List (Keyword Expr)}
      {vs ws : List (Option Token × Token)} (span : Span) (callee : Phrase previous ts [func] vs)
      (ended : (after previous ts).any Token.endsOperand = true)
      (opening : l.kind = .op ∧ l.text = "(") (inside : Phrase (some l) us given ws)
      (same : given.Perm (args ++ Keyword.valuesOf keywords))
      (closing : r.kind = .op ∧ r.text = ")") :
      Phrase previous (ts ++ (l :: (us ++ [r]))) [.call span func args keywords] vs
  /-- A subscript, or a display of a list, a set or a dictionary. -/
  | brackets {previous : Option Token} {l r : Token} {ts : List Token} {es : List Expr}
      {vs : List (Option Token × Token)} (opening : l.kind = .op ∧ l.text ∈ ["[", "\x7b"])
      (inside : Phrase (some l) ts es vs) (closing : r.kind = .op ∧ r.text ∈ ["]", "\x7d"]) :
      Phrase previous (l :: (ts ++ [r])) es []
  /-- The parameters of a lambda are no expressions of the tree; the calls in them are found by
  the tokens before their parentheses. -/
  | parameters (previous : Option Token) {l r : Token} {ts : List Token}
      (opening : l.kind = .name ∧ l.text = "lambda") (settled : Settled ts)
      (closing : r.kind = .op ∧ r.text = ":") :
      Phrase previous (l :: (ts ++ [r])) []
        ((previous, l) :: (shown Token.endsOperand [] (some l) ts ++ [(after (some l) ts, r)]))

namespace Phrase

theorem weight_opening_paren {l : Token} (h : l.kind = .op ∧ l.text = "(") : l.weight = 1 := by
  simp [Token.weight, h.1, h.2]

theorem weight_closing_paren {r : Token} (h : r.kind = .op ∧ r.text = ")") : r.weight = -1 := by
  simp [Token.weight, h.1, h.2]

theorem weight_opening_bracket {l : Token} (h : l.kind = .op ∧ l.text ∈ ["[", "\x7b"]) :
    l.weight = 1 := by
  rcases (by simpa using h.2 : l.text = "[" ∨ l.text = "\x7b") with htext | htext <;>
    simp [Token.weight, h.1, htext]

theorem weight_closing_bracket {r : Token} (h : r.kind = .op ∧ r.text ∈ ["]", "\x7d"]) :
    r.weight = -1 := by
  rcases (by simpa using h.2 : r.text = "]" ∨ r.text = "\x7d") with htext | htext <;>
    simp [Token.weight, h.1, htext]

theorem weight_word {t : Token} {text : String} (h : t.kind = .name ∧ t.text = text) :
    t.weight = 0 := Token.weight_of_ne_op (by rw [h.1]; decide)

theorem weight_colon {t : Token} (h : t.kind = .op ∧ t.text = ":") : t.weight = 0 := by
  simp [Token.weight, h.1, h.2]

variable {previous : Option Token} {ts : List Token} {es : List Expr}
  {vs : List (Option Token × Token)}

/-- A phrase closes every bracket that it opens. -/
theorem settled (h : Phrase previous ts es vs) : Settled ts := by
  induction h with
  | nil => trivial
  | word _ _ plain => exact .singleton (Int.le_of_eq plain)
  | append _ _ first more => exact first.append more
  | node _ _ _ ih => exact ih
  | group opening _ _ closing ih =>
    exact ih.bracketed (weight_opening_paren opening) (weight_closing_paren closing)
  | call _ _ _ opening _ _ closing callee inside =>
    exact callee.append
      (inside.bracketed (weight_opening_paren opening) (weight_closing_paren closing))
  | brackets opening _ closing ih =>
    exact ih.bracketed (weight_opening_bracket opening) (weight_closing_bracket closing)
  | parameters _ opening settled closing =>
    refine (Settled.singleton (Int.le_of_eq (weight_word opening))).append (settled.append ?_)
    exact .singleton (Int.le_of_eq (weight_colon closing))

/-- A phrase whose brackets match shows the tokens that the token before each parenthesis tells to
be shown. -/
theorem shown_eq (h : Phrase previous ts es vs) (hzero : balance ts = 0) :
    shown Token.endsOperand [] previous ts = vs := by
  induction h with
  | nil => rfl
  | word _ _ plain =>
    rw [shown_plain plain]
    rfl
  | @append _ ts us _ _ _ _ first more ihfirst ihmore =>
    have hfirst := first.settled.balance_le
    have hmore := more.settled.balance_le
    rw [balance_append] at hzero
    rw [shown_append us first.settled (by omega), ihfirst (by omega), ihmore (by omega)]
    simp
  | node _ _ _ ih => exact ih hzero
  | @group _ l r ts _ _ opening first inside closing ih =>
    have hl := weight_opening_paren opening
    have hr := weight_closing_paren closing
    have hinside : balance ts = 0 := by
      simp only [balance_cons, balance_append, balance_nil] at hzero
      omega
    rw [shown_opening hl, shown_append [r] inside.settled hinside, ih hinside, shown_closing hr]
    simp [opening.2, first, shown]
  | @call _ l r ts us _ _ _ _ _ _ _ callee ended opening inside _ closing ihcallee =>
    have hl := weight_opening_paren opening
    have hr := weight_closing_paren closing
    have hcallee := callee.settled.balance_le
    have hinside := inside.settled.balance_le
    simp only [balance_cons, balance_append, balance_nil] at hzero
    rw [shown_append _ callee.settled (by omega), ihcallee (by omega), shown_opening hl,
      shown_append [r] inside.settled (by omega), shown_closing hr]
    simp [ended, shown]
  | @brackets _ l r ts _ _ opening inside closing =>
    have hl := weight_opening_bracket opening
    have hr := weight_closing_bracket closing
    have hother : l.text ≠ "(" := by
      intro htext
      simp [htext] at opening
    have hinside := inside.settled.balance_le
    simp only [balance_cons, balance_append, balance_nil] at hzero
    rw [shown_opening hl, shown_append [r] inside.settled (by omega), shown_closing hr]
    simp [hother, shown]
  | @parameters _ l r ts opening settled closing =>
    have hl := weight_word opening
    have hr := weight_colon closing
    simp only [balance_cons, balance_append, balance_nil] at hzero
    rw [shown_plain hl, shown_append [r] settled (by omega), shown_plain hr]
    simp [shown]

end Phrase

end WorkflowAudit.Script
