import WorkflowAudit.Proofs.Script.Bracket

/-!
# What stands outside the brackets of a line

The parameters of a lambda are skipped token by token: they end with the first colon outside their
brackets, whatever comes before it. An expression is read in another way. Outside its brackets a
colon is the end of the parameters of a lambda, and there is none without a lambda before it. `next?`
follows the tokens of an expression in this way, and the two readings of a run of tokens differ
exactly where a lambda stands outside its brackets.
-/

namespace WorkflowAudit.Script

/-- The number of open brackets after a token, cut off at none. -/
def Token.depthAfter (t : Token) (depth : Nat) : Nat := (depth + t.weight).toNat

/-- Whether a token is an operator with one of some texts. -/
def Token.isAnyOp (t : Token) (texts : List String) : Bool := t.kind = .op && texts.contains t.text

/-- Whether a token is a certain word. -/
def Token.isWord (t : Token) (word : String) : Bool := t.kind = .name && t.text = word

/-- The open brackets after a token among the parameters of a lambda, if they go on behind it. -/
def skip? (depth : Nat) (t : Token) : Option Nat :=
  if t.kind = .newline ∨ depth = 0 ∧ t.isAnyOp [":"] = true then none else some (t.depthAfter depth)

/-- Whether a word stands outside the brackets of some tokens that come where `depth` are open. -/
def standsOutside (word : String) (depth : Nat) : List Token → Bool
  | [] => false
  | t :: ts => (depth = 0 && t.isWord word) || standsOutside word (t.depthAfter depth) ts

/-- Where the tokens of an expression have come to. -/
structure Outline where
  /-- The number of open brackets. -/
  depth : Nat
  /-- Whether they are the parameters of a lambda that stands outside the brackets. -/
  inParameters : Bool
deriving DecidableEq

namespace Outline

/-- One more token of an expression. Outside the brackets there is none of the tokens that only come
behind an expression. -/
def next? (o : Outline) (t : Token) : Option Outline :=
  if o.inParameters = true then
    if o.depth = 0 ∧ t.isAnyOp [":"] = true then some ⟨0, false⟩
    else (skip? o.depth t).map (⟨·, true⟩)
  else if o.depth = 0 ∧ t.isWord "lambda" = true then some ⟨0, true⟩
  else if t.kind = .newline ∨ o.depth = 0 ∧ t.isAnyOp [":", "=", ";"] = true then none
  else some ⟨t.depthAfter o.depth, false⟩

/-- The tokens of an expression, one after another. -/
def follow? (o : Outline) (ts : List Token) : Option Outline := ts.foldlM next? o

@[simp] theorem follow?_nil (o : Outline) : o.follow? [] = some o := rfl

@[simp] theorem follow?_cons (o : Outline) (t : Token) (ts : List Token) :
    o.follow? (t :: ts) = (o.next? t).bind (·.follow? ts) := List.foldlM_cons ..

@[simp] theorem follow?_append (o : Outline) (ts us : List Token) :
    o.follow? (ts ++ us) = (o.follow? ts).bind (·.follow? us) := List.foldlM_append ..

end Outline

/-! ## Single tokens -/

theorem Token.kind_of_weight {t : Token} (h : t.weight ≠ 0) : t.kind = .op :=
  Decidable.byContradiction fun hkind => h (Token.weight_of_ne_op hkind)

/-- A bracket is none of the other operators. -/
theorem Token.not_isAnyOp_of_weight {t : Token} {texts : List String} (h : t.weight ≠ 0)
    (htexts : ∀ s ∈ texts, s ∉ ["(", "[", "\x7b", ")", "]", "\x7d"]) : t.isAnyOp texts = false := by
  rw [Bool.eq_false_iff]
  intro hop
  obtain ⟨hkind, htext⟩ := Bool.and_eq_true_iff.mp hop
  have hplain := htexts _ (List.contains_iff_mem.mp htext)
  simp only [List.mem_cons, List.not_mem_nil, or_false, not_or] at hplain
  exact h (by simp [Token.weight, of_decide_eq_true hkind, hplain])

theorem Token.isAnyOp_mono {t : Token} {texts texts' : List String} (htexts : texts ⊆ texts')
    (h : t.isAnyOp texts = true) : t.isAnyOp texts' = true := by
  obtain ⟨hkind, htext⟩ := Bool.and_eq_true_iff.mp h
  exact Bool.and_eq_true_iff.mpr
    ⟨hkind, List.contains_iff_mem.mpr (htexts (List.contains_iff_mem.mp htext))⟩

theorem Token.not_isWord_of_weight {t : Token} {word : String} (h : t.weight ≠ 0) :
    t.isWord word = false := by
  simp [isWord, kind_of_weight h]

/-- A token that leaves a bracket open around it is skipped. -/
theorem skip?_of_pos {depth : Nat} {t : Token} (hdepth : 0 < depth) (ht : t.kind ≠ .newline) :
    skip? depth t = some (t.depthAfter depth) :=
  if_neg (by simp [ht, hdepth.ne'])

/-- A bracket is skipped. -/
theorem skip?_of_weight (depth : Nat) {t : Token} (h : t.weight ≠ 0) :
    skip? depth t = some (t.depthAfter depth) :=
  if_neg (by simp [Token.kind_of_weight h, Token.not_isAnyOp_of_weight h])

namespace Outline

theorem next?_of_pos {depth : Nat} {t : Token} (hdepth : 0 < depth) (ht : t.kind ≠ .newline)
    (inParameters : Bool) : next? ⟨depth, inParameters⟩ t = some ⟨t.depthAfter depth, inParameters⟩ := by
  unfold next?
  cases inParameters <;> simp [hdepth.ne', ht, skip?_of_pos hdepth ht]

theorem next?_of_weight (depth : Nat) {t : Token} (h : t.weight ≠ 0) (inParameters : Bool) :
    next? ⟨depth, inParameters⟩ t = some ⟨t.depthAfter depth, inParameters⟩ := by
  unfold next?
  cases inParameters <;> simp [Token.kind_of_weight h, Token.not_isAnyOp_of_weight h,
    Token.not_isWord_of_weight h, skip?_of_weight depth h]

/-- Among parameters a token is skipped, until the colon that ends them. -/
theorem next?_of_skip? {depth depth' : Nat} {t : Token} (h : skip? depth t = some depth') :
    next? ⟨depth, true⟩ t = some ⟨depth', true⟩ := by
  have hcolon : ¬(depth = 0 ∧ t.isAnyOp [":"] = true) := by
    intro hcolon
    simp [skip?, hcolon] at h
  simp [next?, hcolon, h]

theorem follow?_of_skip {depth depth' : Nat} {ts : List Token}
    (h : ts.foldlM skip? depth = some depth') : follow? ⟨depth, true⟩ ts = some ⟨depth', true⟩ := by
  induction ts generalizing depth with
  | nil =>
    cases h
    rfl
  | cons t ts ih =>
    rw [List.foldlM_cons] at h
    obtain ⟨next, hnext, hmore⟩ := Option.bind_eq_some_iff.mp h
    rw [follow?_cons, next?_of_skip? hnext]
    exact ih hmore

/-- Where no lambda comes, a token of an expression outside its brackets may also be a parameter. -/
theorem next?_eq_some {depth : Nat} {t : Token} {o : Outline}
    (hword : ¬(depth = 0 ∧ t.isWord "lambda" = true)) (h : next? ⟨depth, false⟩ t = some o) :
    o = ⟨t.depthAfter depth, false⟩ ∧ skip? depth t = some (t.depthAfter depth) := by
  simp only [next?, Bool.false_eq_true, if_false, if_neg hword] at h
  split at h
  case isTrue => cases h
  case isFalse hplain =>
    refine ⟨(Option.some.inj h).symm, if_neg fun hend => hplain (hend.imp_right fun hcolon => ?_)⟩
    exact ⟨hcolon.1, Token.isAnyOp_mono (by simp) hcolon.2⟩

end Outline

/-! ## Inside brackets -/

/-- Where some bracket stays open around some tokens, the steps over them only count brackets. -/
theorem foldlM_inside {σ : Type} {step : σ → Token → Option σ} {f : Nat → σ}
    (hstep : ∀ {depth t}, 0 < depth → t.kind ≠ .newline →
      step (f depth) t = some (f (t.depthAfter depth)))
    {ts : List Token} (hsettled : Settled ts) (honLine : ∀ t ∈ ts, t.kind ≠ .newline) {depth : Nat}
    (hopen : 0 < depth + balance ts) :
    ts.foldlM step (f depth) = some (f (depth + balance ts).toNat) := by
  induction ts generalizing depth with
  | nil => simp
  | cons t ts ih =>
    obtain ⟨hall, hmore⟩ := hsettled
    have hafter := hmore.balance_le
    rw [balance_cons] at hall hopen ⊢
    have hdepth : (t.depthAfter depth : Int) = depth + t.weight := Int.toNat_of_nonneg (by omega)
    rw [List.foldlM_cons, hstep (by omega) (honLine t List.mem_cons_self),
      show depth + (t.weight + balance ts) = t.depthAfter depth + balance ts by omega]
    exact ih hmore (fun u hu => honLine u (List.mem_cons_of_mem t hu)) (by omega)

/-- Tokens with a bracket around them come back to where they began. -/
theorem foldlM_bracketed {σ : Type} {step : σ → Token → Option σ} {f : Nat → σ}
    (hstep : ∀ {depth t}, 0 < depth → t.kind ≠ .newline →
      step (f depth) t = some (f (t.depthAfter depth)))
    (hbracket : ∀ {t}, t.weight ≠ 0 → ∀ depth, step (f depth) t = some (f (t.depthAfter depth)))
    {l r : Token} {ts : List Token} (hl : l.weight = 1) (hsettled : Settled ts)
    (honLine : ∀ t ∈ ts, t.kind ≠ .newline) (hr : r.weight = -1) (hzero : balance ts = 0) :
    (l :: (ts ++ [r])).foldlM step (f 0) = some (f 0) := by
  have hopened : l.depthAfter 0 = 1 := by simp [Token.depthAfter, hl]
  have hclosed : r.depthAfter 1 = 0 := by simp [Token.depthAfter, hr]
  have hinside := @foldlM_inside _ _ _ hstep ts hsettled honLine 1 (by omega)
  rw [hzero] at hinside
  rw [List.foldlM_cons, hbracket (by omega), hopened]
  refine List.foldlM_append.trans ?_
  simp [hinside, hbracket (t := r) (by omega), hclosed]

/-- Tokens that are skipped, up to where no bracket is open, stand on one line and close all brackets
that they open. -/
theorem settled_of_skip {depth : Nat} {ts : List Token} (h : ts.foldlM skip? depth = some 0) :
    (∀ t ∈ ts, t.kind ≠ .newline) ∧ Settled ts ∧ balance ts + depth ≤ 0 := by
  induction ts generalizing depth with
  | nil =>
    obtain rfl : depth = 0 := Option.some.inj h
    exact ⟨nofun, trivial, Int.le_refl 0⟩
  | cons t ts ih =>
    rw [List.foldlM_cons] at h
    obtain ⟨next, hnext, hmore⟩ := Option.bind_eq_some_iff.mp h
    obtain ⟨honLine, hsettled, hbalance⟩ := ih hmore
    unfold skip? at hnext
    split at hnext
    case isTrue => cases hnext
    case isFalse hskipped =>
      obtain rfl := Option.some.inj hnext
      have hdepth : depth + t.weight ≤ t.depthAfter depth := Int.self_le_toNat _
      have hall : balance (t :: ts) + depth ≤ 0 := by
        rw [balance_cons]
        omega
      exact ⟨List.forall_mem_cons.mpr ⟨fun hline => hskipped (.inl hline), honLine⟩,
        ⟨by omega, hsettled⟩, hall⟩

/-! ## Lambdas outside brackets -/

namespace Outline

/-- The tokens of an expression are all skipped if no lambda stands outside its brackets. -/
theorem skip_of_follow? {depth : Nat} {ts : List Token} {o : Outline}
    (h : follow? ⟨depth, false⟩ ts = some o) (hnone : standsOutside "lambda" depth ts = false) :
    ts.foldlM skip? depth = some o.depth := by
  induction ts generalizing depth with
  | nil =>
    cases h
    rfl
  | cons t ts ih =>
    obtain ⟨next, hnext, hmore⟩ := Option.bind_eq_some_iff.mp ((follow?_cons ..).symm.trans h)
    obtain ⟨hword, hnone⟩ := Bool.or_eq_false_iff.mp hnone
    obtain ⟨rfl, hskip⟩ := next?_eq_some (by simpa using hword) hnext
    rw [List.foldlM_cons, hskip]
    exact ih hmore hnone

/-- Behind the parameters of a lambda the tokens of an expression are read in the same way as alone
if a lambda stands outside its brackets: the parameters of the first one end where its own do. -/
theorem follow?_parameters {depth : Nat} {ts : List Token} {o : Outline}
    (h : follow? ⟨depth, false⟩ ts = some o) (hsome : standsOutside "lambda" depth ts = true) :
    follow? ⟨depth, true⟩ ts = some o := by
  induction ts generalizing depth with
  | nil => cases hsome
  | cons t ts ih =>
    obtain ⟨next, hnext, hmore⟩ := Option.bind_eq_some_iff.mp ((follow?_cons ..).symm.trans h)
    rw [follow?_cons]
    by_cases hword : depth = 0 ∧ t.isWord "lambda" = true
    · obtain ⟨rfl, hword⟩ := hword
      obtain rfl : next = ⟨0, true⟩ := by simpa [next?, hword, eq_comm] using hnext
      obtain ⟨hkind, -⟩ := Bool.and_eq_true_iff.mp hword
      have hname : t.kind = .name := of_decide_eq_true hkind
      have hdepth : t.depthAfter 0 = 0 := by
        simp [Token.depthAfter, Token.weight_of_ne_op (t := t) (by simp [hname])]
      have hskip : skip? 0 t = some 0 := by simp [skip?, Token.isAnyOp, hname, hdepth]
      rw [next?_of_skip? hskip]
      exact hmore
    · obtain ⟨rfl, hskip⟩ := next?_eq_some hword hnext
      rw [next?_of_skip? hskip]
      exact ih hmore ((Bool.or_eq_true_iff.mp hsome).resolve_left (by simpa using hword))

/-- A token that only comes behind an expression, or behind the parameters of a lambda. -/
theorem next?_of_end {t : Token} (h : t.kind = .newline ∨ t.isAnyOp [":", "=", ";"] = true) :
    next? ⟨0, false⟩ t = none := by
  have hword : t.isWord "lambda" = false := by
    rcases h with hline | hop
    · simp [Token.isWord, hline]
    · simp [Token.isWord, of_decide_eq_true (Bool.and_eq_true_iff.mp hop).1]
  rcases h with h | h <;> simp [next?, hword, h]

/-- The tokens tell where an expression ends: the next one only comes behind an expression. -/
theorem follow?_unique {ts us more more' : List Token} {t : Token}
    (hts : follow? ⟨0, false⟩ ts = some ⟨0, false⟩) (hus : follow? ⟨0, false⟩ us = some ⟨0, false⟩)
    (ht : t.kind = .newline ∨ t.isAnyOp [":", "=", ";"] = true)
    (hmore : ∀ u ∈ more'.head?, u.kind = .newline ∨ u.isAnyOp [":", "=", ";"] = true)
    (hsame : ts ++ t :: more = us ++ more') : more' = t :: more := by
  -- An expression does not go on with a token that ends it.
  have hstuck : ∀ {vs ws : List Token} {v : Token},
      v.kind = .newline ∨ v.isAnyOp [":", "=", ";"] = true →
      follow? ⟨0, false⟩ vs = some ⟨0, false⟩ →
      ¬follow? ⟨0, false⟩ (vs ++ v :: ws) = some ⟨0, false⟩ := by
    intro vs ws v hv hvs hall
    simp [hvs, next?_of_end hv] at hall
  rcases List.append_eq_append_iff.mp hsame with ⟨excess, rfl, hmore'⟩ | ⟨excess, rfl, hmore'⟩
  · cases excess with
    | nil => exact hmore'.symm
    | cons v excess =>
      obtain ⟨rfl, -⟩ := List.cons.inj hmore'
      exact absurd hus (hstuck ht hts)
  · cases excess with
    | nil => exact hmore'
    | cons v excess =>
      subst hmore'
      exact absurd hts (hstuck (hmore v rfl) hus)

end Outline

/-! ## Tokens of expressions -/

/-- Tokens that close all brackets that they open and, if they are all closed by them, are those of
an expression as far as their outline tells. -/
structure Clear (ts : List Token) : Prop where
  settled : Settled ts
  onLine : ∀ t ∈ ts, t.kind ≠ .newline
  follows : balance ts = 0 → Outline.follow? ⟨0, false⟩ ts = some ⟨0, false⟩

namespace Clear

theorem nil : Clear [] := ⟨trivial, nofun, fun _ => rfl⟩

theorem append {ts us : List Token} (h : Clear ts) (h' : Clear us) : Clear (ts ++ us) where
  settled := h.settled.append h'.settled
  onLine := List.forall_mem_append.mpr ⟨h.onLine, h'.onLine⟩
  follows hzero := by
    have hfirst := h.settled.balance_le
    have hmore := h'.settled.balance_le
    rw [balance_append] at hzero
    rw [Outline.follow?_append, h.follows (by omega)]
    exact h'.follows (by omega)

theorem of_forall {ts : List Token} (h : ∀ t ∈ ts, Clear [t]) : Clear ts := by
  induction ts with
  | nil => exact nil
  | cons t ts ih =>
    exact (h t List.mem_cons_self).append (ih fun u hu => h u (List.mem_cons_of_mem t hu))

/-- A token that is no bracket and may stand in an expression outside its brackets. -/
theorem word {t : Token} (hline : t.kind ≠ .newline) (hweight : t.weight = 0)
    (hlambda : t.isWord "lambda" = false) (hplain : t.isAnyOp [":", "=", ";"] = false) :
    Clear [t] where
  settled := .singleton (Int.le_of_eq hweight)
  onLine := by simpa using hline
  follows _ := by simp [Outline.next?, hline, hlambda, hplain, Token.depthAfter, hweight]

theorem bracketed {l r : Token} {ts : List Token} (hl : l.weight = 1) (hsettled : Settled ts)
    (honLine : ∀ t ∈ ts, t.kind ≠ .newline) (hr : r.weight = -1) : Clear (l :: (ts ++ [r])) where
  settled := hsettled.bracketed hl hr
  onLine := by
    have hbrackets : ∀ t ∈ [l, r], t.kind ≠ .newline := by
      simp [Token.kind_of_weight (t := l) (by omega), Token.kind_of_weight (t := r) (by omega)]
    simpa [or_imp, forall_and] using ⟨hbrackets l (by simp), honLine, hbrackets r (by simp)⟩
  follows hzero := by
    have hinside : balance ts = 0 := by
      simp only [balance_cons, balance_append, balance_nil] at hzero
      omega
    exact foldlM_bracketed (f := fun depth => (⟨depth, false⟩ : Outline))
      (fun hdepth ht => Outline.next?_of_pos hdepth ht false)
      (fun hbracket depth => Outline.next?_of_weight depth hbracket false) hl hsettled honLine hr hinside

/-- A lambda with its parameters. -/
theorem lambda {l r : Token} {ts us : List Token} (hl : l.isWord "lambda" = true)
    (hsettled : Settled ts) (honLine : ∀ t ∈ ts, t.kind ≠ .newline)
    (hskip : ts.foldlM skip? 0 = some 0) (hr : r.isAnyOp [":"] = true) (h : Clear us) :
    Clear (l :: (ts ++ r :: us)) := by
  obtain ⟨hname, -⟩ := Bool.and_eq_true_iff.mp hl
  have hname : l.kind = .name := of_decide_eq_true hname
  obtain ⟨hop, htext⟩ := Bool.and_eq_true_iff.mp hr
  have hop : r.kind = .op := of_decide_eq_true hop
  have hlweight : l.weight = 0 := Token.weight_of_ne_op (by simp [hname])
  have hrweight : r.weight = 0 := by
    simp [Token.weight, hop, show r.text = ":" by simpa using htext]
  refine ⟨?_, ?_, fun hzero => ?_⟩
  · exact (Settled.singleton (Int.le_of_eq hlweight)).append
      (hsettled.append ((Settled.singleton (Int.le_of_eq hrweight)).append h.settled))
  · simpa [or_imp, forall_and, hname, hop] using ⟨honLine, h.onLine⟩
  · have hparameters := hsettled.balance_le
    have hbody := h.settled.balance_le
    simp only [balance_cons, balance_append] at hzero
    simp [Outline.next?, hl, hr, Outline.follow?_of_skip hskip, h.follows (by omega)]

end Clear

end WorkflowAudit.Script
