import WorkflowAudit.Proofs.Script.Node
import WorkflowAudit.Proofs.Script.Parser.Run
import WorkflowAudit.Proofs.Script.Phrase

/-!
# Where the nodes of a tree stand

Every node of a tree was read from a run of tokens of one logical line, whose first and last
bytes are those of its span, and in which no bracket stays open. `Stands` says this of an
expression and the tokens it was read from; parentheses around an expression belong to its
tokens but not to its span.
-/

namespace WorkflowAudit.Script

/-! ## Tokens that were taken -/

/-- Where the last token that stands for text stops. -/
def stopAfter (stop : Nat) (ts : List Token) : Nat :=
  ts.foldl (fun stop t => if t.kind.isLexical then t.span.stop else stop) stop

theorem stopAfter_append (n : Nat) (ts us : List Token) :
    stopAfter n (ts ++ us) = stopAfter (stopAfter n ts) us := List.foldl_append

theorem stopAfter_cons {t : Token} (h : t.kind.isLexical = true) (m n : Nat) (ts : List Token) :
    stopAfter m (t :: ts) = stopAfter n (t :: ts) := by
  simp only [stopAfter, List.foldl_cons, h, if_true]

/-- The cursor moved over some tokens. -/
structure Took (c : Cursor) (ts : List Token) (d : Cursor) : Prop where
  rest : c.rest = ts ++ d.rest
  lastEnd : d.lastEnd = stopAfter c.lastEnd ts

namespace Took

theorem refl (c : Cursor) : Took c [] c := ⟨rfl, rfl⟩

theorem trans {c m d : Cursor} {ts us : List Token} (h : Took c ts m) (h' : Took m us d) :
    Took c (ts ++ us) d :=
  ⟨by rw [h.rest, h'.rest, List.append_assoc],
    by rw [h'.lastEnd, h.lastEnd, stopAfter_append]⟩

theorem advance {c : Cursor} {t : Token} {ts : List Token} (h : c.rest = t :: ts) :
    Took c [t] c.advance := by
  unfold Cursor.advance
  rw [h]
  exact ⟨h, rfl⟩

theorem deeper {c d : Cursor} {ts : List Token} {n m : Nat}
    (h : Took { c with depth := n } ts d) : Took c ts { d with depth := m } :=
  ⟨h.rest, h.lastEnd⟩

theorem toDepth {c d : Cursor} {ts : List Token} (h : Took c ts d) (n : Nat) :
    Took c ts { d with depth := n } :=
  ⟨h.rest, h.lastEnd⟩

theorem peek_eq {c d : Cursor} {t : Token} {ts : List Token} (h : Took c (t :: ts) d) :
    c.peek = t :=
  Cursor.peek_of_rest h.rest

end Took

/-- Whether tokens begin with one that stands for text. -/
def Opens (ts : List Token) : Prop := ∃ t us, ts = t :: us ∧ t.kind.isLexical = true

theorem Opens.append {ts : List Token} (h : Opens ts) (us : List Token) : Opens (ts ++ us) := by
  obtain ⟨t, ts, rfl, ht⟩ := h
  exact ⟨t, ts ++ us, rfl, ht⟩

theorem opens_cons {t : Token} (h : t.kind.isLexical = true) (ts : List Token) :
    Opens (t :: ts) :=
  ⟨t, ts, rfl, h⟩

/-! ## Places of nodes -/

/-- Whether tokens hold a run of tokens, and close no more brackets than that run. -/
def Contains (ts us : List Token) : Prop :=
  ∃ before after, ts = before ++ (us ++ after) ∧ balance ts ≤ balance us

namespace Contains

theorem refl (ts : List Token) : Contains ts ts := ⟨[], [], by simp, Int.le_refl _⟩

theorem trans {ts us vs : List Token} (h : Contains ts us) (h' : Contains us vs) :
    Contains ts vs := by
  obtain ⟨before, after, rfl, hle⟩ := h
  obtain ⟨before', after', rfl, hle'⟩ := h'
  exact ⟨before ++ before', after' ++ after, by simp, Int.le_trans hle hle'⟩

theorem append_left {ts : List Token} (us : List Token) (h : Settled ts) :
    Contains (ts ++ us) us := by
  refine ⟨ts, [], by simp, ?_⟩
  have := h.balance_le
  rw [balance_append]
  omega

theorem append_right (ts : List Token) {us : List Token} (h : Settled us) :
    Contains (ts ++ us) ts := by
  refine ⟨[], us, rfl, ?_⟩
  have := h.balance_le
  rw [balance_append]
  omega

theorem bracketed (ts : List Token) {l r : Token} (hl : l.weight = 1) (hr : r.weight = -1) :
    Contains (l :: (ts ++ [r])) ts := by
  refine ⟨[l], [r], rfl, ?_⟩
  simp only [balance_cons, balance_append, balance_nil]
  omega

end Contains

/-- Whether a span reaches from the first to the last byte of some tokens. -/
def Covers (ts : List Token) (s : Span) : Prop :=
  ∃ t us, ts = t :: us ∧ t.kind.isLexical = true ∧ s.start = t.span.start ∧
    max s.stop s.start = max (stopAfter 0 ts) s.start

/-- All tokens since a place, and the span from that place. -/
theorem covers_of_took {c d : Cursor} {ts : List Token} {s : Span} (h : Took c ts d)
    (hopens : Opens ts) (hspan : s = ⟨c.peek.span.start, max d.lastEnd c.peek.span.start⟩) :
    Covers ts s := by
  obtain ⟨t, us, rfl, ht⟩ := hopens
  refine ⟨t, us, rfl, ht, by rw [hspan, h.peek_eq], ?_⟩
  rw [hspan, h.lastEnd, stopAfter_cons ht c.lastEnd 0, Nat.max_assoc, Nat.max_self]

/-- Whether tokens hold those that the value of a keyword argument covers, after an operator, and
these make up the value. -/
def HoldsArgument (ts : List Token) (value : Expr) : Prop :=
  ∃ before l us after, ts = before ++ (l :: (us ++ after)) ∧ l.kind = .op ∧ Covers us value.span ∧
    ∃ vs, Phrase none us [value] vs

theorem HoldsArgument.append {ts : List Token} {value : Expr} (h : HoldsArgument ts value)
    (before after : List Token) : HoldsArgument (before ++ (ts ++ after)) value := by
  obtain ⟨before', l, us, after', rfl, hl, hus⟩ := h
  exact ⟨before ++ before', l, us, after' ++ after, by simp, hl, hus⟩

/-- What the tokens of a node are for the nodes that are looked at. -/
def Fits (ts : List Token) : Expr → Prop
  | .literal _ (.str _) => ∀ t ∈ ts, t.kind = .str
  | .call _ _ _ keywords => ∀ k ∈ keywords, ∃ us r, ts = us ++ [r] ∧ HoldsArgument us k.value
  | _ => True

/-- Whether a node stands on a run of tokens among some tokens. -/
def Placed (ts : List Token) (v : Expr) : Prop :=
  ∃ us, Contains ts us ∧ (∀ t ∈ us, t.kind ≠ .newline) ∧ Settled us ∧ Covers us v.span ∧ Fits us v

theorem Placed.mono {ts us : List Token} {v : Expr} (h : Placed us v) (hts : Contains ts us) :
    Placed ts v := by
  obtain ⟨vs, hvs, hrest⟩ := h
  exact ⟨vs, hts.trans hvs, hrest⟩

/-- Whether a node is a keyword argument. -/
def Node.isArgument : Node → Bool
  | .argument _ => true
  | _ => false

/-- The same nodes in another order, in which the first one stays first, and the keyword arguments
and the other nodes keep their order among themselves. -/
structure Rearranged (ns ms : List Node) : Prop where
  same : ns.Perm ms
  first : ns.head? = ms.head?
  arguments : ns.filter Node.isArgument = ms.filter Node.isArgument
  others : ns.filter (!·.isArgument) = ms.filter (!·.isArgument)

namespace Rearranged

theorem append_right {ns ms : List Node} (h : Rearranged ns ms) (more : List Node) :
    Rearranged (ns ++ more) (ms ++ more) where
  same := h.same.append_right more
  first := by rw [List.head?_append, h.first, List.head?_append]
  arguments := by rw [List.filter_append, h.arguments, List.filter_append]
  others := by rw [List.filter_append, h.others, List.filter_append]

/-- The statements among the nodes keep their order. -/
theorem inTurn {ns ms : List Node} (h : Rearranged ns ms) :
    ns.filterMap Node.asStatement? = ms.filterMap Node.asStatement? := by
  have hothers : ∀ ns : List Node, ns.filterMap Node.asStatement? =
      (ns.filter (!·.isArgument)).filterMap Node.asStatement? := fun ns => by
    rw [List.filterMap_filter]
    refine List.filterMap_congr fun n _ => ?_
    cases n <;> rfl
  rw [hothers ns, h.others, ← hothers ms]

end Rearranged

/-- The runs of tokens from which some nodes were read, in the order of the tokens: a node covers
its run, and the nodes inside it were read from parts of that run. -/
inductive Parts : List Token → List Node → Prop
  | nil : Parts [] []
  /-- A token that belongs to none of the nodes. -/
  | token (t : Token) {ts : List Token} {ns : List Node} (more : Parts ts ns) : Parts (t :: ts) ns
  | node {us ts : List Token} {n : Node} {ns : List Node} (covers : Covers us n.span)
      (inside : Parts us n.children) (more : Parts ts ns) : Parts (us ++ ts) (n :: ns)
  /-- Nodes may be listed in another order than that of their tokens. -/
  | perm {ts : List Token} {ns ms : List Node} (parts : Parts ts ns) (same : Rearranged ns ms) :
      Parts ts ms

namespace Parts

theorem tokens (ts : List Token) : Parts ts [] := by
  induction ts with
  | nil => exact .nil
  | cons t ts ih => exact .token t ih

theorem append {ts us : List Token} {ns ms : List Node} (h : Parts ts ns) (h' : Parts us ms) :
    Parts (ts ++ us) (ns ++ ms) := by
  induction h with
  | nil => exact h'
  | token t _ ih => exact .token t ih
  | node covers inside _ _ ih =>
    rw [List.append_assoc]
    exact .node covers inside ih
  | perm _ same ih => exact ih.perm (same.append_right ms)

end Parts

/-- Tokens that leave no bracket open and from which some nodes were read. -/
structure Holds (ts : List Token) (ns : List Node) : Prop where
  settled : Settled ts
  placed : ∀ v, Node.Reached ns (.expression v) → Placed ts v
  parts : Parts ts ns

namespace Holds

theorem append {ts us : List Token} {ns ms : List Node} (h : Holds ts ns) (h' : Holds us ms) :
    Holds (ts ++ us) (ns ++ ms) := by
  refine ⟨h.settled.append h'.settled, fun v hv => ?_, h.parts.append h'.parts⟩
  rcases Node.Reached.append_iff.mp hv with hv | hv
  · exact (h.placed v hv).mono (.append_right ts h'.settled)
  · exact (h'.placed v hv).mono (.append_left us h.settled)

theorem bracketed {ts : List Token} {ns : List Node} {l r : Token} (h : Holds ts ns)
    (hl : l.weight = 1) (hr : r.weight = -1) : Holds (l :: (ts ++ [r])) ns := by
  refine ⟨h.settled.bracketed hl hr, fun v hv => (h.placed v hv).mono (.bracketed ts hl hr), ?_⟩
  simpa using Parts.token l (h.parts.append (.tokens [r]))

theorem of_settled {ts : List Token} (h : Settled ts) : Holds ts [] := ⟨h, by simp, .tokens ts⟩

theorem of_perm {ts : List Token} {ns ms : List Node} (h : Holds ts ns)
    (same : Rearranged ns ms) : Holds ts ms :=
  ⟨h.settled, fun v hv => h.placed v (hv.mono same.same.symm.subset), h.parts.perm same⟩

/-- One node over tokens from which the nodes inside it were read. -/
theorem wrap {ts : List Token} {n : Node} (h : Holds ts n.children) (hcovers : Covers ts n.span)
    (hroot : ∀ v, n = .expression v → Placed ts v) : Holds ts [n] := by
  refine ⟨h.settled, fun v hv => ?_, by simpa using Parts.node hcovers h.parts .nil⟩
  rcases Node.reached_singleton.mp hv with heq | hinside
  · exact hroot v heq.symm
  · exact h.placed v hinside

end Holds

/-- Tokens of one logical line from which some nodes were read. -/
structure Row (ts : List Token) (ns : List Node) : Prop extends Holds ts ns where
  onLine : ∀ t ∈ ts, t.kind ≠ .newline

namespace Row

theorem of_settled {ts : List Token} (h : Settled ts) (honLine : ∀ t ∈ ts, t.kind ≠ .newline) :
    Row ts [] :=
  ⟨.of_settled h, honLine⟩

theorem nil : Row [] [] := .of_settled trivial (by simp)

theorem append {ts us : List Token} {ns ms : List Node} (h : Row ts ns) (h' : Row us ms) :
    Row (ts ++ us) (ns ++ ms) :=
  ⟨h.toHolds.append h'.toHolds, fun t ht => (List.mem_append.mp ht).elim (h.onLine t) (h'.onLine t)⟩

theorem token {t : Token} (hkind : t.kind ≠ .newline) (hweight : t.weight ≤ 0) : Row [t] [] :=
  .of_settled (.singleton hweight) (by simpa using hkind)

theorem cons {t : Token} {ts : List Token} {ns : List Node} (hkind : t.kind ≠ .newline)
    (hweight : t.weight ≤ 0) (h : Row ts ns) : Row (t :: ts) ns :=
  (Row.token hkind hweight).append h

theorem bracketed {ts : List Token} {ns : List Node} {l r : Token} (h : Row ts ns)
    (hl : l.weight = 1) (hr : r.weight = -1) : Row (l :: (ts ++ [r])) ns := by
  have hop : ∀ {t : Token}, t.weight ≠ 0 → t.kind ≠ .newline := by
    intro t ht hkind
    exact ht (Token.weight_of_ne_op (by rw [hkind]; exact TokenKind.noConfusion))
  refine ⟨h.toHolds.bracketed hl hr, fun t ht => ?_⟩
  simp only [List.mem_cons, List.mem_append, List.not_mem_nil, or_false] at ht
  rcases ht with rfl | ht | rfl
  · exact hop (by omega)
  · exact h.onLine t ht
  · exact hop (by omega)

theorem of_perm {ts : List Token} {ns ms : List Node} (h : Row ts ns)
    (same : Rearranged ns ms) : Row ts ms :=
  ⟨h.toHolds.of_perm same, h.onLine⟩

end Row

/-- Tokens of one logical line from which some expressions were read. -/
abbrev Spread (ts : List Token) (es : List Expr) : Prop := Row ts (es.map .expression)

namespace Spread

theorem nil : Spread [] [] := Row.nil

theorem append {ts us : List Token} {es fs : List Expr} (h : Spread ts es) (h' : Spread us fs) :
    Spread (ts ++ us) (es ++ fs) := by
  unfold Spread
  rw [List.map_append]
  exact Row.append h h'

theorem token {t : Token} (hkind : t.kind ≠ .newline) (hweight : t.weight ≤ 0) : Spread [t] [] :=
  Row.token hkind hweight

theorem cons {t : Token} {ts : List Token} {es : List Expr} (hkind : t.kind ≠ .newline)
    (hweight : t.weight ≤ 0) (h : Spread ts es) : Spread (t :: ts) es :=
  Row.cons hkind hweight h

end Spread

/-- An expression that was read from some tokens. -/
structure Stands (ts : List Token) (e : Expr) : Prop where
  spread : Spread ts [e]
  root : ∃ ps us qs, ts = ps ++ (us ++ qs) ∧ (∀ t ∈ ps, t.kind = .op) ∧
    (∀ t ∈ qs, t.kind = .op) ∧ Covers us e.span

namespace Stands

/-- A node over all tokens from which the nodes inside it were read. -/
theorem node {ts : List Token} {e : Expr} (h : Row ts (Node.expression e).children)
    (hspan : Covers ts e.span) (hfits : Fits ts e) : Stands ts e := by
  refine ⟨⟨h.toHolds.wrap hspan ?_, h.onLine⟩, [], ts, [], by simp, by simp, by simp, hspan⟩
  rintro v ⟨⟩
  exact ⟨ts, .refl ts, h.onLine, h.settled, hspan, hfits⟩

/-- Parentheses around an expression. -/
theorem parens {ts : List Token} {e : Expr} {l r : Token} (h : Stands ts e)
    (hl : l.weight = 1) (hr : r.weight = -1) (hopen : l.kind = .op) (hclose : r.kind = .op) :
    Stands (l :: (ts ++ [r])) e := by
  obtain ⟨ps, us, qs, rfl, hps, hqs, hspan⟩ := h.root
  refine ⟨h.spread.bracketed hl hr, l :: ps, us, qs ++ [r], by simp, ?_, ?_, hspan⟩
  · simpa [hopen] using hps
  · simpa [hclose, or_imp, forall_and] using hqs

theorem opens {ts : List Token} {e : Expr} (h : Stands ts e) : Opens ts := by
  obtain ⟨ps, us, qs, rfl, hps, -, t, us', rfl, ht, -⟩ := h.root
  cases ps with
  | nil => exact opens_cons ht (us' ++ qs)
  | cons p ps => exact opens_cons (by rw [hps p List.mem_cons_self]; rfl) (ps ++ (t :: us' ++ qs))

end Stands

end WorkflowAudit.Script
