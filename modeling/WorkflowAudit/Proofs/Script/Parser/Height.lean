import WorkflowAudit.Proofs.Script.Parser.Bound

/-!
# What each production adds to the height of a tree

One lemma a production, over a level below whose trees are of height `k` with `l` postfixes.
`Level.heightBound` adds these up over the levels of a budget.
-/

namespace WorkflowAudit.Script

namespace Parser

open Script.Expr (Within)

variable {inner : Level} {k l : Nat}

/-! ## Atoms and operators -/

theorem keeps_strings {n : Nat} (hn : 0 < n) : Keeps (Within n) strings := by
  refine .after restores_ask fun start => .after (restores_loop fun t => ?_) fun pieces =>
    .after restores_ask fun s => .pure (Expr.within_of_children hn rfl)
  split
  · exact .pure trivial
  · exact .fails (by simp)

theorem restores_skipParameters {depth : Nat} : Restores (skipParameters depth) := by
  rintro c u d ⟨hle, hrun⟩
  refine ⟨trivial, ?_⟩
  induction hn : c.rest.length using Nat.strongRecOn generalizing c depth with
  | ind n ih =>
    unfold skipParameters at hrun
    split at hrun
    case h_1 => cases hrun
    case h_2 t ts hrest =>
      split at hrun
      case isTrue => cases hrun
      case isFalse =>
        split at hrun
        case isTrue => cases hrun; rfl
        case isFalse =>
          dsimp only at hrun
          split at hrun
          case h_1 => cases hrun
          case h_2 m hm hmore =>
            cases hrun
            have hlt : c.advance.rest.length < n := by
              rw [Cursor.length_advance, ← hn, hrest, List.length_cons]
              omega
            exact (ih _ hlt hm hmore rfl).trans (depth_advance c)

theorem Keeps.chain {n : Nat} {isOperator : Cursor → Bool} {operand : Parser Expr}
    (h : Keeps (Within n) operand) : Keeps (Within (n + 1)) (chain isOperator operand) :=
  .after restores_ask fun _ => h.bind fun _ hfirst => .after restores_ask fun _ => .ite
    (h.loopItems.bind fun _ hmore => keeps_node fun _ => List.forall_mem_cons.mpr ⟨hfirst, hmore⟩)
    (.pure (hfirst.mono (Nat.le_succ n)))

theorem keeps_atom (h : inner.Bounded k l) : Keeps (Within k) (atom inner) := by
  have hleaf : ∀ {e : Expr}, e.children = [] →
      Keeps (Within k) (bump >>= fun _ => Pure.pure e) :=
    fun he => .after restores_bump fun _ => .pure (Expr.within_of_children h.pos he)
  have hfails : Keeps (Within k) unexpectedToken := .fails (by simp)
  refine .after restores_ask fun t => ?_
  split
  · exact hleaf rfl
  · exact keeps_strings h.pos
  · exact .ite (hleaf rfl) (.ite (hleaf rfl) (.ite (hleaf rfl) (.ite hfails (hleaf rfl))))
  · exact .ite (hleaf rfl) (.ite (.after restores_bump fun _ => (h.paren _).nested)
      (.ite (.after restores_bump fun _ => (h.list _).nested)
        (.ite (.after restores_bump fun _ => (h.brace _).nested) hfails)))
  · exact hfails

theorem keeps_links (h : inner.Bounded k l) {n start : Nat} {base : Expr} (hbase : base.Within n) :
    Keeps (Within (max n k + l)) (links inner start base) :=
  .after restores_ask fun _ => .ite (h.link hbase).nested (.pure (hbase.mono (by omega)))

theorem keeps_primary (h : inner.Bounded k l) : Keeps (Within (k + l)) (primary inner) :=
  .after restores_ask fun _ => (keeps_atom h).bind fun _ hbase => by
    simpa only [Nat.max_self] using keeps_links h hbase

theorem keeps_power (h : inner.Bounded k l) : Keeps (Within (k + l + 1)) (power inner) := by
  refine .after restores_ask fun _ => .after restores_eat fun _ => .ite ?_ ?_
  · exact h.power.nested.bind fun _ hoperand => keeps_node fun _ =>
      List.forall_mem_singleton.mpr (hoperand.mono (by omega))
  · refine (keeps_primary h).bind fun _ hbase => .after restores_eat fun _ => .ite ?_ ?_
    · exact h.factor.nested.bind fun _ hexponent => keeps_node fun _ =>
        List.forall_mem_cons.mpr ⟨hbase, List.forall_mem_singleton.mpr (hexponent.mono (by omega))⟩
    · exact .pure (hbase.mono (by omega))

theorem keeps_factor (h : inner.Bounded k l) : Keeps (Within (k + l + 1)) (factor inner) :=
  .after restores_ask fun _ => .ite
    (.after restores_bump fun _ => h.factor.nested.bind fun _ hoperand => keeps_node fun _ =>
      List.forall_mem_singleton.mpr (hoperand.mono (by omega)))
    (keeps_power h)

theorem keeps_binaryFrom (h : inner.Bounded k l) (ranks : List (List String)) :
    Keeps (Within (k + l + 1 + ranks.length)) (binaryFrom inner ranks) := by
  induction ranks with
  | nil => exact keeps_factor h
  | cons ops tighter ih => exact .chain ih

theorem keeps_binary (h : inner.Bounded k l) : Keeps (Within (k + l + 7)) (binary inner) :=
  keeps_binaryFrom h binaryRanks

theorem keeps_comparison (h : inner.Bounded k l) :
    Keeps (Within (k + l + 8)) (comparison inner) := by
  refine .after restores_ask fun _ => (keeps_binary h).bind fun _ hfirst =>
    .after restores_ask fun _ => .ite ?_ (.pure (hfirst.mono (by omega)))
  have hmore : Keeps (∀ e ∈ ·, e.Within (k + l + 7)) (loop atCompareOp fun t => do
      if t.kind = .name && (t.text = "not" || t.text = "is") then
        let _ ← eatName "in"
        let _ ← eatName "not"
      return .item (← binary inner)) :=
    .loop fun _ => .ite
      (.after restores_eat fun _ => .after restores_eat fun _ => (keeps_binary h).item)
      (keeps_binary h).item
  exact hmore.bind fun _ hmore => keeps_node fun _ => List.forall_mem_cons.mpr ⟨hfirst, hmore⟩

theorem keeps_notTest (h : inner.Bounded k l) : Keeps (Within (k + l + 8)) (notTest inner) :=
  .after restores_ask fun _ => .ite
    (.after restores_bump fun _ => h.notTest.nested.bind fun _ hoperand => keeps_node fun _ =>
      List.forall_mem_singleton.mpr (hoperand.mono (by omega)))
    (keeps_comparison h)

theorem keeps_andTest (h : inner.Bounded k l) : Keeps (Within (k + l + 9)) (andTest inner) :=
  .chain (keeps_notTest h)

theorem keeps_orTest (h : inner.Bounded k l) : Keeps (Within (k + l + 10)) (orTest inner) :=
  .chain (keeps_andTest h)

theorem keeps_lambda (h : inner.Bounded k l) : Keeps (Within (k + 1)) (lambda inner) :=
  .after restores_bump fun _ => .after restores_skipParameters fun _ =>
    .after restores_bump fun _ => h.test.nested.bind fun _ hbody => keeps_node fun _ =>
      List.forall_mem_singleton.mpr hbody

theorem keeps_test (h : inner.Bounded k l) : Keeps (Within (k + l + 11)) (test inner) := by
  refine .after restores_ask fun _ => .ite ((keeps_lambda h).mono fun _ he => he.mono (by omega)) ?_
  refine .after restores_ask fun _ => (keeps_orTest h).bind fun _ hbody =>
    .after restores_eat fun _ => .ite ?_ (.pure (hbody.mono (by omega)))
  exact (keeps_orTest h).bind fun _ hcondition => .after restores_expectWord fun _ =>
    h.test.nested.bind fun _ hotherwise => keeps_node fun _ => by
      simpa only [List.forall_mem_cons, Expr.children, List.not_mem_nil, false_implies,
        implies_true, and_true] using ⟨hbody, hcondition, hotherwise.mono (by omega)⟩

theorem keeps_namedTest (h : inner.Bounded k l) :
    Keeps (Within (k + l + 12)) (namedTest inner) :=
  .after restores_ask fun _ => (keeps_test h).bind fun _ htarget => .after restores_eat fun _ => .ite
    ((keeps_test h).bind fun _ hvalue => keeps_node fun _ =>
      List.forall_mem_cons.mpr ⟨htarget, List.forall_mem_singleton.mpr hvalue⟩)
    (.pure (htarget.mono (by omega)))

theorem keeps_starOrTest (h : inner.Bounded k l) :
    Keeps (Within (k + l + 11)) (starOrTest inner) :=
  .after restores_ask fun _ => .ite
    (.after restores_bump fun _ => (keeps_binary h).bind fun _ hvalue => keeps_node fun _ =>
      List.forall_mem_singleton.mpr (hvalue.mono (by omega)))
    (keeps_test h)

theorem keeps_starOrNamed (h : inner.Bounded k l) :
    Keeps (Within (k + l + 12)) (starOrNamed inner) :=
  .after restores_ask fun _ => .ite
    ((keeps_starOrTest h).mono fun _ he => he.mono (by omega)) (keeps_namedTest h)

theorem keeps_starExpressions (h : inner.Bounded k l) :
    Keeps (Within (k + l + 12)) (starExpressions inner) :=
  .after restores_ask fun _ => (keeps_starOrTest h).bind fun _ hfirst =>
    .after restores_ask fun _ => .ite
      ((keeps_starOrTest h).separated.bind fun _ hmore => keeps_node fun _ =>
        List.forall_mem_cons.mpr ⟨hfirst, hmore⟩)
      (.pure (hfirst.mono (by omega)))

theorem keeps_yieldExpr (h : inner.Bounded k l) :
    Keeps (Within (k + l + 13)) (yieldExpr inner) := by
  have hend : ∀ {start : Nat} (parts : List Expr), (∀ e ∈ parts, e.Within (k + l + 12)) →
      Keeps (Within (k + l + 13)) (do return .compound (← spanFrom start) parts) :=
    fun _ hparts => keeps_node fun _ => hparts
  refine .after restores_bump fun _ => .after restores_eat fun _ => .after restores_ask fun _ =>
    .ite ?_ (.ite ?_ ?_)
  · exact (keeps_test h).bind fun e he =>
      hend [e] (List.forall_mem_singleton.mpr (he.mono (by omega)))
  · exact (keeps_starExpressions h).bind fun e he =>
      hend [e] (List.forall_mem_singleton.mpr he)
  · exact hend [] nofun

theorem keeps_yieldOrStar (h : inner.Bounded k l) :
    Keeps (Within (k + l + 13)) (yieldOrStar inner) :=
  .after restores_ask fun _ => .ite (keeps_yieldExpr h)
    ((keeps_starExpressions h).mono fun _ he => he.mono (by omega))

/-! ## Displays -/

theorem keeps_comprehensionTarget (h : inner.Bounded k l) :
    Keeps (Within (k + l + 11)) (comprehensionTarget inner) :=
  .after restores_ask fun _ => .ite (keeps_starOrTest h)
    ((keeps_binary h).mono fun _ he => he.mono (by omega))

/-- One clause of a comprehension, after its first word. -/
theorem keeps_clause (h : inner.Bounded k l) :
    Keeps (Turn.All fun es => ∀ e ∈ es, e.Within (k + l + 11)) (do
      let first ← comprehensionTarget inner
      let targets ← separated "," (·.isName "in") (comprehensionTarget inner)
      expectWord "in"
      let source ← orTest inner
      let conditions ← loopItems (·.isName "if") (orTest inner)
      return .item (first :: targets ++ source :: conditions)) := by
  have hor : Keeps (Within (k + l + 11)) (orTest inner) :=
    (keeps_orTest h).mono fun _ he => he.mono (by omega)
  refine (keeps_comprehensionTarget h).bind fun _ hfirst =>
    (keeps_comprehensionTarget h).separated.bind fun _ htargets =>
      .after restores_expectWord fun _ => hor.bind fun _ hsource =>
        hor.loopItems.bind fun _ hconditions => .pure fun e he => ?_
  rcases List.mem_append.mp he with he | he
  · exact List.forall_mem_cons.mpr ⟨hfirst, htargets⟩ e he
  · exact List.forall_mem_cons.mpr ⟨hsource, hconditions⟩ e he

theorem keeps_comprehension (h : inner.Bounded k l) :
    Keeps (∀ e ∈ ·, e.Within (k + l + 11)) (comprehension inner) := by
  exact (Keeps.loop fun _ => .ite (.after restores_bump fun _ => keeps_clause h)
    (keeps_clause h)).bind fun _ hclauses => .pure (forall_mem_flatten hclauses)

/-- What a display may become has the items of the display as its parts. -/
theorem keeps_display (h : inner.Bounded k l) {closing : String} {start : Nat} {first : Expr}
    (hfirst : first.Within (k + l + 12)) {build : Span → List Expr → Expr}
    (hbuild : ∀ s es, (build s es).children = es) :
    Keeps (Within (k + l + 13)) (display inner closing start first build) :=
  .after restores_ask fun _ => .ite
    ((keeps_comprehension h).bind fun _ hclauses => .after restores_expectOp fun _ =>
      keeps_node fun _ => List.forall_mem_cons.mpr
        ⟨hfirst, fun e he => (hclauses e he).mono (by omega)⟩)
    ((keeps_starOrNamed h).separated.bind fun _ hmore => .after restores_expectOp fun _ =>
      keeps_node fun s => by
        rw [hbuild]
        exact List.forall_mem_cons.mpr ⟨hfirst, hmore⟩)

theorem keeps_paren (h : inner.Bounded k l) {start : Nat} :
    Keeps (Within (k + l + 13)) (paren inner start) := by
  refine .after restores_eat fun _ => .ite (keeps_node fun _ => nofun) ?_
  refine .after restores_ask fun _ => .ite ?_ ?_
  · exact (keeps_yieldExpr h).bind fun _ hvalue => .after restores_expectOp fun _ =>
      .after restores_ask fun s => .pure (hvalue.withSpan s)
  · exact (keeps_starOrNamed h).bind fun _ hfirst => .after restores_ask fun _ => .ite
      (keeps_display h hfirst fun _ _ => rfl)
      (.after restores_expectOp fun _ => .pure (hfirst.mono (by omega)))

theorem keeps_list (h : inner.Bounded k l) {start : Nat} :
    Keeps (Within (k + l + 13)) (list inner start) :=
  .after restores_eat fun _ => .ite (keeps_node fun _ => nofun)
    ((keeps_starOrNamed h).bind fun _ hfirst => keeps_display h hfirst fun _ _ => rfl)

/-- Whether the parts of an entry are of some height. -/
abbrev EntryWithin (n : Nat) (item : DictItem Expr) : Prop := ∀ e ∈ item.parts, e.Within n

theorem keeps_dictValue (h : inner.Bounded k l) {key : Option Expr}
    (hkey : ∀ e ∈ key, e.Within (k + l + 12)) :
    Keeps (EntryWithin (k + l + 12)) (dictValue inner key) := by
  cases key with
  | some key =>
    refine .after restores_expectOp fun _ => (keeps_test h).bind fun _ hvalue => .pure ?_
    exact List.forall_mem_cons.mpr ⟨hkey key rfl, List.forall_mem_singleton.mpr (hvalue.mono (by omega))⟩
  | none =>
    exact (keeps_binary h).bind fun _ hvalue =>
      .pure (List.forall_mem_singleton.mpr (hvalue.mono (by omega)))

theorem keeps_dictItem (h : inner.Bounded k l) :
    Keeps (EntryWithin (k + l + 12)) (dictItem inner) := by
  have hnone : ∀ e ∈ (none : Option Expr), e.Within (k + l + 12) := nofun
  refine .after restores_eat fun _ => .ite (keeps_dictValue h hnone)
    ((keeps_test h).bind fun _ hkey => keeps_dictValue h ?_)
  rintro _ ⟨⟩
  exact hkey.mono (by omega)

theorem keeps_dictFrom (h : inner.Bounded k l) {start : Nat} {first : DictItem Expr}
    (hfirst : EntryWithin (k + l + 12) first) :
    Keeps (Within (k + l + 13)) (dictFrom inner start first) := by
  refine .after restores_ask fun _ => .ite ?_ ?_
  · refine (keeps_comprehension h).bind fun clauses hclauses => .after restores_expectOp fun _ =>
      keeps_node fun s e he => ?_
    have hmem : e ∈ first.parts ++ clauses := by simpa [Expr.children, DictItem.parts] using he
    rcases List.mem_append.mp hmem with he | he
    · exact hfirst e he
    · exact (hclauses e he).mono (by omega)
  · refine (keeps_dictItem h).separated.bind fun _ hmore => .after restores_expectOp fun _ =>
      keeps_node fun s e he => ?_
    obtain ⟨item, hitem, he⟩ := List.mem_flatMap.mp he
    exact List.forall_mem_cons.mpr ⟨hfirst, hmore⟩ item hitem e he

theorem keeps_brace (h : inner.Bounded k l) {start : Nat} :
    Keeps (Within (k + l + 13)) (brace inner start) := by
  have hnone : ∀ e ∈ (none : Option Expr), e.Within (k + l + 12) := nofun
  refine .after restores_eat fun _ => .ite (keeps_node fun _ => nofun) (.after restores_eat fun _ =>
    .ite ((keeps_dictValue h hnone).bind fun _ hfirst => keeps_dictFrom h hfirst) ?_)
  refine (keeps_starOrNamed h).bind fun first hfirst => .after restores_ask fun _ =>
    .ite ((keeps_dictValue h ?_).bind fun _ hitem => keeps_dictFrom h hitem)
      (keeps_display h hfirst fun _ _ => rfl)
  rintro _ ⟨⟩
  exact hfirst

/-! ## Calls and subscripts -/

/-- Whether the expression of an argument is of some height. -/
def ArgumentWithin (n : Nat) : Expr ⊕ Keyword Expr → Prop
  | .inl e => e.Within n
  | .inr keyword => keyword.value.Within n

theorem keeps_argument (h : inner.Bounded k l) :
    Keeps (ArgumentWithin (k + l + 13)) (argument inner) := by
  have hvalue : ∀ {arg : Option String} {start : Nat}, Keeps (ArgumentWithin (k + l + 13)) (do
      let value ← test inner
      return .inr ⟨arg, value, ← spanFrom start⟩) := fun {_ _} =>
    (keeps_test h).bind fun value hvalue => .after restores_ask fun _ =>
      .pure (show value.Within _ from hvalue.mono (by omega))
  refine .after restores_ask fun _ => .after restores_eat fun _ => .ite hvalue ?_
  refine .after restores_ask fun _ => .ite ?_ (.after restores_ask fun _ => .ite ?_ ?_)
  · exact (keeps_starOrTest h).bind fun e he => .pure (show e.Within _ from he.mono (by omega))
  · exact .after restores_identifier fun _ => .after restores_bump fun _ => hvalue
  · refine (keeps_namedTest h).bind fun value hvalue => .after restores_ask fun _ => .ite ?_
      (.pure (show value.Within _ from hvalue.mono (by omega)))
    refine (keeps_comprehension h).bind fun _ hclauses => .after restores_ask fun _ => .pure ?_
    exact List.forall_mem_cons.mpr ⟨hvalue, fun e he => (hclauses e he).mono (by omega)⟩

theorem keeps_arguments (h : inner.Bounded k l) :
    Keeps (∀ a ∈ ·, ArgumentWithin (k + l + 13) a) (arguments inner) :=
  .after restores_ask fun _ => .ite (.pure nofun)
    ((keeps_argument h).bind fun _ hfirst => (keeps_argument h).separated.bind fun _ hmore =>
      .pure (List.forall_mem_cons.mpr ⟨hfirst, hmore⟩))

theorem keeps_slice (h : inner.Bounded k l) :
    Keeps (∀ e ∈ ·, e.Within (k + l + 12)) (slice inner) := by
  have hnone : ∀ e ∈ ([] : List Expr), e.Within (k + l + 12) := nofun
  have hbounds : ∀ {lower : List Expr}, (∀ e ∈ lower, e.Within (k + l + 12)) →
      Keeps (∀ e ∈ ·, e.Within (k + l + 12)) (do
        let bounds ← loop (·.isOp ":") fun _ => do
          if ← ask (·.isAnyOp [":", "]", ","]) then return .item []
          else return .item [← test inner]
        return lower ++ bounds.flatten) := by
    intro lower hlower
    have hbound : Keeps (Turn.All fun es => ∀ e ∈ es, e.Within (k + l + 12))
        (test inner >>= fun e => pure (Turn.item [e])) :=
      (keeps_test h).bind fun e he => .pure (List.forall_mem_singleton.mpr (he.mono (by omega)))
    have hgap : Keeps (Turn.All fun es : List Expr => ∀ e ∈ es, e.Within (k + l + 12))
        (pure (Turn.item [])) := .pure hnone
    refine (Keeps.loop fun _ => .after restores_ask fun _ => .ite hgap hbound).bind
      fun bounds hbounds => .pure fun e he => ?_
    exact (List.mem_append.mp he).elim (hlower e) (forall_mem_flatten hbounds e)
  exact .after restores_ask fun _ => .ite (.bind (.pure hnone) fun _ hlower => hbounds hlower)
    ((keeps_starOrNamed h).bind fun _ he =>
      .bind (.pure (List.forall_mem_singleton.mpr he)) fun _ hlower => hbounds hlower)

theorem keeps_subscript (h : inner.Bounded k l) :
    Keeps (∀ e ∈ ·, e.Within (k + l + 12)) (subscript inner) := by
  refine (keeps_slice h).bind fun _ hfirst => (keeps_slice h).separated.bind fun more hmore =>
    .pure fun e he => ?_
  exact (List.mem_append.mp he).elim (hfirst e) (forall_mem_flatten hmore e)

/-- A call adds one node to what is called and to its arguments, and so does each postfix after
it. -/
theorem keeps_link (h : inner.Bounded k l) {n start : Nat} {base : Expr} (hbase : base.Within n) :
    Keeps (Within (max n (k + l + 13) + (l + 1))) (link inner start base) := by
  have hnext : ∀ {e : Expr}, e.Within (max n (k + l + 13) + 1) →
      Keeps (Within (max n (k + l + 13) + (l + 1))) (links inner start e) := fun he =>
    (keeps_links h he).mono fun _ he => he.mono (by omega)
  refine .after restores_eat fun _ => .ite ?_ (.after restores_eat fun _ => .ite ?_ ?_)
  · refine (keeps_arguments h).bind fun given hgiven => .after restores_expectOp fun _ =>
      .after restores_ask fun _ => hnext fun e he => ?_
    have hargument : ∀ a ∈ given, a = .inl e ∨ (∃ k, a = .inr k ∧ k.value = e) →
        e.Within (max n (k + l + 13)) := by
      rintro a ha (rfl | ⟨keyword, rfl, rfl⟩)
      · exact Within.mono (hgiven _ ha) (by omega)
      · exact Within.mono (hgiven _ ha) (by omega)
    simp only [Expr.children, Keyword.valuesOf, List.cons_append, List.mem_cons, List.mem_append,
      List.mem_filterMap, List.mem_map] at he
    rcases he with rfl | ⟨a, ha, hleft⟩ | ⟨keyword, ⟨a, ha, hright⟩, rfl⟩
    · exact hbase.mono (by omega)
    · exact hargument a ha (.inl (Sum.getLeft?_eq_some_iff.mp hleft))
    · exact hargument a ha (.inr ⟨keyword, Sum.getRight?_eq_some_iff.mp hright, rfl⟩)
  · exact (keeps_subscript h).bind fun _ hparts => .after restores_expectOp fun _ =>
      .after restores_ask fun _ => hnext (List.forall_mem_cons.mpr
        ⟨hbase.mono (by omega), fun e he => (hparts e he).mono (by omega)⟩)
  · exact .after restores_expectOp fun _ => .after restores_identifier fun _ =>
      .after restores_ask fun _ => hnext (List.forall_mem_singleton.mpr (hbase.mono (by omega)))

end Parser

end WorkflowAudit.Script
