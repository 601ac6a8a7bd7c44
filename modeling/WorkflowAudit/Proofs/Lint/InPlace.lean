import WorkflowAudit.Lint.ActionRules
import WorkflowAudit.Lint.ExpressionRules
import WorkflowAudit.Proofs.Data.Lookup
import WorkflowAudit.Proofs.Script.Nodes
import WorkflowAudit.Proofs.Script.Visit

/-!
# Rules that rewrite in place

Four rules replace a call or a string constant by a word: a name with parentheses, a look-up
of a secret, or another constant. Every replacement takes the place of the tokens of its node
and of no others. The only thing that can go wrong is at the seam: a name that stands directly
before what is replaced would run into a replacement that begins with a letter.
-/

namespace WorkflowAudit

open Script Script.Lexer

/-! ## Nodes and arguments -/

namespace Script

/-- The parts of a visited node are visited. -/
theorem Expr.children_subset_visit {v : Expr} {es : List Expr} (h : v ∈ visit es) :
    v.children ⊆ visit es := by
  have hself : ∀ es : List Expr, es ⊆ visit es := by
    intro es e he
    obtain ⟨before, after, rfl⟩ := List.append_of_mem he
    simp [visit_append, visit]
  induction es using visit.induct with
  | case1 => simp [visit] at h
  | case2 e es ih =>
    rw [visit] at h ⊢
    rcases List.mem_cons.mp h with rfl | h
    · exact fun c hc => List.mem_cons_of_mem _ (hself _ (List.mem_append_left es hc))
    · exact fun c hc => List.mem_cons_of_mem e (ih h hc)

theorem Module.children_subset_expressions {m : Module} {v : Expr} (h : v ∈ m.expressions) :
    v.children ⊆ m.expressions := by
  simp only [Module.expressions, List.mem_flatMap] at h
  obtain ⟨s, hs, e, he, hv⟩ := h
  intro c hc
  simp only [Module.expressions, List.mem_flatMap]
  exact ⟨s, hs, e, he, Expr.children_subset_visit hv hc⟩

/-- The node of a call of a script. -/
theorem exists_node_of_mem_calls {m : Module} {call : Call} (h : call ∈ m.calls) :
    .call call.span call.func call.args call.keywords ∈ m.expressions := by
  obtain ⟨v, hv, hcall⟩ := List.mem_filterMap.mp h
  cases v <;> simp only [Expr.asCall?, Option.some.injEq, reduceCtorEq] at hcall
  subst hcall
  exact hv

/-- The value of a keyword argument is a node of the script. -/
theorem keyword_mem_expressions {m : Module} {call : Call} {name : String} {value : Expr}
    (h : call ∈ m.calls) (hvalue : call.keyword? name = some value) :
    ∃ k ∈ call.keywords, k.value = value ∧ value ∈ m.expressions := by
  obtain ⟨k, hk, rfl⟩ := Option.map_eq_some_iff.mp hvalue
  have hmem := List.mem_of_find?_eq_some hk
  refine ⟨k, hmem, rfl, ?_⟩
  have hchildren := Module.children_subset_expressions (exists_node_of_mem_calls h)
  refine hchildren (List.mem_append_right _ (List.mem_map_of_mem hmem))

/-- What stops where the value of a keyword argument starts is an operator. -/
theorem kind_before_keyword {text : String} {m : Module} {tokens : List Token} {call : Call}
    {name : String} {value : Expr} (hparse : parse text = .ok m)
    (htokens : tokenize text = .ok tokens) (hcall : call ∈ m.calls)
    (hvalue : call.keyword? name = some value) {t : Token} (ht : t ∈ tokens)
    (hstop : t.span.stop = value.span.start) : t.kind = .op := by
  obtain ⟨tokens', htokens', hordered, hruns⟩ := exists_run_of_parse hparse
  obtain rfl : tokens = tokens' := by rw [htokens] at htokens'; exact Except.ok.inj htokens'
  obtain ⟨k, hk, rfl, -⟩ := keyword_mem_expressions hcall hvalue
  obtain ⟨before, inside, after, rfl, -, -, hfits⟩ := hruns _ (exists_node_of_mem_calls hcall)
  obtain ⟨_, r, rfl, before', l, us, after', rfl, hl, ⟨u, us', rfl, hu, hstart, -⟩, -⟩ := hfits k hk
  have hshape : before ++ (before' ++ l :: ((u :: us') ++ after') ++ [r] ++ after) =
      (before ++ before') ++ (l :: u :: (us' ++ (after' ++ r :: after))) := by simp
  rw [hshape] at ht hordered
  have hlength : ∀ t ∈ [l, u], t.span.start < t.span.stop := by
    intro t ht
    refine (hordered.spans t ?_).2 ?_
    · simp only [List.mem_cons, List.not_mem_nil, or_false] at ht
      rcases ht with rfl | rfl <;> simp
    · simp only [List.mem_cons, List.not_mem_nil, or_false] at ht
      rcases ht with rfl | rfl
      · rw [hl]
        rfl
      · exact hu
  have hll := hlength l (by simp)
  have hul := hlength u (by simp)
  have hpairs := List.pairwise_append.mp hordered.pairs
  have hlu := (List.pairwise_cons.mp hpairs.2.1).1 u List.mem_cons_self
  rcases List.mem_append.mp ht with hfront | hback
  · have := hpairs.2.2 t hfront l List.mem_cons_self
    omega
  rcases List.mem_cons.mp hback with rfl | hback
  · exact hl
  rcases List.mem_cons.mp hback with rfl | hback
  · omega
  · have := (List.pairwise_cons.mp (List.pairwise_cons.mp hpairs.2.1).2).1 t hback
    have := (hordered.spans t ht).1
    omega

end Script

/-! ## Words that replace nodes -/

/-- A text that begins with `c` and gives the same lexemes wherever it stands. -/
structure IsSteady (text : String) (c : Char) : Prop where
  begins : beginsWord c = true
  steady : ∃ w found, text.toList = c :: w ∧ Steady (c :: w) found ∧
    ∀ l ∈ found, l.1.isLexical = true

/-- Whether a text is a name. -/
def isNameText : List Char → Bool
  | [] => false
  | c :: cs => startsName c && cs.all continuesName

/-- A name before a steady text that does not go on with it. -/
theorem steady_name {c d : Char} {w text : List Char} {found : List (TokenKind × String)}
    (h : Steady (d :: text) found) (hc : startsName c = true)
    (hw : ∀ e ∈ w, continuesName e = true) (hd : continuesName d = false)
    (hquote : isQuote d = false) :
    Steady (c :: (w ++ (d :: text))) ((.name, String.ofList (c :: w)) :: found) :=
  h.cons (fun rest => front_name (text ++ rest) hc hw hd hquote) fun _ => rfl

/-- The lexemes of a pair of parentheses. -/
theorem steady_parens : Steady ['(', ')'] [(.op, "("), (.op, ")")] := Steady.parens (.inl ⟨rfl, rfl⟩)

theorem isSteady_call {name : String} (h : isNameText name.toList = true) :
    ∃ c, isQuote c = false ∧ IsSteady (name ++ "()") c := by
  cases hname : name.toList with
  | nil => simp [hname, isNameText] at h
  | cons c w =>
    rw [hname, isNameText, Bool.and_eq_true, List.all_eq_true] at h
    refine ⟨c, isQuote_of_startsName h.1, by rw [beginsWord, h.1, Bool.true_or], _, _, ?_,
      steady_name steady_parens h.1 h.2 (by decide) (by decide), by simp [TokenKind.isLexical]⟩
    rw [String.toList_append, hname]
    rfl

theorem isSteady_secret {name : String} (hne : name.toList ≠ [])
    (hname : ∀ d ∈ name.toList, Text.isWord d = true) :
    IsSteady ("Secrets.get(\"" ++ name ++ "\")") 'S' := by
  have hplain : ∀ d ∈ name.toList, d ≠ '"' ∧ d ≠ '\\' ∧ d ≠ '\n' := by
    have hnone : Text.isWord '"' = false ∧ Text.isWord '\\' = false ∧ Text.isWord '\n' = false := by
      decide
    intro d hd
    have hword := hname d hd
    refine ⟨?_, ?_, ?_⟩ <;> rintro rfl
    · cases hnone.1.symm.trans hword
    · cases hnone.2.1.symm.trans hword
    · cases hnone.2.2.symm.trans hword
  have hget := steady_name (Steady.parens (.inr (steady_literal (by decide) hne hplain)))
    (c := 'g') (w := ['e', 't']) (by decide) (List.all_eq_true.mp (by decide)) (by decide)
    (by decide)
  have hdot := hget.cons (c := '.') (w := []) (fun rest => front_dot _ (by decide))
    fun _ => rfl
  have hall := steady_name hdot (c := 'S') (w := "ecrets".toList) (by decide)
    (List.all_eq_true.mp (by decide)) (by decide) (by decide)
  refine ⟨by decide, _, _, ?_, hall, by simp [TokenKind.isLexical]⟩
  simp [String.toList_append]

theorem isSteady_literal {quote : Char} {body : String} (hquote : isQuote quote = true)
    (hne : body.toList ≠ []) (hbody : ∀ d ∈ body.toList, d ≠ quote ∧ d ≠ '\\' ∧ d ≠ '\n') :
    IsSteady (String.singleton quote ++ body ++ String.singleton quote) quote := by
  refine ⟨by rw [beginsWord, hquote, Bool.or_true], _, _, ?_, steady_literal hquote hne hbody,
    by simp [TokenKind.isLexical]⟩
  simp [String.toList_append]

theorem isNameText_of_wrapper? {action wrapper : String}
    (h : Action.wrapper? action = some wrapper) : isNameText wrapper.toList = true := by
  have hall : ∀ p ∈ Action.wrappers, isNameText p.2.toList = true := by decide +kernel
  exact hall _ (mem_of_lookup h)

/-- A pinned reference has nothing that ends a constant or that stands for something else. -/
theorem plain_of_version? {quote : Char} {reference version : String}
    (hquote : isQuote quote = true) (h : Action.version? reference = some version) :
    ∀ d ∈ (reference ++ "@" ++ version).toList, d ≠ quote ∧ d ≠ '\\' ∧ d ≠ '\n' := by
  have hall : (Action.versions.all fun p => (p.1 ++ "@" ++ p.2).toList.all fun d =>
      !isQuote d && d != '\\' && d != '\n') = true := by decide +kernel
  intro d hd
  obtain ⟨hd', hplain⟩ : isQuote d = false ∧ d ≠ '\\' ∧ d ≠ '\n' := by
    simpa [and_assoc] using List.all_eq_true.mp (List.all_eq_true.mp hall _ (mem_of_lookup h)) d hd
  refine ⟨?_, hplain⟩
  rintro rfl
  cases hquote.symm.trans hd'

/-! ## What expressions name -/

theorem exists_read_of_firstRead {α : Type} {read : List Char → Option (α × List Char)}
    {atStart whole : Bool} {cs : List Char} {found : α}
    (h : Text.firstRead read atStart cs = some (found, whole)) :
    ∃ cs rest, read cs = some (found, rest) := by
  induction cs generalizing atStart with
  | nil =>
    unfold Text.firstRead at h
    split at h
    case h_1 found' rest hread =>
      cases h
      exact ⟨_, _, hread⟩
    case h_2 => cases h
  | cons c cs ih =>
    unfold Text.firstRead at h
    split at h
    case h_1 found' rest hread =>
      cases h
      exact ⟨_, _, hread⟩
    case h_2 => exact ih h

theorem exists_read_of_insideExpression {α : Type} {read : List Char → Option (α × List Char)}
    {cs rest : List Char} {found : α}
    (h : Text.insideExpression read cs = some (found, rest)) :
    ∃ cs rest, read cs = some (found, rest) := by
  simp only [Text.insideExpression, Option.bind_eq_bind, Option.bind_eq_some_iff] at h
  obtain ⟨body, -, ⟨found', after⟩, hread, after', -, hfound⟩ := h
  cases hfound
  exact ⟨_, _, hread⟩

theorem mem_of_statusExpression? {text function : String} {whole : Bool}
    (h : Text.statusExpression? text = some (function, whole)) :
    function ∈ Text.statusFunctions := by
  obtain ⟨cs, rest, hinside⟩ := exists_read_of_firstRead h
  obtain ⟨cs, rest, hread⟩ := exists_read_of_insideExpression hinside
  obtain ⟨name, hname, hcall⟩ := List.exists_of_findSome?_eq_some hread
  obtain ⟨_, -, heq⟩ := Option.map_eq_some_iff.mp hcall
  cases heq
  exact hname

theorem isWord_of_secretExpression? {text name : String} {whole : Bool}
    (h : Text.secretExpression? text = some (name, whole)) :
    name.toList ≠ [] ∧ ∀ d ∈ name.toList, Text.isWord d = true := by
  obtain ⟨cs, rest, hinside⟩ := exists_read_of_firstRead h
  obtain ⟨cs, rest, hread⟩ := exists_read_of_insideExpression hinside
  simp only [Text.secretName?, Option.bind_eq_bind, Option.bind_eq_some_iff] at hread
  obtain ⟨after, -, hname⟩ := hread
  split at hname
  case isTrue => cases hname
  case isFalse hne =>
    cases hname
    rw [String.toList_ofList]
    exact ⟨by simpa using hne, fun d hd => List.mem_takeWhile_imp hd⟩

/-! ## Queued edits -/

theorem EditBuffer.queued_foldl {α : Type} {P : Edit → Prop} {add : EditBuffer → α → EditBuffer}
    {as : List α} (hadd : ∀ b, ∀ a ∈ as, add b a = b ∨ ∃ e, P e ∧ add b a = b.push e)
    (b : EditBuffer) (hb : ∀ group ∈ b.groups, ∀ e ∈ group, P e) :
    ∀ group ∈ (as.foldl add b).groups, ∀ e ∈ group, P e := by
  induction as generalizing b with
  | nil => exact hb
  | cons a as ih =>
    refine ih (fun b a' ha' => hadd b a' (List.mem_cons_of_mem a ha')) (add b a) ?_
    rcases hadd b a List.mem_cons_self with hsame | ⟨e, he, hpush⟩
    · rwa [hsame]
    · rw [hpush]
      intro group hgroup f hf
      rcases List.mem_append.mp hgroup with hgroup | hgroup
      · exact hb group hgroup f hf
      · rw [List.mem_singleton] at hgroup
        subst hgroup
        exact List.mem_singleton.mp hf ▸ he

/-- Accepted edits have what all queued edits have. -/
theorem EditBuffer.accepted_foldl {α : Type} {P : Edit → Prop}
    {add : EditBuffer → α → EditBuffer} {as : List α}
    (hadd : ∀ b, ∀ a ∈ as, add b a = b ∨ ∃ e, P e ∧ add b a = b.push e) (text : String) :
    ∀ e ∈ (as.foldl add .empty).accepted text, P e := by
  intro e he
  obtain ⟨group, hgroup, hmem⟩ := (EditBuffer.sound_accepted _ text).queued e he
  exact EditBuffer.queued_foldl hadd .empty (by simp [EditBuffer.empty]) group hgroup e hmem

namespace Lint

/-- An edit that puts a steady text in the place of a node. -/
structure OfNode (m : Module) (e : Edit) (c : Char) : Prop where
  node : ∃ v ∈ m.expressions, v.span = e.span
  word : IsSteady e.text c

/-- Edits that put steady texts in the place of nodes change the tokens of these nodes to those
    of the texts, unless a text runs into what stands before it. -/
theorem lexemes_of_nodes {text : String} {m : Module} (hparse : parse text = .ok m)
    {edits : EditBuffer} (hedits : ∀ e ∈ edits.accepted text, ∃ c, OfNode m e c ∧
      ∀ ts, tokenize text = .ok ts → ∀ t ∈ ts, t.span.stop = e.span.start →
        (Piece.token t.kind).endsBefore c = true) :
    ∃ old new, tokenize text = .ok old ∧ tokenize (edits.apply text).1 = .ok new ∧
      (∀ e ∈ edits.accepted text, ∃ before inside after, old = before ++ (inside ++ after) ∧
        Spans inside e.span) ∧
      new.map Token.lexeme = rewriteLexemes old (edits.accepted text) := by
  obtain ⟨old, hold, hordered, hruns⟩ := exists_run_of_parse hparse
  have hreplaces : ∀ e ∈ edits.accepted text, ∃ before inside after,
      old = before ++ (inside ++ after) ∧ Replaces before inside e := by
    intro e he
    obtain ⟨c, ⟨⟨v, hv, hspan⟩, hc, w, found, htext, hsteady, hfound⟩, hseam⟩ := hedits e he
    obtain ⟨before, inside, after, hsplit, hmatched, hspans, -⟩ := hruns v hv
    refine ⟨before, inside, after, hsplit, hmatched, hspan ▸ hspans, c, w, found, htext, hc,
      hsteady, hfound, fun t ht => hseam old hold t ?_⟩
    rw [hsplit]
    exact List.mem_append_left _ ht
  obtain ⟨new, hnew, hlexemes⟩ := lexemes_apply hold hreplaces
  refine ⟨old, new, hold, hnew, fun e he => ?_, hlexemes⟩
  obtain ⟨before, inside, after, hsplit, hinside⟩ := hreplaces e he
  exact ⟨before, inside, after, hsplit, hinside.spans⟩

/-! ## The rules -/

theorem tree_ofText {path text : String} {m : Module} (h : parse text = .ok m) :
    (SourceUnit.ofText path text).tree = some m := by
  rw [SourceUnit.ofText, h]
  rfl

theorem mem_calls_of_callsTo {path text constructor : String} {m : Module}
    (hparse : parse text = .ok m) {call : Call}
    (h : call ∈ (SourceUnit.ofText path text).callsTo constructor) : call ∈ m.calls := by
  rw [SourceUnit.callsTo, tree_ofText hparse] at h
  exact (List.mem_filter.mp h).1

theorem exists_call_of_stepActions {path text : String} {m : Module} (hparse : parse text = .ok m)
    {s : StepAction} (hs : s ∈ stepActions (.ofText path text)) :
    s.call ∈ m.calls ∧ ∃ uses, s.call.keyword? "uses" = some uses ∧ s.literal = uses.span := by
  obtain ⟨call, hcall, hstep⟩ := List.mem_filterMap.mp hs
  simp only [Option.bind_eq_bind, Option.bind_eq_some_iff] at hstep
  obtain ⟨uses, huses, reference, -, heq⟩ := hstep
  cases heq
  exact ⟨mem_calls_of_callsTo hparse hcall, uses, huses, rfl⟩

theorem wrapperEdits_ofNode {path text : String} {m : Module} (hparse : parse text = .ok m) :
    ∀ e ∈ (wrapperEdits (.ofText path text)).accepted text,
      ∃ c, isQuote c = false ∧ OfNode m e c := by
  refine EditBuffer.accepted_foldl (fun b s hs => ?_) text
  obtain ⟨hcall, -⟩ := exists_call_of_stepActions hparse hs
  cases hreplacement : replacement? s with
  | none => exact .inl rfl
  | some wrapper =>
    refine .inr ⟨_, ?_, rfl⟩
    have hwrapper : ∃ action, Action.wrapper? action = some wrapper := by
      simp only [replacement?, Option.bind_eq_bind, Option.bind_eq_some_iff] at hreplacement
      obtain ⟨⟨action, ref⟩, -, hlookup⟩ := hreplacement
      dsimp only at hlookup
      split at hlookup
      · exact ⟨action, hlookup⟩
      · cases hlookup
    obtain ⟨action, hwrapper⟩ := hwrapper
    obtain ⟨c, hc, hsteady⟩ := isSteady_call (isNameText_of_wrapper? hwrapper)
    exact ⟨c, hc, ⟨_, exists_node_of_mem_calls hcall, rfl⟩, hsteady⟩

theorem secretEdits_ofNode {path text : String} {m : Module} (hparse : parse text = .ok m) :
    ∀ e ∈ (secretEdits (.ofText path text)).accepted text,
      ∃ c, isQuote c = false ∧ OfNode m e c := by
  refine EditBuffer.accepted_foldl (fun b secret hsecret => ?_) text
  obtain ⟨literal, name, whole⟩ := secret
  cases whole with
  | false => exact .inl rfl
  | true =>
    refine .inr ⟨_, ?_, rfl⟩
    obtain ⟨⟨s, value⟩, hliteral, hname⟩ := List.mem_filterMap.mp hsecret
    obtain ⟨⟨name', whole⟩, hexpression, heq⟩ := Option.map_eq_some_iff.mp hname
    cases heq
    rw [SourceUnit.stringLiterals, tree_ofText hparse] at hliteral
    obtain ⟨v, hv, hstring⟩ := List.mem_filterMap.mp hliteral
    obtain ⟨value', -, heq⟩ := Option.map_eq_some_iff.mp hstring
    cases heq
    obtain ⟨hne, hword⟩ := isWord_of_secretExpression? hexpression
    exact ⟨'S', by decide, ⟨v, hv, rfl⟩, isSteady_secret hne hword⟩

/-- Whether what stops where a span starts is an operator. -/
def AfterOperator (text : String) (s : Span) : Prop :=
  ∀ ts, tokenize text = .ok ts → ∀ t ∈ ts, t.span.stop = s.start → t.kind = .op

/-- The value of a keyword argument is a node after an operator. -/
theorem ofNode_keyword {text : String} {m : Module} (hparse : parse text = .ok m) {call : Call}
    (hcall : call ∈ m.calls) {name : String} {value : Expr}
    (hvalue : call.keyword? name = some value) {replacement : String} {c : Char}
    (hword : IsSteady replacement c) :
    OfNode m ⟨value.span, replacement⟩ c ∧ AfterOperator text value.span := by
  obtain ⟨k, -, -, hmem⟩ := keyword_mem_expressions hcall hvalue
  exact ⟨⟨⟨value, hmem, rfl⟩, hword⟩,
    fun ts hts t ht hstop => kind_before_keyword hparse hts hcall hvalue ht hstop⟩

theorem isNameText_of_statusFunction {function : String} (h : function ∈ Text.statusFunctions) :
    isNameText function.toList = true := by
  have hall : ∀ f ∈ Text.statusFunctions, isNameText f.toList = true := by decide +kernel
  exact hall function h

/-- A condition is the value of a keyword argument of a call of the script. -/
theorem call_of_conditions {path text : String} {m : Module} (hparse : parse text = .ok m)
    {call : Call} {condition : Expr} (h : (call, condition) ∈ conditions (.ofText path text)) :
    call ∈ m.calls ∧ call.keyword? "if_" = some condition := by
  rw [conditions, sortOn, (perm_sortBy _ _).mem_iff] at h
  obtain ⟨call', hcall, hif⟩ := List.mem_filterMap.mp h
  obtain ⟨value, hvalue, heq⟩ := Option.map_eq_some_iff.mp hif
  cases heq
  exact ⟨(List.mem_append.mp hcall).elim (mem_calls_of_callsTo hparse)
    (mem_calls_of_callsTo hparse), hvalue⟩

theorem statusEdits_ofNode {path text : String} {m : Module} (hparse : parse text = .ok m) :
    ∀ e ∈ (statusEdits (.ofText path text)).accepted text,
      ∃ c, OfNode m e c ∧ AfterOperator text e.span := by
  refine EditBuffer.accepted_foldl (fun b status hstatus => ?_) text
  obtain ⟨call, literal, function, whole⟩ := status
  cases whole with
  | false => exact .inl rfl
  | true =>
    refine .inr ⟨_, ?_, rfl⟩
    obtain ⟨⟨call', condition⟩, hcondition, hfound⟩ := List.mem_filterMap.mp hstatus
    simp only [Option.bind_eq_bind, Option.bind_eq_some_iff] at hfound
    obtain ⟨value, -, ⟨function', whole'⟩, hexpression, heq⟩ := hfound
    cases heq
    obtain ⟨hcall, hvalue⟩ := call_of_conditions hparse hcondition
    obtain ⟨c, -, hsteady⟩ :=
      isSteady_call (isNameText_of_statusFunction (mem_of_statusExpression? hexpression))
    exact ⟨c, ofNode_keyword hparse hcall hvalue hsteady⟩

theorem pinEdits_ofNode {path text : String} {m : Module} (hparse : parse text = .ok m) :
    ∀ e ∈ (pinEdits (.ofText path text)).accepted text,
      ∃ c, OfNode m e c ∧ AfterOperator text e.span := by
  refine EditBuffer.accepted_foldl (fun b s hs => ?_) text
  obtain ⟨hcall, uses, huses, hliteral⟩ := exists_call_of_stepActions hparse hs
  dsimp only
  split
  case h_1 version hpin hversion =>
    refine .inr ⟨_, ?_, rfl⟩
    obtain ⟨quote, hquote, hq⟩ : ∃ q, isQuote q = true ∧
        quoteOf (s.literal.slice (SourceUnit.ofText path text).text) = String.singleton q := by
      unfold quoteOf
      split
      · exact ⟨'\'', by decide, rfl⟩
      · exact ⟨'"', by decide, rfl⟩
    have hsteady := isSteady_literal hquote (by simp [String.toList_append])
      (plain_of_version? hquote hversion)
    rw [hq, hliteral]
    refine ⟨quote, ofNode_keyword hparse hcall huses ?_⟩
    simpa only [String.append_assoc] using hsteady
  case h_2 => exact .inl rfl

/-- The rules that rewrite in place, each with its edits. -/
def inPlace : List (Rule SourceUnit × (SourceUnit → EditBuffer)) :=
  [(typedWrappers, wrapperEdits), (conditionBuilders, statusEdits), (secretsContext, secretEdits),
    (unpinnedActions, pinEdits)]

theorem source_of_applyEdits {evaluate : SourceUnit → List Violation} {u : SourceUnit}
    {edits : EditBuffer} (h : 1 ≤ (applyEdits evaluate u edits).applied) :
    (applyEdits evaluate u edits).source = (edits.apply u.text).1 := by
  unfold applyEdits at h ⊢
  split at h
  · simp [unchanged] at h
  · rename_i hempty
    rw [if_neg hempty]
    dsimp only at h ⊢
    split at h
    · rename_i hparses
      rw [if_pos hparses]
    · simp [unchanged] at h

/-- A rewrite in place changes the tokens of the spans that it rewrites to those of their new
    texts, and no others. For rules that replace more than arguments, no name or number may
    stand directly before such a span. -/
theorem inPlace_lexemes {rule : Rule SourceUnit} {edits : SourceUnit → EditBuffer}
    (hrule : (rule, edits) ∈ inPlace) {path text : String} {m : Module}
    (hparse : parse text = .ok m) {fix : SourceUnit → FixOutcome} (hfix : rule.fix? = some fix)
    (hused : 1 ≤ (fix (.ofText path text)).applied)
    (hseam : rule.id = "WAG001" ∨ rule.id = "WAG003" → ∀ ts, tokenize text = .ok ts →
      ∀ r ∈ (edits (.ofText path text)).accepted text, ∀ t ∈ ts, t.span.stop = r.span.start →
        t.kind ≠ .name ∧ t.kind ≠ .number) :
    ∃ old new, tokenize text = .ok old ∧
      tokenize (fix (.ofText path text)).source = .ok new ∧
      (∀ r ∈ (edits (.ofText path text)).accepted text, ∃ before inside after,
        old = before ++ (inside ++ after) ∧ Spans inside r.span) ∧
      new.map Token.lexeme = rewriteLexemes old ((edits (.ofText path text)).accepted text) := by
  have hletter : ∀ {kind : TokenKind} {c : Char}, isQuote c = false → kind ≠ .name ∧ kind ≠ .number →
      (Piece.token kind).endsBefore c = true := by
    intro kind c hc hkind
    cases kind <;> simp [Piece.endsBefore, hc] at hkind ⊢
  have hop : ∀ {kind : TokenKind} {c : Char}, kind = .op → (Piece.token kind).endsBefore c = true := by
    rintro kind c rfl
    rfl
  have hedits : ∀ e ∈ (edits (.ofText path text)).accepted text, ∃ c, OfNode m e c ∧
      ∀ ts, tokenize text = .ok ts → ∀ t ∈ ts, t.span.stop = e.span.start →
        (Piece.token t.kind).endsBefore c = true := by
    intro e he
    simp only [inPlace, List.mem_cons, Prod.mk.injEq, List.not_mem_nil, or_false] at hrule
    rcases hrule with ⟨rfl, rfl⟩ | ⟨rfl, rfl⟩ | ⟨rfl, rfl⟩ | ⟨rfl, rfl⟩
    · obtain ⟨c, hc, hnode⟩ := wrapperEdits_ofNode hparse e he
      exact ⟨c, hnode, fun ts hts t ht hstop =>
        hletter hc (hseam (.inl rfl) ts hts e he t ht hstop)⟩
    · obtain ⟨c, hnode, hafter⟩ := statusEdits_ofNode hparse e he
      exact ⟨c, hnode, fun ts hts t ht hstop => hop (hafter ts hts t ht hstop)⟩
    · obtain ⟨c, hc, hnode⟩ := secretEdits_ofNode hparse e he
      exact ⟨c, hnode, fun ts hts t ht hstop =>
        hletter hc (hseam (.inr rfl) ts hts e he t ht hstop)⟩
    · obtain ⟨c, hnode, hafter⟩ := pinEdits_ofNode hparse e he
      exact ⟨c, hnode, fun ts hts t ht hstop => hop (hafter ts hts t ht hstop)⟩
  have hsource : (fix (.ofText path text)).source = ((edits (.ofText path text)).apply text).1 := by
    have hshape : ∃ evaluate, fix = fun u => applyEdits evaluate u (edits u) := by
      simp only [inPlace, List.mem_cons, Prod.mk.injEq, List.not_mem_nil, or_false] at hrule
      rcases hrule with ⟨rfl, rfl⟩ | ⟨rfl, rfl⟩ | ⟨rfl, rfl⟩ | ⟨rfl, rfl⟩ <;> cases hfix <;>
        exact ⟨_, rfl⟩
    obtain ⟨evaluate, rfl⟩ := hshape
    exact source_of_applyEdits hused
  rw [hsource]
  exact lexemes_of_nodes hparse hedits

/-- A text with a secret that stands apart from the tokens before it. -/
def secretText : String := "x = \"$\x7b\x7b secrets.A \x7d\x7d\"\n"

theorem inPlace_lexemes_secretText :
    ∃ fix, secretsContext.fix? = some fix ∧ 1 ≤ (fix (.ofText "ci.py" secretText)).applied ∧
      ∃ old new, tokenize secretText = .ok old ∧
        tokenize (fix (.ofText "ci.py" secretText)).source = .ok new ∧
        (∀ r ∈ (secretEdits (.ofText "ci.py" secretText)).accepted secretText,
          ∃ before inside after, old = before ++ (inside ++ after) ∧ Spans inside r.span) ∧
        new.map Token.lexeme =
          rewriteLexemes old ((secretEdits (.ofText "ci.py" secretText)).accepted secretText) := by
  have hparses : (parse secretText).isOk = true := by decide +kernel
  have hfixes : secretsContext.fix?.any
      (fun fix => decide (1 ≤ (fix (.ofText "ci.py" secretText)).applied)) = true := by
    decide +kernel
  have hapart : (tokenize secretText).toOption.all (fun ts => decide
      (∀ r ∈ (secretEdits (.ofText "ci.py" secretText)).accepted secretText, ∀ t ∈ ts,
        t.span.stop = r.span.start → t.kind ≠ .name ∧ t.kind ≠ .number)) = true := by
    decide +kernel
  obtain ⟨m, hparse⟩ := exists_parse_of_isOk hparses
  obtain ⟨fix, hfix, hused⟩ := Option.any_eq_true _ _ |>.mp hfixes
  refine ⟨fix, hfix, of_decide_eq_true hused, ?_⟩
  refine inPlace_lexemes (by simp [inPlace]) hparse hfix (of_decide_eq_true hused) ?_
  intro _ ts hts
  rw [hts] at hapart
  exact of_decide_eq_true hapart

end Lint

end WorkflowAudit
