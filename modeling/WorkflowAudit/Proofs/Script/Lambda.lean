import WorkflowAudit.Proofs.Script.Joining
import WorkflowAudit.Proofs.Script.Operand
import WorkflowAudit.Proofs.Script.Parser.Assignment

/-!
# The default value of a parameter

The parser skips the parameters of a lambda up to the first colon outside their brackets. An expression
as the default value of a parameter has no other such colon than those of lambdas, so it may also
stand in parentheses, unless a lambda stands outside its brackets: the colon of that one then ends
the parameters, its body is the body of the whole, and behind it stands a colon that nothing takes.
-/

namespace WorkflowAudit.Script

open Text

/-- A text that assigns a lambda with one parameter that has a default value. -/
def lambdaText (default body : String) : String := "x = lambda a=" ++ default ++ ": " ++ body

/-- The tokens between the word `lambda` of such a text and the colon. -/
def parameterTokens (ts : List Token) : List Token :=
  ⟨.name, ⟨11, 12⟩, "a"⟩ :: ⟨.op, ⟨12, 13⟩, "="⟩ :: ts.map (Token.shift 13)

/-- The tokens of such a text up to the colon, with a default value of `width` bytes. -/
def lambdaTokens (width : Nat) (ts : List Token) : List Token :=
  Parser.targetTokens ++ (⟨.name, ⟨4, 10⟩, "lambda"⟩ :: (parameterTokens ts ++ [.colon (width + 13)]))

/-! ## Tokens -/

namespace Lexer

/-- What stands before the default value is read in the same way whatever the value is. -/
theorem reads_lambdaHead {rest : List Char} (h : rest.head? ≠ some '=') :
    Reads ⟨.initial, 0, "x = lambda a=".toList ++ rest⟩ (Parser.targetTokens ++
        [⟨.name, ⟨4, 10⟩, "lambda"⟩, ⟨.name, ⟨11, 12⟩, "a"⟩, ⟨.op, ⟨12, 13⟩, "="⟩])
      ⟨⟨[], [], false, true⟩, 13, rest⟩ := by
  have hblank : ∀ offset cs, Reads ⟨⟨[], [], false, true⟩, offset, ' ' :: ([] ++ cs)⟩ []
      ⟨⟨[], [], false, true⟩, offset + 1, cs⟩ := fun offset cs => (Move.skip rfl rfl).reads
  have henter : Move ⟨.initial, 0, [] ++ ("x = lambda a=".toList ++ rest)⟩ []
      ⟨⟨[], [], false, false⟩, 0, "x = lambda a=".toList ++ rest⟩ := .enter rfl nofun rfl rfl
  have hx : Move ⟨⟨[], [], false, false⟩, 0, 'x' :: ([] ++ (" = lambda a=".toList ++ rest))⟩
      [⟨.name, ⟨0, 1⟩, "x"⟩] ⟨⟨[], [], false, true⟩, 1, " = lambda a=".toList ++ rest⟩ :=
    .token rfl rfl rfl
  have hequals : Move ⟨⟨[], [], false, true⟩, 2, '=' :: ([] ++ (" lambda a=".toList ++ rest))⟩
      [⟨.op, ⟨2, 3⟩, "="⟩] ⟨⟨[], [], false, true⟩, 3, " lambda a=".toList ++ rest⟩ :=
    .token rfl rfl rfl
  have hlambda : Move ⟨⟨[], [], false, true⟩, 4, 'l' :: ("ambda".toList ++ (" a=".toList ++ rest))⟩
      [⟨.name, ⟨4, 10⟩, "lambda"⟩] ⟨⟨[], [], false, true⟩, 10, " a=".toList ++ rest⟩ :=
    .token rfl rfl rfl
  have ha : Move ⟨⟨[], [], false, true⟩, 11, 'a' :: ([] ++ '=' :: rest)⟩
      [⟨.name, ⟨11, 12⟩, "a"⟩] ⟨⟨[], [], false, true⟩, 12, '=' :: rest⟩ :=
    .token rfl rfl rfl
  have hdefault : Move ⟨⟨[], [], false, true⟩, 12, '=' :: ([] ++ rest)⟩
      [⟨.op, ⟨12, 13⟩, "="⟩] ⟨⟨[], [], false, true⟩, 13, rest⟩ :=
    .token rfl (front_equals h) rfl
  exact (henter.reads.trans hx.reads).trans <| (hblank 1 _).trans <| hequals.reads.trans <|
    (hblank 3 _).trans <| hlambda.reads.trans <| (hblank 10 _).trans <| ha.reads.trans hdefault.reads

end Lexer

namespace Operand

open Lexer

variable {default : String} {ts : List Token}

/-- What is read of such a text up to its body. -/
theorem reads_lambda (h : Operand default ts) (body : String) :
    Reads ⟨.initial, 0, (lambdaText default body).toList⟩
      (lambdaTokens (byteLength default.toList) ts)
      ⟨⟨[], [], false, true⟩, byteLength default.toList + 15, body.toList⟩ := by
  have hdefault := (h.reads (' ' :: body.toList)).further 13
  have hcolon := IsLine.reads_colon [] true (byteLength default.toList + 13) body.toList
  have htext : (lambdaText default body).toList =
      "x = lambda a=".toList ++ (default.toList ++ ':' :: ' ' :: body.toList) := by simp [lambdaText]
  rw [htext]
  exact (reads_lambdaHead (h.begins (' ' :: body.toList))).trans (hdefault.trans hcolon)

/-- The tokens of such a text are those up to its body and those of the body. -/
theorem tokenize_lambda (h : Operand default ts) {body : String} {tokens : List Token} :
    tokenize (lambdaText default body) = .ok tokens ↔
      ∃ us, Completes ⟨⟨[], [], false, true⟩, 0, body.toList⟩ us ∧
        tokens = lambdaTokens (byteLength default.toList) ts ++
          us.map (Token.shift (byteLength default.toList + 15)) := by
  have hhead : (lambdaText default body).toList.head? ≠ some '\ufeff' := by simp [lambdaText]
  have htokenize : tokenize (lambdaText default body) =
      run .initial 0 (lambdaText default body).toList [] :=
    tokenize_eq_run (List.nil_append _).symm (.inl rfl) fun _ => hhead
  have hrun := (h.reads_lambda body).run_eq []
  dsimp only at hrun
  rw [htokenize, hrun, run_eq_ok_iff]
  simp

end Operand

/-! ## Another default value -/

/-- Where a byte stands when the default value gets another width. -/
def defaultPlace (width width' offset : Nat) : Nat :=
  if offset < width + 13 then min offset 13 else offset - width + width'

theorem defaultPlace_mono (width width' : Nat) : Monotone (defaultPlace width width') := by
  intro a b h
  unfold defaultPlace
  split <;> split <;> omega

theorem defaultPlace_of_lt (width width' : Nat) {offset : Nat} (h : offset < 13) :
    defaultPlace width width' offset = offset := by
  unfold defaultPlace
  split <;> omega

theorem defaultPlace_add (width width' offset : Nat) :
    defaultPlace width width' (width + (13 + offset)) = width' + (13 + offset) := by
  unfold defaultPlace
  split <;> omega

theorem moved_body (width width' : Nat) (us : List Token) :
    List.Forall₂ (Token.Moved (defaultPlace width width')) (us.map (Token.shift (width + 15)))
      (us.map (Token.shift (width' + 15))) := by
  have hplace : ∀ offset, defaultPlace width width' (offset + (width + 15)) = offset + (width' + 15) := by
    intro offset
    have := defaultPlace_add width width' (offset + 2)
    rwa [show width + (13 + (offset + 2)) = offset + (width + 15) by omega,
      show width' + (13 + (offset + 2)) = offset + (width' + 15) by omega] at this
  rw [List.forall₂_map_left_iff, List.forall₂_map_right_iff]
  refine List.forall₂_same.mpr fun t _ => ⟨rfl, rfl, fun _ => ?_⟩
  simp [Token.shift, Span.shift, Span.move, hplace]

/-- Behind the colon the two texts go on in the same way. -/
theorem embeds_body (width width' n n' : Nat) {us : List Token}
    (hlined : Lined (us.map (Token.shift (width + 15)))) :
    Cursor.Embeds ⟨defaultPlace width width', defaultPlace_mono width width', [], []⟩
      ⟨us.map (Token.shift (width + 15)), n, width + 14, 0⟩
      ⟨us.map (Token.shift (width' + 15)), n', width' + 14, 0⟩ := by
  refine .of_lined rfl (moved_body width width' us) (List.append_nil _).symm ?_ rfl hlined
  dsimp only
  rw [defaultPlace_of_lt width width' (show 0 < 13 by decide), Nat.max_zero]
  exact (defaultPlace_add width width' 1).symm

namespace Operand

variable {default : String} {ts : List Token}

theorem lexical_lambda (h : Operand default ts) (width : Nat) :
    ∀ t ∈ lambdaTokens width ts, t.kind.isLexical = true := by
  have hts : ∀ t ∈ ts.map (Token.shift 13), t.kind.isLexical = true :=
    List.forall_mem_map.mpr h.lexical
  simp only [lambdaTokens, parameterTokens, List.forall_mem_append, List.forall_mem_cons]
  exact ⟨by decide, rfl, ⟨rfl, rfl, hts⟩, rfl, List.forall_mem_nil _⟩

/-- What is left of a text that assigns a lambda when its parser begins. -/
theorem rest_lambda (h : Operand default ts) {us : List Token} {last : Token}
    (hlast : last.kind = .endMarker) (hus : ∀ t ∈ us, t.kind ≠ .endMarker) (width : Nat) :
    (Cursor.ofTokens (lambdaTokens width ts ++ (us ++ [last]))).rest = Parser.targetTokens ++
      ⟨.name, ⟨4, 10⟩, "lambda"⟩ :: (parameterTokens ts ++ .colon (width + 13) :: us) := by
  have hkinds : ∀ t ∈ lambdaTokens width ts ++ us, t.kind ≠ .endMarker :=
    List.forall_mem_append.mpr ⟨ne_of_lexical rfl (h.lexical_lambda width), hus⟩
  rw [← List.append_assoc, rest_ofTokens hlast hkinds]
  simp [lambdaTokens]

/-- A text that assigns a lambda is read from the body of the lambda on. -/
theorem runs_lambda (h : Operand default ts) (hskip : ts.foldlM skip? 0 = some 0)
    {us : List Token} {last : Token} (hlast : last.kind = .endMarker)
    (hus : ∀ t ∈ us, t.kind ≠ .endMarker) (width : Nat) :
    ∃ n, ∀ ss d, Parser.Runs (Parser.statements (Level.ofBudget levelLimit))
        (.ofTokens (lambdaTokens width ts ++ (us ++ [last]))) ss d ↔ ∃ line e rest,
      Parser.Runs (Parser.lambdaLine (Level.ofBudget levelLimit) 0 4 (.name ⟨0, 1⟩ "x"))
        ⟨us, n, width + 14, 0⟩ line e ∧
      Parser.Runs (Parser.statements (Level.ofBudget levelLimit)) e rest d ∧ ss = line ++ rest :=
  Parser.runs_statements_of_lambda (h.rest_lambda hlast hus width) rfl rfl rfl
    ((skip_shift 13 0 ts).trans hskip) rfl

/-- The tokens of the body before the end marker. -/
theorem exists_body (h : Operand default ts) {text : String} {us : List Token} {width n : Nat}
    (htokens : tokenize text = .ok (lambdaTokens width ts ++ us.map (Token.shift n))) :
    ∃ vs last, us = vs ++ [last] ∧ last.kind = .endMarker ∧ (∀ t ∈ vs, t.kind ≠ .endMarker) ∧
      Continues (vs.map (Token.shift n)) ∧ Lined (vs.map (Token.shift n)) ∧
      Ends 0 (vs.map (Token.shift n)) := by
  have hlexical := h.lexical_lambda width
  obtain ⟨init, last, hsplit, hlast, hinit, -, hlined, hends⟩ := exists_init_of_tokenize htokens
  rcases List.eq_nil_or_concat us with rfl | ⟨vs, v, rfl⟩
  · have hshape : lambdaTokens width ts = (Parser.targetTokens ++
        ⟨.name, ⟨4, 10⟩, "lambda"⟩ :: parameterTokens ts) ++ [.colon (width + 13)] := by
      simp [lambdaTokens]
    rw [List.map_nil, List.append_nil, hshape] at hsplit
    obtain ⟨-, hcolon⟩ := List.append_inj' hsplit rfl
    cases hlast.symm.trans (congrArg Token.kind (List.cons.inj hcolon).1.symm)
  · rw [List.concat_eq_append, List.map_append, ← List.append_assoc] at hsplit
    obtain ⟨rfl, hv⟩ := List.append_inj' hsplit rfl
    obtain rfl : v.shift n = last := by simpa using hv
    have hbegun : Continues (lambdaTokens width ts ++ vs.map (Token.shift n)) := .inl rfl
    have honLine := (hbegun.of_append hlined (ne_of_lexical rfl hlexical)).2
    refine ⟨vs, v, List.concat_eq_append, hlast, fun t ht => ?_, honLine, hlined.of_append,
      .of_append hends hlexical⟩
    exact hinit (t.shift n) (List.mem_append_right _ (List.mem_map_of_mem ht))

/-- The default value of a parameter may be another operand. -/
theorem parse_lambda {default' : String} {ts' : List Token} (h : Operand default ts)
    (hskip : ts.foldlM skip? 0 = some 0) (h' : Operand default' ts')
    (hskip' : ts'.foldlM skip? 0 = some 0) {body : String} {m : Module}
    (parsed : parse (lambdaText default body) = .ok m) :
    ∃ m', parse (lambdaText default' body) = .ok m' ∧ m'.body = m.body.map
      (Stmt.move (defaultPlace (byteLength default.toList) (byteLength default'.toList))) := by
  obtain ⟨tokens, d, htokens, hrun, -⟩ := parse_eq_ok_iff.mp parsed
  obtain ⟨us, hus, rfl⟩ := h.tokenize_lambda.mp htokens
  have htokens' := h'.tokenize_lambda.mpr ⟨us, hus, rfl⟩
  obtain ⟨vs, last, rfl, hlast, hvs, honLine, hlined, hends⟩ := h.exists_body htokens
  generalize byteLength default.toList = k at *
  generalize byteLength default'.toList = k' at *
  have hkinds : ∀ n, (last.shift n).kind = .endMarker ∧
      ∀ t ∈ vs.map (Token.shift n), t.kind ≠ .endMarker := fun n => ⟨hlast, List.forall_mem_map.mpr hvs⟩
  rw [List.map_append] at hrun htokens'
  obtain ⟨n, hall⟩ := h.runs_lambda hskip (hkinds (k + 15)).1 (hkinds (k + 15)).2 k
  obtain ⟨n', hall'⟩ := h'.runs_lambda hskip' (hkinds (k' + 15)).1 (hkinds (k' + 15)).2 k'
  obtain ⟨line, e, rest, hline, hrest, hbody⟩ := (hall _ _).mp hrun
  have honLine : Cursor.OnLine ⟨vs.map (Token.shift (k + 15)), n, k + 14, 0⟩ := honLine
  obtain ⟨e', hline', he, hends', -⟩ := Parser.carries_lambdaLine (Level.ofBudget_tracked levelLimit)
    (Level.ofBudget_outlined levelLimit) 0 4 (.name ⟨0, 1⟩ "x") rfl honLine
    (embeds_body k k' n n' hlined) hends hline
  obtain ⟨d', hd, hend, hmore⟩ := Parser.carries_statements rfl (Level.ofBudget_tracked levelLimit)
    (Level.suite_carries _ levelLimit) he hends' hrest
  have hnone := hmore [] d' ((Parser.runs_statements_nil hend).mpr ⟨rfl, rfl⟩)
  rw [List.append_nil] at hnone
  have hstays := fun offset => @defaultPlace_of_lt k k' offset
  simp only [Expr.move_name, Span.move, hstays 0 (by decide), hstays 1 (by decide),
    hstays 4 (by decide)] at hline'
  have hrun' := (hall' _ _).mpr ⟨_, e', _, hline', hnone, rfl⟩
  refine ⟨⟨_, _⟩, parse_eq_ok_iff.mpr ⟨_, d', htokens', hrun', rfl⟩, ?_⟩
  rw [hbody, List.map_append]

end Operand

/-! ## A lambda in the default value -/

/-- With a lambda outside the brackets of the default value the tokens up to the second colon already make
up an expression. -/
theorem follow?_lambda {ts : List Token} (hclear : Outline.follow? ⟨0, false⟩ ts = some ⟨0, false⟩)
    (hsome : standsOutside "lambda" 0 ts = true) : Outline.follow? ⟨0, false⟩
      (⟨.name, ⟨4, 10⟩, "lambda"⟩ :: parameterTokens ts) = some ⟨0, false⟩ :=
  (Outline.follow?_shift 13 ⟨0, true⟩ ts).trans (Outline.follow?_parameters hclear hsome)

namespace Operand

variable {default : String} {ts : List Token}

/-- What such a text assigns: tokens with the outline of an expression, and behind them one that only
comes behind an assigned value. -/
theorem exists_value (h : Operand default ts) {body : String} {m : Module}
    (parsed : parse (lambdaText default body) = .ok m) : ∃ us vs more,
      (⟨.name, ⟨4, 10⟩, "lambda"⟩ :: parameterTokens ts) ++
        .colon (byteLength default.toList + 13) :: us = vs ++ more ∧
      Outline.follow? ⟨0, false⟩ vs = some ⟨0, false⟩ ∧
      ∀ t ∈ more.head?, t.kind = .newline ∨ t.isAnyOp ["=", ";"] = true := by
  obtain ⟨tokens, d, htokens, hrun, -⟩ := parse_eq_ok_iff.mp parsed
  obtain ⟨us, -, rfl⟩ := h.tokenize_lambda.mp htokens
  obtain ⟨us, last, rfl, hlast, hus, -⟩ := h.exists_body htokens
  obtain ⟨hsettled, hzero⟩ := settled_of_tokenize htokens
  generalize byteLength default.toList = width at *
  have hkinds : ∀ t ∈ us.map (Token.shift (width + 15)), t.kind ≠ .endMarker :=
    List.forall_mem_map.mpr hus
  have hmarker : (last.shift (width + 15)).kind = .endMarker := hlast
  rw [List.map_append, List.map_singleton] at hrun hzero hsettled
  have hrest := h.rest_lambda hmarker hkinds width
  obtain ⟨n, hall⟩ := Parser.runs_statements_of_target hrest rfl rfl
  obtain ⟨value, c, line, e, rest, hvalue, hline, -, -⟩ := (hall _ _).mp hrun
  obtain ⟨vs, htook, hvs⟩ := Parser.outlines_yieldOrStar (Level.ofBudget_outlined levelLimit) hvalue
  have hsplit : (⟨.name, ⟨4, 10⟩, "lambda"⟩ :: parameterTokens ts) ++
      .colon (width + 13) :: us.map (Token.shift (width + 15)) = vs ++ c.rest := htook.rest
  refine ⟨_, vs, c.rest, hsplit, hvs.follows ?_, Parser.next_of_assignFrom hline fun t ht => ?_⟩
  · -- The value closes its brackets, as all tokens together do.
    have hshape : lambdaTokens width ts ++ (us.map (Token.shift (width + 15)) ++
        [last.shift (width + 15)]) =
          Parser.targetTokens ++ (vs ++ (c.rest ++ [last.shift (width + 15)])) := by
      rw [← List.append_assoc vs, ← hsplit]
      simp [lambdaTokens]
    rw [hshape] at hsettled hzero
    have hbefore := hvs.settled.balance_le
    have hbehind := hsettled.of_append.of_append.balance_le
    rw [balance_append, balance_append, show balance Parser.targetTokens = 0 from rfl] at hzero
    omega
  · have hmem : t ∈ (Cursor.ofTokens (lambdaTokens width ts ++
        (us.map (Token.shift (width + 15)) ++ [last.shift (width + 15)]))).rest := by
      rw [hrest, ← List.cons_append, hsplit]
      exact List.mem_append_right _ (List.mem_append_right _ ht)
    simpa using List.mem_takeWhile_imp hmem

/-- With a lambda outside the brackets of the default value the text does not parse: the value would end
before the second colon. -/
theorem standsOutside_of_parse (h : Operand default ts)
    (hclear : Outline.follow? ⟨0, false⟩ ts = some ⟨0, false⟩) {body : String} {m : Module}
    (parsed : parse (lambdaText default body) = .ok m) : standsOutside "lambda" 0 ts = false := by
  by_contra hsome
  obtain ⟨us, vs, more, hsplit, hvs, hmore⟩ := h.exists_value parsed
  have hcolon := Outline.follow?_unique (follow?_lambda hclear (by simpa using hsome)) hvs (.inr rfl)
    (fun t ht => (hmore t ht).imp_right (Token.isAnyOp_mono (by simp))) hsplit
  rw [hcolon] at hmore
  exact absurd (hmore _ rfl) (by simp [Token.colon, Token.isAnyOp])

end Operand

/-! ## Parentheses -/

/-- Where the default value of a parameter holds no lambda outside its brackets, it may be written in
parentheses and without them, with the same tree, and elsewhere it has to be in parentheses. -/
theorem parse_lambda_parens {default : String} {ts : List Token} (h : IsExpression default ts)
    (body : String) :
    ((∃ m, parse (lambdaText default body) = .ok m) ↔ standsOutside "lambda" 0 ts = false ∧
        ∃ m, parse (lambdaText ("(" ++ default ++ ")") body) = .ok m) ∧
      ∀ m m', parse (lambdaText default body) = .ok m →
        parse (lambdaText ("(" ++ default ++ ")") body) = .ok m' →
        m'.body = m.body.map (Stmt.move
          (defaultPlace (byteLength default.toList) (byteLength default.toList + 2))) := by
  have hskip := h.line.skip_parens (byteLength default.toList)
  have hto : ∀ {m}, parse (lambdaText default body) = .ok m →
      standsOutside "lambda" 0 ts = false ∧
        ∃ m', parse (lambdaText ("(" ++ default ++ ")") body) = .ok m' ∧
          m'.body = m.body.map (Stmt.move
            (defaultPlace (byteLength default.toList) (byteLength default.toList + 2))) := by
    intro m hparse
    have hnone := h.operand.standsOutside_of_parse h.follows hparse
    refine ⟨hnone, ?_⟩
    rw [← byteLength_parens]
    exact h.operand.parse_lambda (Outline.skip_of_follow? h.follows hnone) h.operand_parens hskip hparse
  refine ⟨⟨?_, ?_⟩, fun m m' hparse hparse' => ?_⟩
  · rintro ⟨m, hparse⟩
    obtain ⟨hnone, m', hparse', -⟩ := hto hparse
    exact ⟨hnone, m', hparse'⟩
  · rintro ⟨hnone, m', hparse'⟩
    obtain ⟨m, hparse, -⟩ := h.operand_parens.parse_lambda hskip h.operand
      (Outline.skip_of_follow? h.follows hnone) hparse'
    exact ⟨m, hparse⟩
  · obtain ⟨-, m'', hparse'', hbody⟩ := hto hparse
    obtain rfl := Except.ok.inj (hparse'.symm.trans hparse'')
    exact hbody

/-- A default value with colons in it, and a lambda, all between brackets. -/
def slicedDefault : String := "f(lambda: 0)[1:2]"

def slicedDefaultTokens : List Token :=
  [⟨.name, ⟨0, 1⟩, "f"⟩, ⟨.op, ⟨1, 2⟩, "("⟩, ⟨.name, ⟨2, 8⟩, "lambda"⟩, .colon 8,
    ⟨.number, ⟨10, 11⟩, "0"⟩, ⟨.op, ⟨11, 12⟩, ")"⟩, ⟨.op, ⟨12, 13⟩, "["⟩, ⟨.number, ⟨13, 14⟩, "1"⟩,
    .colon 14, ⟨.number, ⟨15, 16⟩, "2"⟩, ⟨.op, ⟨16, 17⟩, "]"⟩]

theorem parse_lambda_parens_slicedDefault : IsExpression slicedDefault slicedDefaultTokens ∧
    ∃ m m', parse (lambdaText slicedDefault "a, 1\n") = .ok m ∧
      parse (lambdaText ("(" ++ slicedDefault ++ ")") "a, 1\n") = .ok m' ∧
      m'.body = m.body.map (Stmt.move (defaultPlace 17 19)) := by
  have hexpression : IsExpression slicedDefault slicedDefaultTokens :=
    ⟨⟨by decide +kernel, by decide, ⟨_, _, rfl, rfl⟩⟩, by decide +kernel⟩
  have hbare : (parse (lambdaText slicedDefault "a, 1\n")).isOk = true := by decide +kernel
  obtain ⟨m, hm⟩ := exists_parse_of_isOk hbare
  obtain ⟨-, m', hm'⟩ := (parse_lambda_parens hexpression "a, 1\n").1.mp ⟨m, hm⟩
  exact ⟨hexpression, m, m', hm, hm', (parse_lambda_parens hexpression "a, 1\n").2 m m' hm hm'⟩

/-- The colon of a lambda in the default value ends the parameters, unless brackets hide it. -/
example : (parse (lambdaText "lambda: 1" "2\n")).isOk = false ∧
    (parse (lambdaText "(lambda: 1)" "2\n")).isOk = true := by decide +kernel

end WorkflowAudit.Script
