import WorkflowAudit.Proofs.Lint.InPlace
import WorkflowAudit.Proofs.Lint.Leftover

/-!
# Nothing that is queued is dropped

An edit is dropped when it is no range of the text or overlaps one before it. The rules here queue
no such edit. Strings are leaves of the tree, so two strings of a script cover nothing in common,
and the lines on which lifting binds new names begin outside everything that it takes out.
-/

namespace WorkflowAudit

/-! ## Accepting a whole queue -/

namespace EditBuffer

theorem accept_eq_of_apart {cs : List Char} {groups : List (List Edit)}
    (ranges : ∀ e ∈ groups.flatten, isRange cs e.span = true)
    (apart : groups.flatten.Pairwise Apart) :
    accept cs groups = (groups.flatten, groups.length) := by
  unfold accept
  induction groups using List.reverseRecOn with
  | nil => rfl
  | append_singleton groups group ih =>
    rw [List.flatten_append, List.flatten_singleton] at ranges apart
    obtain ⟨earlier, own, between⟩ := List.pairwise_append.mp apart
    have fits : (group.all fun e => isRange cs e.span) = true ∧ isFree groups.flatten group = true :=
      ⟨List.all_eq_true.mpr fun e he => ranges e (List.mem_append_right _ he),
        (isFree_iff _ _).mpr ⟨between, own⟩⟩
    rw [List.foldl_append, ih (fun e he => ranges e (List.mem_append_left _ he)) earlier,
      List.foldl_cons, List.foldl_nil]
    dsimp only
    rw [if_pos (Bool.and_eq_true_iff.mpr fits)]
    simp

theorem apart_insertion_iff {offset : Nat} {text : String} {e : Edit} :
    Apart (.insertion offset text) e ↔ e.span.stop ≤ offset ∨ offset ≤ e.span.start := by
  rw [Apart, Span.overlaps, Bool.and_eq_false_iff, decide_eq_false_iff_not, decide_eq_false_iff_not,
    Nat.not_lt, Nat.not_lt]
  rfl

/-- The groups that pushing one edit after another gives. -/
theorem groups_foldl_edits {α : Type} {add : EditBuffer → α → EditBuffer} {edit? : α → Option Edit}
    (adds : ∀ b a, (add b a).groups = b.groups ++ (edit? a).toList.map ([·])) (as : List α)
    (b : EditBuffer) :
    (as.foldl add b).groups = b.groups ++ (as.filterMap edit?).map ([·]) := by
  induction as generalizing b with
  | nil => simp
  | cons a as ih =>
    rw [List.foldl_cons, ih, adds, List.filterMap_cons, List.append_assoc]
    cases edit? a <;> rfl

/-- Whether a line begins behind a part of a text. -/
def EndsLine (cs : List Char) : Prop := cs = [] ∨ ∃ earlier, cs = earlier ++ ['\n']

theorem EndsLine.append {cs ds : List Char} (h : EndsLine ds) (first : ds = [] → EndsLine cs) :
    EndsLine (cs ++ ds) := by
  rcases h with rfl | ⟨earlier, rfl⟩
  · rw [List.append_nil]
    exact first rfl
  · exact .inr ⟨cs ++ earlier, (List.append_assoc _ _ _).symm⟩

theorem EndsLine.of_append {cs ds : List Char} (h : EndsLine (cs ++ ds)) : EndsLine ds := by
  rcases List.eq_nil_or_concat ds with rfl | ⟨ds, d, rfl⟩
  · exact .inl rfl
  · rcases h with none | ⟨earlier, line⟩
    · simp at none
    · rw [List.concat_eq_append, ← List.append_assoc] at line
      exact .inr ⟨ds, by rw [List.concat_eq_append, List.append_inj_right' line rfl]⟩

/-- An edit at the begin of a line is made at the begin of a line, if what is put directly before it
ends one. -/
theorem Splices.exists_inserted {offset : Nat} {cs out done front after : List Char} {es : List Edit}
    (h : Splices offset cs es out) (sofar : Text.byteLength done = offset)
    (split : done ++ cs = front ++ after) (begins : EndsLine front) {e : Edit} (member : e ∈ es)
    (place : Text.byteLength front = e.span.start)
    (lines : ∀ f ∈ es, f.span.stop = e.span.start → ∃ line, f.text.toList = line ++ ['\n']) :
    ∃ before behind, out = before ++ (e.text.toList ++ behind) ∧ EndsLine before ∧
      (before = [] → offset = e.span.start) := by
  induction h generalizing done with
  | done => cases member
  | @edit offset f es untouched inside rest out hstart hstop hrest ih =>
    have behind : Text.byteLength (done ++ (untouched ++ inside)) = f.span.stop := by
      rw [Text.byteLength_append, Text.byteLength_append, sofar, hstop, hstart, Nat.add_assoc]
    by_cases first : e = f
    · subst first
      have same : Text.byteLength (done ++ untouched) = Text.byteLength front := by
        rw [Text.byteLength_append, sofar, place, hstart]
      obtain ⟨rfl, -⟩ := Text.append_inj_of_byteLength_eq
        ((List.append_assoc _ _ _).trans split) same
      refine ⟨untouched, out, rfl, begins.of_append, ?_⟩
      rintro rfl
      simpa using hstart.symm
    · have later := (List.mem_cons.mp member).resolve_left first
      obtain ⟨before, behind', rfl, line, start⟩ := ih behind (by simpa using split) later
        fun g hg => lines g (List.mem_cons_of_mem _ hg)
      refine ⟨untouched ++ (f.text.toList ++ before), behind', by simp, ?_, fun none => ?_⟩
      · rw [← List.append_assoc]
        refine line.append fun none => ?_
        obtain ⟨own, ends⟩ := lines f List.mem_cons_self (start none)
        exact .inr ⟨untouched ++ own, by rw [ends, List.append_assoc]⟩
      · obtain ⟨-, none, empty⟩ : untouched = [] ∧ f.text.toList = [] ∧ before = [] := by
          simpa using none
        obtain ⟨own, ends⟩ := lines f List.mem_cons_self (start empty)
        simp [none] at ends

end EditBuffer

namespace Lint

open Script EditBuffer

variable {text path : String} {m : Module}

/-! ## Strings of a script -/

/-- String arguments of two calls are apart. -/
def StringsApart (c c' : Call) : Prop :=
  ∀ name name' value value', c.keyword? name = some value → c'.keyword? name' = some value' →
    value.asString?.isSome = true → value'.asString?.isSome = true →
    (Node.expression value).Apart (.expression value')

theorem StringsApart.symm {c c' : Call} (h : StringsApart c c') : StringsApart c' c :=
  fun name name' value value' found found' string string' =>
    (h name' name value' value found' found string' string).symm

/-- Nothing is inside a string. -/
theorem not_reached_of_asString? {e : Expr} {v : Script.Node} (string : e.asString?.isSome = true) :
    ¬Node.Reached (Node.expression e).children v := by
  cases e with
  | literal => exact Node.not_reached_nil v
  | _ => cases string

theorem stringsApart_of_follows {fits : Span → Prop} {c c' : Call}
    (tidy : (Node.expression (Extraction.node c)).Tidy fits)
    (tidy' : (Node.expression (Extraction.node c')).Tidy fits)
    (h : (Extraction.node c).Follows (Extraction.node c')) : StringsApart c c' := by
  intro name name' value value' found found' string string'
  have within : ∀ {c : Call} {name : String} {value : Expr},
      (Node.expression (Extraction.node c)).Tidy fits → c.keyword? name = some value →
      (Extraction.node c).span.contains value.span = true := by
    intro c name value tidy found
    obtain ⟨k, member, rfl⟩ := Extraction.argument_of_keyword? found
    exact (tidy.reached (Node.reached_singleton.mpr (.inr (Node.reached_iff.mpr
      ⟨_, member, .inr (Node.reached_singleton.mpr (.inl rfl))⟩)))).2
  rcases h with inside | apart
  · rcases Extraction.inside_keyword_or_apart tidy found inside nofun with reached | apart
    · rcases Node.reached_singleton.mp reached with same | reached
      · obtain rfl : Extraction.node c' = value := by simpa using same
        cases string
      · exact absurd reached (not_reached_of_asString? string)
    · exact apart.mono (Node.contains_self _) (within tidy' found')
  · exact apart.mono (within tidy found) (within tidy' found')

theorem tidy_expression {fits : Span → Prop}
    (tidy : ∀ n ∈ m.body.map Node.statement, n.Tidy fits) {e : Expr} (member : e ∈ m.expressions) :
    (Node.expression e).Tidy fits := by
  obtain ⟨place, found⟩ := Module.exists_path_of_mem_expressions member
  exact Node.tidy_of_among? tidy found

theorem pairwise_calls (parsed : parse text = .ok m) : m.calls.Pairwise StringsApart := by
  obtain ⟨tokens, -, -, tidy, apart⟩ := tidy_of_parse parsed
  refine List.pairwise_filterMap.mpr ((pairwise_expressions tidy apart).imp_of_mem ?_)
  intro e f he hf follows c called c' called'
  have neat := tidy_expression tidy he
  have neat' := tidy_expression tidy hf
  rw [Extraction.eq_node_of_asCall? called] at follows neat
  rw [Extraction.eq_node_of_asCall? called'] at follows neat'
  exact stringsApart_of_follows neat neat' follows

/-- Every node of a script is a range of its text. -/
theorem isRange_of_at? (parsed : parse text = .ok m) {place : List Nat} {v : Script.Node}
    (found : m.at? place = some v) : isRange text.toList v.span = true := by
  obtain ⟨tokens, read, -, tidy, -⟩ := tidy_of_parse parsed
  obtain ⟨inside, slice, -⟩ := (lexed_of_tokenize read).filled (bounds_of_at? tidy found)
  rw [isRange, slice]
  rfl

theorem isRange_of_mem_expressions (parsed : parse text = .ok m) {e : Expr}
    (member : e ∈ m.expressions) : isRange text.toList e.span = true := by
  obtain ⟨place, found⟩ := Module.exists_path_of_mem_expressions member
  exact isRange_of_at? parsed found

/-! ## Queues of the rules -/

/-- Whether every queued group is made. -/
def Whole (text : String) (edits : EditBuffer) : Prop :=
  accept text.toList edits.groups = (edits.groups.flatten, edits.size)

/-- A queue of single edits, one for each of some nodes that are apart. -/
theorem whole_of_single {α : Type} (place : α → Span) (edit? : α → Option Edit)
    {add : EditBuffer → α → EditBuffer} {as : List α}
    (adds : ∀ b a, (add b a).groups = b.groups ++ (edit? a).toList.map ([·]))
    (places : ∀ a e, edit? a = some e → e.span = place a)
    (ranges : ∀ a ∈ as, isRange text.toList (place a) = true)
    (apart : as.Pairwise fun a b => (place a).overlaps (place b) = false) :
    Whole text (as.foldl add .empty) := by
  have single : ∀ es : List Edit, (es.map ([·])).flatten = es := by
    simp [← List.flatMap_def]
  have groups := groups_foldl_edits adds as .empty
  rw [show EditBuffer.empty.groups = [] from rfl, List.nil_append] at groups
  refine accept_eq_of_apart ?_ ?_
  · rw [groups, single]
    intro e he
    obtain ⟨a, ha, found⟩ := List.mem_filterMap.mp he
    rw [places a e found]
    exact ranges a ha
  · rw [groups, single]
    refine List.pairwise_filterMap.mpr (apart.imp fun {a b} apart e found f found' => ?_)
    rw [Apart, places a e found, places b f found']
    exact apart

def secretEdit? : Span × String × Bool → Option Edit
  | (literal, name, true) => some ⟨literal, "Secrets.get(\"" ++ name ++ "\")"⟩
  | (_, _, false) => none

theorem whole_secretEdits (parsed : parse text = .ok m) :
    Whole text (secretEdits (.ofText path text)) := by
  have literals : (SourceUnit.ofText path text).stringLiterals =
      m.expressions.filterMap fun e => e.asString?.map fun s => (e.span, s) := by
    rw [SourceUnit.stringLiterals, tree_ofText parsed]
  have origin : ∀ {p : Span × String} {s : Span × String × Bool},
      ((Text.secretExpression? p.2).map fun r => (p.1, r)) = some s →
      s.1 = p.1 := by
    intro p s found
    obtain ⟨_, -, rfl⟩ := Option.map_eq_some_iff.mp found
    rfl
  have string : ∀ {e : Expr} {p : Span × String},
      (e.asString?.map fun s => (e.span, s)) = some p → e.asString?.isSome = true ∧ p.1 = e.span := by
    intro e p found
    obtain ⟨s, written, rfl⟩ := Option.map_eq_some_iff.mp found
    exact ⟨by rw [written]; rfl, rfl⟩
  refine whole_of_single Prod.fst secretEdit? ?adds ?places ?ranges ?apart
  case adds =>
    rintro b ⟨literal, name, _ | _⟩ <;> simp [EditBuffer.push, pushGroup, secretEdit?]
  case places =>
    rintro ⟨literal, name, _ | _⟩ e found <;> cases found
    rfl
  case ranges =>
    intro s hs
    obtain ⟨p, hp, found⟩ := List.mem_filterMap.mp hs
    rw [literals] at hp
    obtain ⟨e, he, found'⟩ := List.mem_filterMap.mp hp
    rw [origin found, (string found').2]
    exact isRange_of_mem_expressions parsed he
  case apart =>
    rw [secretLiterals, literals]
    obtain ⟨tokens, -, -, tidy, apart⟩ := tidy_of_parse parsed
    refine List.pairwise_filterMap.mpr (List.pairwise_filterMap.mpr
      ((pairwise_expressions tidy apart).imp ?_))
    intro e f follows p found q found' s named t named'
    rw [origin named, origin named', (string found).2, (string found').2]
    exact follows.resolve_left (not_reached_of_asString? (string found).1)

/-- The strings that some calls have as arguments are ranges and apart. -/
theorem strings_of_calls {α : Type} (parsed : parse text = .ok m) {calls : List Call}
    (found? : Call → Option α) (place : α → Span) (members : ∀ c ∈ calls, c ∈ m.calls)
    (apart : calls.Pairwise StringsApart)
    (argument : ∀ c a, found? c = some a → ∃ name value, c.keyword? name = some value ∧
      value.asString?.isSome = true ∧ place a = value.span) :
    (∀ a ∈ calls.filterMap found?, isRange text.toList (place a) = true) ∧
      (calls.filterMap found?).Pairwise fun a b => (place a).overlaps (place b) = false := by
  constructor
  · intro a ha
    obtain ⟨c, hc, found⟩ := List.mem_filterMap.mp ha
    obtain ⟨name, value, held, -, here⟩ := argument c a found
    obtain ⟨-, -, -, member⟩ := keyword_mem_expressions (members c hc) held
    rw [here]
    exact isRange_of_mem_expressions parsed member
  · refine List.pairwise_filterMap.mpr (apart.imp fun {c c'} apart a found b found' => ?_)
    obtain ⟨name, value, held, string, here⟩ := argument c a found
    obtain ⟨name', value', held', string', here'⟩ := argument c' b found'
    rw [here, here']
    exact apart name name' value value' held held' string string'

theorem pairwise_callsTo (parsed : parse text = .ok m) (constructor : String) :
    ((SourceUnit.ofText path text).callsTo constructor).Pairwise StringsApart := by
  rw [SourceUnit.callsTo, tree_ofText parsed]
  exact (pairwise_calls parsed).filter _

def pinEdit? (text : String) (s : StepAction) : Option Edit :=
  match Action.pin s.reference, Action.version? s.reference with
  | .unpinned, some version =>
    let quote := quoteOf (s.literal.slice text)
    some ⟨s.literal, quote ++ s.reference ++ "@" ++ version ++ quote⟩
  | _, _ => none

theorem whole_pinEdits (parsed : parse text = .ok m) :
    Whole text (pinEdits (.ofText path text)) := by
  have steps : ∀ c ∈ (SourceUnit.ofText path text).callsTo "Step", c ∈ m.calls :=
    fun c hc => mem_calls_of_callsTo parsed hc
  obtain ⟨ranges, apart⟩ := strings_of_calls parsed
    (fun call => do
      let uses ← call.keyword? "uses"
      some ⟨call, uses.span, ← uses.asString?⟩)
    StepAction.literal steps (pairwise_callsTo parsed "Step") <| by
      intro c s found
      simp only [Option.bind_eq_bind, Option.bind_eq_some_iff] at found
      obtain ⟨uses, held, reference, string, same⟩ := found
      cases same
      exact ⟨"uses", uses, held, by rw [string]; rfl, rfl⟩
  refine whole_of_single StepAction.literal (pinEdit? text) ?adds ?places ranges apart
  case adds =>
    intro b s
    cases pin : Action.pin s.reference <;> cases version : Action.version? s.reference <;>
      simp [pinEdit?, pin, version, EditBuffer.push, pushGroup, SourceUnit.ofText]
  case places =>
    intro s e found
    unfold pinEdit? at found
    split at found <;> cases found
    rfl

/-- The condition of a call that names a status function. -/
def statusCondition? (call : Call) : Option (Call × Span × String × Bool) :=
  ((call.keyword? "if_").map fun condition => (call, condition)).bind fun (call, condition) => do
    let (function, isWhole) ← Text.statusExpression? (← condition.asString?)
    some (call, condition.span, function, isWhole)

theorem statusConditions_perm (u : SourceUnit) :
    (statusConditions u).Perm ((u.callsTo "Step" ++ u.callsTo "Job").filterMap statusCondition?) := by
  unfold statusCondition?
  rw [← List.filterMap_filterMap]
  exact (perm_sortBy _ _).filterMap _

theorem pairwise_callsTo_or (parsed : parse text = .ok m) :
    ((SourceUnit.ofText path text).callsTo "Step" ++
      (SourceUnit.ofText path text).callsTo "Job").Pairwise StringsApart := by
  have symmetric : Std.Symm StringsApart := ⟨fun _ _ => StringsApart.symm⟩
  refine List.pairwise_append.mpr
    ⟨pairwise_callsTo parsed "Step", pairwise_callsTo parsed "Job", fun c hc c' hc' => ?_⟩
  refine (pairwise_calls parsed).forall (mem_calls_of_callsTo parsed hc)
    (mem_calls_of_callsTo parsed hc') ?_
  -- No call is one of both constructors.
  rintro rfl
  rw [SourceUnit.callsTo, tree_ofText parsed] at hc hc'
  have step := (List.mem_filter.mp hc).2
  have job := (List.mem_filter.mp hc').2
  rw [Call.isCallTo, beq_iff_eq] at step job
  rw [step] at job
  exact absurd (Option.some.inj job) (by decide)

def statusEdit? : Call × Span × String × Bool → Option Edit
  | (_, literal, function, true) => some ⟨literal, function ++ "()"⟩
  | (_, _, _, false) => none

theorem whole_statusEdits (parsed : parse text = .ok m) :
    Whole text (statusEdits (.ofText path text)) := by
  have members : ∀ c ∈ (SourceUnit.ofText path text).callsTo "Step" ++
      (SourceUnit.ofText path text).callsTo "Job", c ∈ m.calls :=
    List.forall_mem_append.mpr ⟨fun c hc => mem_calls_of_callsTo parsed hc,
      fun c hc => mem_calls_of_callsTo parsed hc⟩
  obtain ⟨ranges, apart⟩ := strings_of_calls parsed statusCondition? (fun s => s.2.1) members
    (pairwise_callsTo_or parsed) <| by
      intro c s found
      simp only [statusCondition?, Option.bind_eq_bind, Option.bind_eq_some_iff,
        Option.map_eq_some_iff] at found
      obtain ⟨_, ⟨condition, held, rfl⟩, value, string, _, -, same⟩ := found
      cases same
      exact ⟨"if_", condition, held, by rw [string]; rfl, rfl⟩
  have same := statusConditions_perm (.ofText path text)
  refine whole_of_single (fun s => s.2.1) statusEdit? ?adds ?places ?ranges ?apart
  case adds =>
    rintro b ⟨call, literal, function, _ | _⟩ <;> simp [EditBuffer.push, pushGroup, statusEdit?]
  case places =>
    rintro ⟨call, literal, function, _ | _⟩ e found <;> cases found
    rfl
  case ranges => exact fun s hs => ranges s (same.mem_iff.mp hs)
  case apart =>
    refine (same.pairwise_iff fun {s t} apart => ?_).mpr apart
    simp only [Span.overlaps, Bool.and_eq_false_iff] at apart ⊢
    exact apart.symm

/-! ## Queues of lifts -/

namespace Extraction

variable {x : Extraction} {s : Stmt} {call : Call} {target : Expr} {l l' : Lift}

/-- What is taken out of a statement stands in it. -/
theorem Liftable.exists_place (lifting : IsLifting x) (parsed : parse text = .ok m)
    (h : x.Liftable text m s call target) :
    (∃ place, m.at? place = some (.expression target)) ∧ s.span.contains target.span = true := by
  obtain ⟨tokens, -, -, tidy, -⟩ := tidy_of_parse parsed
  have member : Node.statement s ∈ m.body.map Node.statement := List.mem_map_of_mem h.member
  have row := TidyRow.exprs (tidy _ member)
  obtain ⟨-, visited⟩ := (pairwise_liftableCalls (x := x) row).2 call h.visited
  have around := around_of_isLifting lifting (row.reached visited) h.large
  have inside : Node.Reached (Node.statement s).children (.expression target) :=
    (visited.below around.inside).mono (List.subset_append_left _ _)
  exact ⟨Node.reached_iff.mpr ⟨_, member, .inr inside⟩,
    ((tidy _ member).reached (Node.reached_singleton.mpr (.inr inside))).2⟩

theorem Liftable.exists_statement (h : x.Liftable text m s call target) :
    ∃ place, m.at? place = some (.statement s) := by
  obtain ⟨i, hi⟩ := List.mem_iff_getElem?.mp h.member
  exact ⟨[i], Module.at?_of_body hi⟩

/-- The line of a node begins the text or follows a line feed. -/
theorem exists_front (parsed : parse text = .ok m) {place : List Nat} {v : Script.Node}
    (found : m.at? place = some v) :
    ∃ front rest, text.toList = front ++ rest ∧ EndsLine front ∧
      Text.byteLength front = m.lines.lineStart v.span.start := by
  obtain ⟨before, inside, after, split, start, -⟩ := isRange_iff.mp (isRange_of_at? parsed found)
  obtain ⟨front, line, rfl, -, begins, here⟩ := LineIndex.exists_line split
  refine ⟨front, line ++ (inside ++ after), by rw [split, List.append_assoc], begins, ?_⟩
  rw [lines_of_parse parsed, ← start, here]

/-- No line begins where a node stops. -/
theorem stop_ne_lineStart (parsed : parse text = .ok m) {place place' : List Nat} {v w : Script.Node}
    (found : m.at? place = some v) (found' : m.at? place' = some w) :
    v.span.stop ≠ m.lines.lineStart w.span.start := by
  intro same
  obtain ⟨front, rest, split, begins, start⟩ := exists_front parsed found'
  obtain ⟨tokens, read, -, tidy, -⟩ := tidy_of_parse parsed
  obtain ⟨_, -, u, hu, -, lexical, -, ends⟩ := bounds_of_at? tidy found
  obtain ⟨inside, slice, written⟩ := (lexed_of_tokenize read).sliced u hu
  obtain ⟨init, last, spelled, visible⟩ := Lexer.endsVisibly_of_tokenize read u hu lexical
  obtain rfl : inside = init ++ [last] := String.ofList_inj.mp ((written lexical).2.symm.trans spelled)
  obtain ⟨before, after, split', begin, stop⟩ := Text.slice?_eq_some_iff.mp slice
  have length : Text.byteLength (before ++ (init ++ [last])) = Text.byteLength front := by
    rw [Text.byteLength_append, begin, ← stop, start, ← same, ends]
  obtain ⟨rfl, -⟩ := Text.append_inj_of_byteLength_eq
    ((List.append_assoc _ _ _).trans (split'.symm.trans split)) length
  rcases begins with none | ⟨earlier, line⟩
  · simp at none
  · rw [← List.append_assoc] at line
    obtain rfl : last = '\n' := by simpa using List.append_inj_right' line rfl
    exact absurd visible (by decide)

/-- A line that binds a name is put beside all that is taken out. -/
theorem Liftable.offset_beside (lifting : IsLifting x) (parsed : parse text = .ok m)
    (h : x.Liftable text m l.statement l.call l.target)
    (h' : x.Liftable text m l'.statement l'.call l'.target) :
    l'.target.span.stop < l.offset m.lines ∨ l.offset m.lines ≤ l'.target.span.start := by
  obtain ⟨place, found⟩ := h.exists_statement
  obtain ⟨⟨place', found'⟩, -⟩ := h'.exists_place lifting parsed
  rcases stop_le_lineStart_or parsed h.member h.begins found' with before | behind
  · exact .inl (Nat.lt_of_le_of_ne before (stop_ne_lineStart parsed found' found))
  · exact .inr ((lineStart_le parsed found).trans behind)

theorem Liftable.targets_apart (lifting : IsLifting x) (parsed : parse text = .ok m)
    (h : x.Liftable text m l.statement l.call l.target)
    (h' : x.Liftable text m l'.statement l'.call l'.target)
    (apart : l.statement = l'.statement → ¬l.Meets l'.target) :
    l.target.span.overlaps l'.target.span = false := by
  by_cases same : l.statement = l'.statement
  · simpa [Lift.Meets] using apart same
  · obtain ⟨tokens, -, -, -, inTurn⟩ := tidy_of_parse parsed
    have symmetric : Std.Symm Node.Apart := ⟨fun _ _ => Node.Apart.symm⟩
    have statements : (Node.statement l.statement).Apart (.statement l'.statement) :=
      inTurn.forall (List.mem_map_of_mem h.member) (List.mem_map_of_mem h'.member)
        (by simpa using same)
    exact statements.mono (v := .expression l.target) (w := .expression l'.target)
      (h.exists_place lifting parsed).2 (h'.exists_place lifting parsed).2

/-- Of all edits of some lifts, each one is a range of the text and apart from the others. -/
theorem Lifts.edits_apart (lifting : IsLifting x) (parsed : parse text = .ok m) {lifts : List Lift}
    (h : x.Lifts text m lifts) :
    (∀ e ∈ (lifts.map (·.edits text m.lines)).flatten, isRange text.toList e.span = true) ∧
      (lifts.map (·.edits text m.lines)).flatten.Pairwise Apart := by
  have beside : ∀ l ∈ lifts, ∀ l' ∈ lifts,
      Apart (.insertion (l.offset m.lines) s!"{l.name} = {l.target.span.slice text}\n")
        ⟨l'.target.span, l'.name⟩ := by
    intro l hl l' hl'
    exact apart_insertion_iff.mpr (((h.liftable l hl).offset_beside lifting parsed
      (h.liftable l' hl')).imp_left Nat.le_of_lt)
  constructor
  · intro e he
    obtain ⟨group, hgroup, he⟩ := List.mem_flatten.mp he
    obtain ⟨l, hl, rfl⟩ := List.mem_map.mp hgroup
    obtain ⟨⟨place, found⟩, -⟩ := (h.liftable l hl).exists_place lifting parsed
    obtain ⟨place', found'⟩ := (h.liftable l hl).exists_statement
    obtain rfl | rfl : e = _ ∨ e = _ := by simpa [Lift.edits] using he
    · obtain ⟨front, rest, split, -, start⟩ := exists_front parsed found'
      exact isRange_iff.mpr ⟨front, [], rest, split, start, rfl⟩
    · exact isRange_of_at? parsed found
  · refine List.pairwise_flatten.mpr ⟨?_, List.pairwise_map.mpr (h.apart.imp_of_mem ?_)⟩
    · intro group hgroup
      obtain ⟨l, hl, rfl⟩ := List.mem_map.mp hgroup
      exact List.pairwise_pair.mpr (beside l hl l hl)
    · intro l r hl hr apart
      have targets := (h.liftable l hl).targets_apart lifting parsed (h.liftable r hr) apart
      have lines : Apart (.insertion (l.offset m.lines) s!"{l.name} = {l.target.span.slice text}\n")
          (.insertion (r.offset m.lines) s!"{r.name} = {r.target.span.slice text}\n") :=
        apart_insertion_iff.mpr (Nat.le_total _ _)
      simp only [Lift.edits, List.mem_cons, List.not_mem_nil, or_false, forall_eq_or_imp, forall_eq]
      exact ⟨⟨lines, beside l hl r hr⟩, (beside r hr l hl).symm, targets⟩

theorem whole_edits (lifting : IsLifting x) (parsed : parse text = .ok m) :
    Whole text (x.edits (.ofText path text)) := by
  obtain ⟨lifts, h, groups⟩ := exists_lifts x path parsed
  obtain ⟨ranges, apart⟩ := h.edits_apart lifting parsed
  rw [← groups] at ranges apart
  exact accept_eq_of_apart ranges apart

/-- Every name that is chosen is bound on a line of its own in the new text. -/
theorem exists_binding (lifting : IsLifting x) (parsed : parse text = .ok m) {name : String}
    (chosen : name ∈ x.reserved text m) :
    ∃ place target before after, m.at? place = some (.expression target) ∧ EndsLine before ∧
      ((x.edits (.ofText path text)).apply text).1.toList =
        before ++ (s!"{name} = {target.span.slice text}\n".toList ++ after) := by
  obtain ⟨lifts, h, groups, names⟩ := exists_lifts_reserved x path parsed
  rw [names] at chosen
  obtain ⟨l, hl, rfl⟩ := List.mem_map.mp chosen
  have whole : Whole text (x.edits (.ofText path text)) := whole_edits lifting parsed
  have made : ∀ e, e ∈ (x.edits (.ofText path text)).accepted text ↔
      ∃ l ∈ lifts, e ∈ l.edits text m.lines := by
    intro e
    rw [EditBuffer.accepted, (perm_sortBy _ _).mem_iff, whole, groups]
    simp
  obtain ⟨⟨place, found⟩, -⟩ := (h.liftable l hl).exists_place lifting parsed
  obtain ⟨place', found'⟩ := (h.liftable l hl).exists_statement
  obtain ⟨front, rest, split, line, start⟩ := exists_front parsed found'
  obtain ⟨before, after, inserted, begins, -⟩ :=
    (splices_apply (x.edits (.ofText path text)) text)
      |>.exists_inserted (show Text.byteLength [] = 0 from rfl) split line
      (e := .insertion (l.offset m.lines) s!"{l.name} = {l.target.span.slice text}\n")
      ((made _).mpr ⟨l, hl, List.mem_cons_self⟩) start <| by
        intro f hf touches
        obtain ⟨l', hl', hf⟩ := (made f).mp hf
        obtain rfl | rfl : f = _ ∨ f = _ := by simpa [Lift.edits] using hf
        · exact ⟨_, String.toList_append⟩
        · -- What is taken out does not stop where a line begins.
          obtain ⟨⟨place, found⟩, -⟩ := (h.liftable l' hl').exists_place lifting parsed
          have filled := start_lt_stop_of_parse parsed found
          have beside := (h.liftable l hl).offset_beside lifting parsed (h.liftable l' hl')
          simp only [Edit.insertion, Span.point, Script.Node.span] at touches filled
          omega
  exact ⟨place, l.target, before, after, found, begins, inserted⟩

end Extraction

/-! ## Fixes -/

/-- The rules that rewrite arguments and constants, each with its queue and with the names that it
means to bind. -/
inductive Rewrites :
    Rule SourceUnit → (SourceUnit → EditBuffer) → (String → Module → List String) → Prop
  | conditions : Rewrites conditionBuilders statusEdits fun _ _ => []
  | secrets : Rewrites secretsContext secretEdits fun _ _ => []
  | pins : Rewrites unpinnedActions pinEdits fun _ _ => []
  | lifting {x : Extraction} (lifting : x.IsLifting) : Rewrites x.rule x.edits x.reserved

variable {rule : Rule SourceUnit} {edits : SourceUnit → EditBuffer}
  {reserved : String → Module → List String}

theorem Rewrites.whole (h : Rewrites rule edits reserved) (parsed : parse text = .ok m) :
    Whole text (edits (.ofText path text)) := by
  cases h with
  | conditions => exact whole_statusEdits parsed
  | secrets => exact whole_secretEdits parsed
  | pins => exact whole_pinEdits parsed
  | lifting lifting => exact Extraction.whole_edits lifting parsed

theorem Rewrites.exists_fix (h : Rewrites rule edits reserved) :
    ∃ evaluate, rule.fix? = some fun u => applyEdits evaluate u (edits u) := by
  cases h <;> exact ⟨_, rfl⟩

/-- A fix that makes all queued groups, or gives up. -/
theorem applyEdits_of_whole {evaluate : SourceUnit → List Violation} {b : EditBuffer}
    (parsed : parse text = .ok m) (whole : Whole text b) :
    let outcome := applyEdits evaluate (.ofText path text) b
    (outcome.source, outcome.applied) =
      if (SourceUnit.ofText path (b.apply text).1).parses then ((b.apply text).1, b.size)
      else (text, 0) := by
  have count : (b.apply text).2 = b.size := congrArg Prod.snd whole
  unfold applyEdits
  split
  case isTrue empty =>
    obtain rfl : b = .empty := congrArg EditBuffer.mk (List.isEmpty_iff.mp empty)
    have same : EditBuffer.empty.apply text = (text, 0) := by
      simp [EditBuffer.apply, EditBuffer.empty, accept, sortBy, splice]
    rw [same, SourceUnit.parses, tree_ofText parsed]
    rfl
  case isFalse =>
    rw [← count]
    have source : (SourceUnit.ofText path text).text = text := rfl
    have file : (SourceUnit.ofText path text).path = path := rfl
    simp only [source, file]
    split <;> rfl

/-- On a text that parses no queued group is dropped. So a fix makes them all, or none when the new
text does not parse, and each name that it means to bind gets a line of its own. -/
theorem fix_makes_whole_queue (h : Rewrites rule edits reserved) (parsed : parse text = .ok m) :
    accept text.toList (edits (.ofText path text)).groups =
      ((edits (.ofText path text)).groups.flatten, (edits (.ofText path text)).size) ∧
    (∃ fix, rule.fix? = some fix ∧
      ((fix (.ofText path text)).source, (fix (.ofText path text)).applied) =
        if (SourceUnit.ofText path ((edits (.ofText path text)).apply text).1).parses then
          (((edits (.ofText path text)).apply text).1, (edits (.ofText path text)).size)
        else (text, 0)) ∧
    ∀ name ∈ reserved text m, ∃ place target before after,
      m.at? place = some (.expression target) ∧ EndsLine before ∧
      ((edits (.ofText path text)).apply text).1.toList =
        before ++ (s!"{name} = {target.span.slice text}\n".toList ++ after) := by
  refine ⟨h.whole parsed, ?_, ?_⟩
  · obtain ⟨evaluate, fixes⟩ := h.exists_fix
    exact ⟨_, fixes, applyEdits_of_whole parsed (h.whole parsed)⟩
  · cases h with
    | lifting lifting => exact fun name chosen => Extraction.exists_binding lifting parsed chosen
    | conditions | secrets | pins => exact fun name chosen => absurd chosen List.not_mem_nil

/-- Two large environments in one statement. -/
def twiceText : String :=
  "[Step(env=\x7b'A': 1, 'B': 2, 'C': 3, 'D': 4\x7d), Step(env=\x7b'A': 5, 'B': 6, 'C': 7, 'D': 8\x7d)]\n"

theorem fix_makes_whole_queue_twiceText :
    ∃ m, parse twiceText = .ok m ∧
      accept twiceText.toList ((inlineEnv 3).edits (.ofText "ci.py" twiceText)).groups =
        (((inlineEnv 3).edits (.ofText "ci.py" twiceText)).groups.flatten,
          ((inlineEnv 3).edits (.ofText "ci.py" twiceText)).size) ∧
      (∃ fix, (inlineEnv 3).rule.fix? = some fix ∧
        ((fix (.ofText "ci.py" twiceText)).source, (fix (.ofText "ci.py" twiceText)).applied) =
          if (SourceUnit.ofText "ci.py"
            (((inlineEnv 3).edits (.ofText "ci.py" twiceText)).apply twiceText).1).parses then
            ((((inlineEnv 3).edits (.ofText "ci.py" twiceText)).apply twiceText).1,
              ((inlineEnv 3).edits (.ofText "ci.py" twiceText)).size)
          else (twiceText, 0)) ∧
      ∀ name ∈ (inlineEnv 3).reserved twiceText m, ∃ place target before after,
        m.at? place = some (.expression target) ∧ EndsLine before ∧
        (((inlineEnv 3).edits (.ofText "ci.py" twiceText)).apply twiceText).1.toList =
          before ++ (s!"{name} = {target.span.slice twiceText}\n".toList ++ after) := by
  have parses : (parse twiceText).isOk = true := by decide +kernel
  obtain ⟨m, parsed⟩ := exists_parse_of_isOk parses
  exact ⟨m, parsed, fix_makes_whole_queue (.lifting (.env 3)) parsed⟩

/-- Both are bound before it. -/
example : ((inlineEnv 3).edits (.ofText "ci.py" twiceText)).apply twiceText =
    ("step_env = \x7b'A': 1, 'B': 2, 'C': 3, 'D': 4\x7d\n" ++
      "step_env_2 = \x7b'A': 5, 'B': 6, 'C': 7, 'D': 8\x7d\n" ++
      "[Step(env=step_env), Step(env=step_env_2)]\n", 2) := by
  decide +kernel

end Lint

end WorkflowAudit
