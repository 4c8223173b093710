/-
# Where a text is refused

The reader that goes by tokens says of a text that it refuses which parts it tried last, and
where.  The greedy grammar tries far more than the reader: a tuple before every name, a name
once more when a tuple has failed, a `?` where type arguments have failed.  All the same, the
place that the reader names is the furthest at which a rule of the grammar fails
(`furthestFailure_of_parse`).

The two are followed side by side through every type of the text (`typesBelow`).  The
induction is on the length of the rest, because a row of items is read by a repetition and
each item may have rows in it.
-/
import TypeNaming.Proofs.Grammar.Abreast

namespace TypeNaming.Signature

open Peg (Expr ParseTree Run)

/-! ## Brackets -/

section

variable {text inside : List Char} {missed : Missed} {frame : Frame} {outer : List Frame}

/-- Nothing of a row is tried where the text stops short. -/
def NoRow (tail : Expr Rule) : Prop :=
  ∀ cs, trim cs = cs → StopsShort cs → Run rules tail cs none ∧ ∀ there, ¬ Fails tail cs there

/-- A rule that opens a bracket: an item, and what follows it. -/
theorem bracketOutcome_of_item {name item : Rule} {bracket : Char} {tail : Expr Rule}
    (hatomic : name.isAtomic = false)
    (hbody : name.body = andThen (literal bracket) (andThen (.rule item) tail))
    (hshort : NoRow tail) (hsuffix : inside <:+ text)
    (htotal : ∃ outcome, Run rules (.rule item) (trim inside) outcome)
    (hfirst : ∃ there, Fails (.rule item) (trim inside) there)
    (hitem : ItemOutcome text item (frame :: outer) missed (trim inside))
    (htail : ∀ {rest token tokens after} (element : Element), rest <:+ trim inside →
      Head text (trim rest) token tokens → after.start ≤ offset text (trim rest) →
      BracketOutcome text outer (follow after tokens (stepAfter (frame :: outer) element token))
        after.start tail (trim rest)) :
    BracketOutcome text outer (readFrom ⟨frame :: outer, .atType⟩ missed (rowAt text inside))
      missed.start (.rule name) (bracket :: inside) := by
  have hopen : Run rules (literal bracket) (bracket :: inside) (some ([], inside)) :=
    run_literal_some_iff.mpr ⟨rfl, rfl⟩
  have hwhole : offset text (bracket :: inside) ≤ offset text (trim inside) :=
    offset_le ((trim_suffix inside).trans (List.suffix_cons bracket inside))
  have hnone (h : Run rules (andThen (.rule item) tail) (trim inside) none) :
      Run rules (.rule name) (bracket :: inside) none := by
    refine .ruleFail ?_
    rw [show rules.body name = _ from hbody]
    exact .seqSecond hopen (.seqSecond (run_blanks inside) h)
  have hfails (there : List Char) : Fails name.body (bracket :: inside) there ↔
      Fails (andThen (.rule item) tail) (trim inside) there := by
    rw [hbody, fails_literal_andThen]
  -- Where the rule fails as a whole is not further than its first item.
  have hstuck {after : Nat} {places : List Char → Prop}
      (hfurthest : Furthest text missed.start places after)
      (hplaces : ∀ there, Fails (andThen (.rule item) tail) (trim inside) there ↔ places there)
      (hle : offset text (trim inside) ≤ after) :
      Furthest text missed.start (Fails (.rule name) (bracket :: inside)) after := by
    refine hfurthest.more (fun there hthere => ?_) fun there hthere => ?_
    · exact fails_rule_iff.mpr (.inr ((hfails there).mpr ((hplaces there).mpr hthere)))
    · rcases fails_rule_iff.mp hthere with ⟨-, -, rfl⟩ | hthere
      · exact .inr (Nat.le_trans hwhole hle)
      · exact .inl ((hplaces there).mp ((hfails there).mp hthere))
  rw [← rowAt_trim hsuffix]
  cases hitem with
  | stuck refused hread hfurthest hstops =>
      have hle : offset text (trim inside) ≤ refused.start := hfurthest.offset_le hfirst
      obtain ⟨_ | ⟨trees, rest⟩, hrun⟩ := htotal
      · have hrun' := hnone (.seqFirst hrun)
        exact .stuck refused hread hrun'
          (hstuck hfurthest (fun there => fails_andThen_of_none hrun) hle)
      · obtain ⟨htail, hnowhere⟩ := hshort (trim rest) (trim_trim rest) (hstops trees rest hrun)
        have hrun' := hnone (.seqSecond hrun (.seqSecond (run_blanks rest) htail))
        refine .stuck refused hread hrun' (hstuck hfurthest (fun there => ?_) hle)
        rw [fails_andThen_of_some hrun]
        exact or_iff_left (hnowhere there)
  | taken trees rest element token tokens after hrun hhead hread hfurthest hafter hrest =>
      have hle : offset text (trim inside) ≤ after.start := hfurthest.offset_le hfirst
      rw [hread]
      cases htail element (hrun.suffix rfl) hhead hafter with
      | stuck refused hread hstop hfurther =>
          have hrun' := hnone (.seqSecond hrun (.seqSecond (run_blanks rest) hstop))
          have hall := hfurthest.append hfurther fun there => Iff.rfl
          exact .stuck refused hread hrun'
            (hstuck hall (fun there => fails_andThen_of_some hrun)
              (Nat.le_trans hle hfurther.le))
      | closed others rest' type last hclosed hread hfurther hlast hrest' =>
          have hbodyRun : Run rules name.body (bracket :: inside)
              (some ([] ++ (trees ++ others), rest')) := by
            rw [hbody]
            exact run_andThen_iff.mpr ⟨[], inside, _, hopen,
              run_andThen_iff.mpr ⟨trees, rest, others, hrun, hclosed, rfl⟩, rfl⟩
          have hsome : Run rules (.rule name) (bracket :: inside)
              (some ([.node name ([] ++ (trees ++ others))], rest')) := .node hatomic hbodyRun
          refine .closed _ rest' type last hsome hread
            (hfurthest.append hfurther fun there => ?_) hlast hrest'
          rw [fails_rule_iff, hfails, fails_andThen_of_some hrun]
          refine or_iff_right ?_
          rintro ⟨-, hrun', -⟩
          cases hrun'.unique hsome

theorem noRow_rowTail {item : Rule} {mark : Char} (h : Closes item mark frame) :
    NoRow (rowTail item mark) :=
  fun _ htrim hshort => ⟨row_stops htrim hshort.ne_comma (hshort.ne_mark h),
    fun _ => not_fails_row hshort.ne_comma⟩

theorem not_fails_row1 {item : Rule} {mark : Char} {cs there : List Char}
    (hcomma : cs.head? ≠ some ',') : ¬ Fails (rowTail1 item mark) cs there := by
  rw [rowTail1, fails_andThen_literal_iff, many1,
    fails_andThen_of_none (run_commaThen_none hcomma)]
  exact not_fails_commaThen hcomma

theorem noRow_rowTail1 (item : Rule) (mark : Char) : NoRow (rowTail1 item mark) :=
  fun _ _ hshort => ⟨run_rowTail1_of_none (run_commaThen_none hshort.ne_comma),
    fun _ => not_fails_row1 hshort.ne_comma⟩

/-- Every type that is shorter than the limit has an outcome. -/
def TypesBelow (text : List Char) (limit : Nat) : Prop :=
  ∀ {stack : List Frame} {cs : List Char} {missed : Missed}, cs.length < limit → cs <:+ text →
    trim cs = cs → missed.start ≤ offset text cs → TypeOutcome text stack missed cs

theorem TypesBelow.arguments {limit : Nat} (h : TypesBelow text limit) :
    ItemsBelow text .signature '>' outer limit := by
  intro frame cs missed hframe hlt hcs htrim hle
  cases hframe with
  | args path start read => exact (h hlt hcs htrim hle).argument

theorem TypesBelow.elements {limit : Nat} (h : TypesBelow text limit) :
    ItemsBelow text .element ')' outer limit := by
  intro frame cs missed hframe hlt hcs htrim hle
  cases hframe with
  | tuple start first read => exact (h hlt hcs htrim hle).element

/-- Type arguments, from their bracket on. -/
theorem bracketOutcome_typeArgs {limit : Nat} (htypes : TypesBelow text limit)
    (hlt : inside.length < limit) (hsuffix : inside <:+ text) (path : String) (start : Nat)
    (hle : missed.start ≤ offset text (trim inside)) :
    BracketOutcome text outer
      (readFrom ⟨.args path start [] :: outer, .atType⟩ missed (rowAt text inside))
      missed.start (.rule .typeArgs) ('<' :: inside) := by
  have hframe := Closes.args path start []
  have hshorter := Nat.lt_of_le_of_lt (length_trim_le inside) hlt
  have htrim := (trim_suffix inside).trans hsuffix
  refine bracketOutcome_of_item rfl rfl (noRow_rowTail hframe) hsuffix (hframe.total _)
    (exists_fails_signature _) (htypes hshorter htrim (trim_trim inside) hle).argument
    fun {rest} _ _ _ element hrest hhead hafter => ?_
  have hrest' := (trim_suffix rest).trans hrest
  exact bracketOutcome_row .greaterThan limit htypes.arguments element hframe
    (Nat.le_trans hrest'.length_le (Nat.le_of_lt hshorter)) (hrest'.trans htrim)
    (trim_trim rest) hhead hafter

/-- After its first element a tuple needs a comma. -/
theorem bracketOutcome_row1 {limit : Nat} (htypes : TypesBelow text limit) {cs : List Char}
    {token : Token} {row : List Token} {after : Missed} (start : Nat) (element : Element)
    (hlimit : cs.length ≤ limit) (hcs : cs <:+ text) (hhead : Head text cs token row)
    (hafter : after.start ≤ offset text cs) :
    BracketOutcome text outer
      (follow after row (stepAfter (.tuple start [] :: outer) element token))
      after.start (rowTail1 .element ')') cs := by
  by_cases hcomma : cs.head? = some ','
  · obtain ⟨inside, rfl⟩ : ∃ inside, cs = ',' :: inside :=
      ⟨cs.tail, (List.cons_head?_tail hcomma).symm⟩
    obtain ⟨rfl, rfl⟩ := hhead.of_mark .comma
    have hnext := Closes.tuple start element []
    have hinside : (trim inside).length < limit :=
      Nat.lt_of_lt_of_le (length_trim_lt ',' inside) hlimit
    have hwhole : trim inside <:+ ',' :: inside :=
      (trim_suffix inside).trans (List.suffix_cons ',' inside)
    have hitem : ItemOutcome text .element (.tuple start [element] :: outer) after (trim inside) :=
      (htypes hinside (hwhole.trans hcs) (trim_trim inside)
        (Nat.le_trans hafter (offset_le hwhole))).element
    refine bracketOutcome_comma isRow_rowTail1 hnext ((List.suffix_cons ',' inside).trans hcs)
      hitem fun {rest} _ _ _ element hrest hhead hlast => ?_
    have hrest' := (trim_suffix rest).trans hrest
    exact bracketOutcome_row .rightParen limit htypes.elements element hnext
      (Nat.le_trans hrest'.length_le (Nat.le_of_lt hinside)) (hrest'.trans (hwhole.trans hcs))
      (trim_trim rest) hhead hlast
  · have hstep : stepAfter (.tuple start [] :: outer) element token = .reject := by
      have hlexeme : token.lexeme ≠ .comma := mt (hhead.head?_eq_iff .comma).mpr hcomma
      obtain ⟨lexeme, span⟩ := token
      cases lexeme with
      | comma => exact absurd rfl hlexeme
      | _ => rfl
    rw [hstep, follow]
    exact .stuck after rfl (run_rowTail1_of_none (run_commaThen_none hcomma))
      (.nowhere fun _ => not_fails_row1 hcomma)

/-- A tuple, from its bracket on. -/
theorem bracketOutcome_tuple {limit : Nat} (htypes : TypesBelow text limit)
    (hlt : inside.length < limit) (hsuffix : inside <:+ text) (start : Nat)
    (hle : missed.start ≤ offset text (trim inside)) :
    BracketOutcome text outer
      (readFrom ⟨.tuple start [] :: outer, .atType⟩ missed (rowAt text inside))
      missed.start (.rule .tuple) ('(' :: inside) := by
  have hshorter := Nat.lt_of_le_of_lt (length_trim_le inside) hlt
  have htrim := (trim_suffix inside).trans hsuffix
  obtain ⟨there, hthere⟩ := exists_fails_signature (trim inside)
  have hfirst : Fails (.rule .element) (trim inside) there :=
    fails_rule_iff.mpr (.inr (fails_seq_iff.mpr (.inl hthere)))
  refine bracketOutcome_of_item rfl rfl (noRow_rowTail1 _ _) hsuffix
    (total_element (total_signature _) _ le_rfl) ⟨there, hfirst⟩
    (htypes hshorter htrim (trim_trim inside) hle).element
    fun {rest} _ _ _ element hrest hhead hafter => ?_
  have hrest' := (trim_suffix rest).trans hrest
  exact bracketOutcome_row1 htypes start element
    (Nat.le_trans hrest'.length_le (Nat.le_of_lt hshorter)) (hrest'.trans htrim) hhead hafter

end

/-! ## Types -/

/-- A tuple or a name. -/
def base : Expr Rule := .choice (.rule .tuple) (.rule .named)

section

variable {text cs rest : List Char} {stack : List Frame} {missed after : Missed}
  {trees : List (ParseTree Rule)} {token : Token} {row : List Token}

theorem fails_base_iff {there : List Char} : Fails base cs there ↔
    Fails (.rule .tuple) cs there ∨
      Run rules (.rule .tuple) cs none ∧ Fails (.rule .named) cs there :=
  fails_choice_iff

theorem run_signature_of_base {mark : List (ParseTree Rule)} {last : List Char}
    (h : Run rules base cs (some (trees, rest)))
    (hmark : Run rules (.option (.rule .nullable)) (trim rest) (some (mark, last))) :
    Run rules (.rule .signature) cs (some ([.node .signature (trees ++ mark)], last)) :=
  run_signature_iff.mpr ⟨rest, trees, mark, Peg.run_choice_some_iff.mp h, hmark, rfl⟩

theorem run_nullable_none (h : cs.head? ≠ some '?') : Run rules (.rule .nullable) cs none :=
  .ruleFail (run_literal_none_iff.mpr h)

/-- After a tuple or a name a `?` is tried, and before it the parts `lead` in vain. -/
theorem typeOutcome_of_base {place : Place} (lead : List Part)
    (hrun : Run rules base cs (some (trees, rest))) (hrest : rest <:+ text)
    (hhead : Head text (trim rest) token row)
    (hread : readFrom ⟨stack, .atType⟩ missed (rowAt text cs)
      = readFrom ⟨stack, place⟩ after (token :: row))
    (hparts : State.parts ⟨stack, place⟩ = lead ++ .question :: partAfterType stack)
    (hmark : token.lexeme = .question →
      ∃ type, step ⟨stack, place⟩ token = .more ⟨stack, .afterMark type⟩)
    (hbare : token.lexeme ≠ .question →
      ∃ type, step ⟨stack, place⟩ token = stepAfterType stack type token)
    (hvain : Vain lead token)
    (hfurthest : Furthest text missed.start (Fails base cs) (after.tried lead token).start)
    (hafter : after.start ≤ token.span.start) : TypeOutcome text stack missed cs := by
  have hle : (after.tried lead token).start ≤ offset text (trim rest) :=
    hhead.start ▸ start_tried_le hvain hafter
  by_cases hquestion : (trim rest).head? = some '?'
  · have hlexeme : token.lexeme = .question := (hhead.head?_eq_iff .question).mp hquestion
    obtain ⟨type, hstep⟩ := hmark hlexeme
    obtain ⟨more, htrim⟩ : ∃ more, trim rest = '?' :: more :=
      ⟨_, (List.cons_head?_tail hquestion).symm⟩
    rw [htrim] at hhead hle
    obtain ⟨-, rfl⟩ := hhead.of_mark .question
    have hnullable : Run rules (.rule .nullable) (trim rest) (some (_, more)) :=
      run_nullable_iff.mpr ⟨htrim, rfl⟩
    have hmore : more <:+ trim rest := ⟨['?'], htrim.symm⟩
    have hsuffix := hmore.trans ((trim_suffix rest).trans hrest)
    obtain ⟨next, tokens, hnext, hrow⟩ := exists_head hsuffix
    have htype := run_signature_of_base hrun (.option hnullable)
    have htaken : TypeTaken text stack missed cs
        [.node .signature (trees ++ [.node .nullable []])] more type next tokens
        (after.tried lead token) [] := by
      refine ⟨htype, hsuffix, hnext, ?_,
        fun _ hpart => absurd hpart List.not_mem_nil, hfurthest.congr fun there => ?_, ?_⟩
      · have hfits : Part.question.beginsWith token.lexeme = true := by
          rw [hlexeme]
          rfl
        rw [hread, readFrom_cons, hparts, tried_append_of_begins hvain hfits, hstep, follow, hrow,
          readFrom_cons]
        rfl
      · rw [fails_optional_of_some rfl hrun]
        refine or_iff_left fun hthere => ?_
        cases (fails_nullable_iff.mp hthere).1.unique hnullable
      · rw [hnext.start]
        exact Nat.le_trans hle
          (offset_le ((trim_suffix more).trans (List.suffix_cons '?' more)))
    exact .taken htaken
  · have hlexeme : token.lexeme ≠ .question := mt (hhead.head?_eq_iff .question).mpr hquestion
    obtain ⟨type, hstep⟩ := hbare hlexeme
    have hnullable := run_nullable_none hquestion
    have hquestionVain : Part.question.beginsWith token.lexeme = false := by
      cases hother : token.lexeme with
      | question => exact absurd hother hlexeme
      | _ => rfl
    have hlast : Furthest text (after.tried lead token).start (fun there => there = trim rest)
        (after.tried (lead ++ [.question]) token).start := by
      rw [start_tried_concat hvain hquestionVain, hhead.start]
      exact .only hle rfl fun there hthere => le_of_eq (congrArg (offset text) hthere)
    have htype := run_signature_of_base hrun (.optionNone hnullable)
    have htaken : TypeTaken text stack missed cs [.node .signature (trees ++ [])] (trim rest)
        type token row after (lead ++ [.question]) := by
      refine ⟨htype, (trim_suffix rest).trans hrest,
        by rw [trim_trim]; exact hhead, ?_,
        List.forall_mem_append.mpr ⟨hvain, List.forall_mem_singleton.mpr hquestionVain⟩,
        hfurthest.append hlast fun there => ?_, hafter⟩
      · rw [hread, readFrom_cons, hparts, hstep, List.append_assoc]
        rfl
      · rw [fails_optional_of_some rfl hrun, fails_nullable_iff]
        exact or_congr Iff.rfl ⟨fun h => h.2, fun h => ⟨hnullable, h⟩⟩
    exact .taken htaken

/-- After a closing bracket only a `?` goes on with the type. -/
theorem typeOutcome_afterBracket {type : TypeExpr} (hrun : Run rules base cs (some (trees, rest)))
    (hrest : rest <:+ text)
    (hread : readFrom ⟨stack, .atType⟩ missed (rowAt text cs)
      = readFrom ⟨stack, .afterBracket type⟩ after (rowAt text rest))
    (hfurthest : Furthest text missed.start (Fails base cs) after.start)
    (hafter : after.start ≤ offset text rest) : TypeOutcome text stack missed cs := by
  obtain ⟨token, row, hhead, hrow⟩ := exists_head hrest
  rw [hrow] at hread
  refine typeOutcome_of_base [] hrun hrest hhead hread rfl (fun hlexeme => ?_)
    (fun hlexeme => ⟨type, ?_⟩) (fun _ hpart => absurd hpart List.not_mem_nil) hfurthest ?_
  · obtain ⟨lexeme, span⟩ := token
    obtain rfl := hlexeme
    exact ⟨_, rfl⟩
  · obtain ⟨lexeme, span⟩ := token
    cases lexeme with
    | question => exact absurd rfl hlexeme
    | _ => rfl
  · rw [hhead.start]
    exact Nat.le_trans hafter (offset_le (trim_suffix rest))

theorem run_tuple_none (h : cs.head? ≠ some '(') : Run rules (.rule .tuple) cs none :=
  .ruleFail (.seqFirst (run_literal_none_iff.mpr h))

theorem run_path_none (h : Avoids isIdentStart cs) : Run rules (.rule .path) cs none :=
  .ruleFail (.seqFirst (run_ident_none h))

theorem run_named_none (h : Avoids isIdentStart cs) : Run rules (.rule .named) cs none :=
  .ruleFail (.seqFirst (run_path_none h))

theorem run_typeArgs_none (h : cs.head? ≠ some '<') : Run rules (.rule .typeArgs) cs none :=
  .ruleFail (.seqFirst (run_literal_none_iff.mpr h))

/-- An attempt at a tuple that does not find its bracket fails, and nothing in it. -/
theorem fails_tuple_iff {there : List Char} (h : cs.head? ≠ some '(') :
    Fails (.rule .tuple) cs there ↔ there = cs := by
  constructor
  · exact fails_of_no_bracket rfl h
  · rintro rfl
    exact fails_of_run_none rfl (run_tuple_none h)

theorem fails_typeArgs_iff {there : List Char} (h : cs.head? ≠ some '<') :
    Fails (.rule .typeArgs) cs there ↔ there = cs := by
  constructor
  · exact fails_of_no_bracket rfl h
  · rintro rfl
    exact fails_of_run_none rfl (run_typeArgs_none h)

theorem fails_named_iff {there : List Char} (h : Avoids isIdentStart cs) :
    Fails (.rule .named) cs there ↔ there = cs := by
  have hpath := run_path_none h
  rw [fails_optional_of_none rfl rfl hpath, fails_path_iff]
  exact or_iff_left_of_imp And.right

/-- Where neither a tuple nor a name stands, both fail, and the type fails. -/
theorem typeOutcome_none (hopen : cs.head? ≠ some '(') (hpath : ∀ path, token.lexeme ≠ .path path)
    (hhead : Head text cs token row) (hrow : rowAt text cs = token :: row)
    (hle : missed.start ≤ offset text cs) : TypeOutcome text stack missed cs := by
  have hstart : Avoids isIdentStart cs := hhead.avoids hpath
  have hlexeme : token.lexeme ≠ .leftParen := mt (hhead.head?_eq_iff .leftParen).mpr hopen
  have hnone : Run rules base cs none :=
    .choiceSecond (run_tuple_none hopen) (run_named_none hstart)
  have hfails (there : List Char) : Fails (.rule .signature) cs there ↔ there = cs := by
    rw [fails_optional_of_none rfl rfl hnone, fails_base_iff, fails_tuple_iff hopen,
      fails_named_iff hstart]
    constructor
    · rintro (h | h | ⟨-, h⟩) <;> exact h
    · exact .inl
  have hstep : step ⟨stack, .atType⟩ token = .reject := by
    obtain ⟨lexeme, span⟩ := token
    cases lexeme with
    | path path => exact absurd rfl (hpath path)
    | leftParen => exact absurd rfl hlexeme
    | _ => rfl
  have hvain : Vain [.type] token := by
    refine List.forall_mem_singleton.mpr ?_
    obtain ⟨lexeme, span⟩ := token
    cases lexeme with
    | path path => exact absurd rfl (hpath path)
    | leftParen => exact absurd rfl hlexeme
    | _ => rfl
  have hread : readFrom ⟨stack, .atType⟩ missed (rowAt text cs)
      = .error (missed.tried ([.type] ++ []) token) := by
    rw [hrow, readFrom_cons, hstep]
    rfl
  refine .stuck _ hread ?_ fun trees rest hsome => ?_
  · rw [start_tried hvain (List.cons_ne_nil _ _), hhead.start]
    exact .upTo hle (fun there hthere => (hfails there).mp hthere ▸ List.suffix_rfl)
      ((hfails cs).mpr rfl)
  · cases (Run.ruleFail (Run.seqFirst hnone)).unique hsome

/-- A type that begins with a bracket is a tuple. -/
theorem typeOutcome_tuple {inside : List Char}
    (htypes : TypesBelow text ('(' :: inside).length) (hcs : '(' :: inside <:+ text)
    (hhead : Head text ('(' :: inside) token row)
    (hrow : rowAt text ('(' :: inside) = token :: row)
    (hle : missed.start ≤ offset text ('(' :: inside)) :
    TypeOutcome text stack missed ('(' :: inside) := by
  obtain ⟨rfl, rfl⟩ := hhead.of_mark .leftParen
  have hinside := List.suffix_cons '(' inside
  have hread : readFrom ⟨stack, .atType⟩ missed (rowAt text ('(' :: inside))
      = readFrom ⟨.tuple (offset text ('(' :: inside)) [] :: stack, .atType⟩ missed
          (rowAt text inside) := by
    rw [hrow, readFrom_cons]
    rfl
  have htrim : offset text ('(' :: inside) ≤ offset text (trim inside) :=
    offset_le ((trim_suffix inside).trans hinside)
  have hstart : Avoids isIdentStart ('(' :: inside) := avoids_start_of_head? rfl rfl
  cases bracketOutcome_tuple htypes (Nat.lt_succ_self _) (hinside.trans hcs)
    (offset text ('(' :: inside)) (Nat.le_trans hle htrim) with
  | stuck refused hrefused hnone hfurthest =>
      have hbase : Run rules base ('(' :: inside) none :=
        .choiceSecond hnone (run_named_none hstart)
      have hwhole : Fails (.rule .tuple) ('(' :: inside) ('(' :: inside) :=
        fails_of_run_none rfl hnone
      refine .stuck refused (hread.trans hrefused) (hfurthest.more (fun there hthere => ?_)
        fun there hthere => ?_) fun trees rest hsome => ?_
      · rw [fails_optional_of_none rfl rfl hbase, fails_base_iff]
        exact .inr (.inl hthere)
      · rw [fails_optional_of_none rfl rfl hbase, fails_base_iff, fails_named_iff hstart] at hthere
        rcases hthere with rfl | hthere | ⟨-, rfl⟩
        · exact .inl hwhole
        · exact .inl hthere
        · exact .inl hwhole
      · cases (Run.ruleFail (Run.seqFirst hbase)).unique hsome
  | closed trees rest type after hsome hclosed hfurthest hafter hrest =>
      refine typeOutcome_afterBracket (.choiceFirst hsome) hrest (hread.trans hclosed)
        (hfurthest.congr fun there => ?_) hafter
      rw [fails_base_iff]
      refine or_iff_left ?_
      rintro ⟨hnone, -⟩
      cases hnone.unique hsome

section

variable {path more : List Char}

theorem run_base_of_path {args : List (ParseTree Rule)} (hpath : IsPath path) (hstop : Stops more)
    (h : Run rules (.option (.rule .typeArgs)) (trim more) (some (args, rest))) :
    Run rules base (path ++ more) (some ([.node .named (.leaf .path path :: args)], rest)) := by
  have hopen : (path ++ more).head? ≠ some '(' := by
    obtain ⟨first, others, rfl, hfirst, -⟩ := hpath.starts
    rintro ⟨⟩
    cases hfirst
  exact .choiceSecond (run_tuple_none hopen)
    (run_named_iff.mpr ⟨path, more, args, hpath, rfl, hstop, h, rfl⟩)

/-- A name is tried as a tuple first, and then type arguments are tried after its path. -/
theorem fails_base_of_path {there : List Char} (hpath : IsPath path) (hstop : Stops more) :
    Fails base (path ++ more) there ↔
      there = path ++ more ∨ Fails (.rule .typeArgs) (trim more) there := by
  have hopen : (path ++ more).head? ≠ some '(' := by
    obtain ⟨first, others, rfl, hfirst, -⟩ := hpath.starts
    rintro ⟨⟩
    cases hfirst
  have hrun : Run rules (.rule .path) (path ++ more) (some ([.leaf .path path], more)) :=
    run_path_iff.mpr ⟨path, hpath, rfl, hstop, rfl⟩
  rw [fails_base_iff, fails_tuple_iff hopen, fails_optional_of_some rfl hrun,
    fails_path_iff]
  refine or_congr Iff.rfl ⟨?_, fun h => ⟨run_tuple_none hopen, .inr h⟩⟩
  rintro ⟨-, ⟨hnone, -⟩ | h⟩
  · cases hnone.unique hrun
  · exact h

/-- A name without type arguments. -/
theorem typeOutcome_bare (hpath : IsPath path) (hstop : Stops more) (hcs : path ++ more <:+ text)
    (span : Span) (hargs : (trim more).head? ≠ some '<')
    (hread : readFrom ⟨stack, .atType⟩ missed (rowAt text (path ++ more))
      = readFrom ⟨stack, .afterPath (String.ofList path) span⟩ missed (rowAt text more))
    (hle : missed.start ≤ offset text (path ++ more)) :
    TypeOutcome text stack missed (path ++ more) := by
  have hmore : trim more <:+ path ++ more :=
    (trim_suffix more).trans (List.suffix_append path more)
  have hle' : missed.start ≤ offset text (trim more) := Nat.le_trans hle (offset_le hmore)
  obtain ⟨token, row, hhead, hrow⟩ := exists_head ((List.suffix_append path more).trans hcs)
  have hlexeme : token.lexeme ≠ .lessThan := mt (hhead.head?_eq_iff .lessThan).mpr hargs
  have hvain : Vain [.lessThan] token := by
    refine List.forall_mem_singleton.mpr ?_
    cases hother : token.lexeme with
    | lessThan => exact absurd hother hlexeme
    | _ => rfl
  have hstart : (missed.tried ([.lessThan] ++ []) token).start = offset text (trim more) :=
    (start_tried hvain (List.cons_ne_nil _ _)).trans hhead.start
  have hbase := run_base_of_path hpath hstop (.optionNone (run_typeArgs_none hargs))
  rw [hrow] at hread
  refine typeOutcome_of_base [.lessThan] hbase (hmore.trans hcs) (by rwa [trim_trim]) hread rfl
    (fun hother => ?_) (fun hother => ⟨.named (String.ofList path) [] ⟨span.start, token.span.start⟩
      none, step_afterPath ⟨hlexeme, hother⟩⟩) hvain ?_ (hhead.start ▸ hle')
  · obtain ⟨lexeme, span⟩ := token
    obtain rfl := hother
    exact ⟨_, rfl⟩
  · rw [List.append_nil] at hstart
    rw [hstart]
    refine .upTo hle' (fun there hthere => ?_) ?_
    · rcases (fails_base_of_path hpath hstop).mp hthere with rfl | hthere
      · exact hmore
      · exact (fails_typeArgs_iff hargs).mp hthere ▸ List.suffix_rfl
    · exact (fails_base_of_path hpath hstop).mpr (.inr ((fails_typeArgs_iff hargs).mpr rfl))

/-- A name with type arguments, or with what begins as such. -/
theorem typeOutcome_generic {inside : List Char} (htypes : TypesBelow text (path ++ more).length)
    (hpath : IsPath path) (hstop : Stops more) (hcs : path ++ more <:+ text)
    (span : Span) (htrim : trim more = '<' :: inside)
    (hread : readFrom ⟨stack, .atType⟩ missed (rowAt text (path ++ more))
      = readFrom ⟨stack, .afterPath (String.ofList path) span⟩ missed (rowAt text more))
    (hle : missed.start ≤ offset text (path ++ more)) :
    TypeOutcome text stack missed (path ++ more) := by
  have hmore : '<' :: inside <:+ path ++ more :=
    htrim ▸ (trim_suffix more).trans (List.suffix_append path more)
  have hinside : trim inside <:+ path ++ more :=
    (trim_suffix inside).trans ((List.suffix_cons '<' inside).trans hmore)
  obtain ⟨token, row, hhead, hrow⟩ := exists_head ((List.suffix_append path more).trans hcs)
  rw [htrim] at hhead
  obtain ⟨rfl, rfl⟩ := hhead.of_mark .lessThan
  have hread : readFrom ⟨stack, .atType⟩ missed (rowAt text (path ++ more))
      = readFrom ⟨.args (String.ofList path) span.start [] :: stack, .atType⟩ missed
          (rowAt text inside) := by
    rw [hread, hrow, readFrom_cons]
    rfl
  have hlt : inside.length < (path ++ more).length :=
    Nat.lt_of_lt_of_le (Nat.lt_succ_self _) hmore.length_le
  have hfails (there : List Char) : Fails base (path ++ more) there ↔
      there = path ++ more ∨ Fails (.rule .typeArgs) ('<' :: inside) there := by
    rw [fails_base_of_path hpath hstop, htrim]
  cases bracketOutcome_typeArgs htypes hlt
    ((List.suffix_cons '<' inside).trans (hmore.trans hcs)) (String.ofList path) span.start
    (Nat.le_trans hle (offset_le hinside)) with
  | stuck refused hrefused hnone hfurthest =>
      have hbase := run_base_of_path hpath hstop (.optionNone (htrim.symm ▸ hnone))
      have hmark : (trim (trim more)).head? ≠ some '?' := by
        rw [trim_trim, htrim]
        rintro ⟨⟩
      have hsome := run_signature_of_base hbase (.optionNone (run_nullable_none hmark))
      have hthere : offset text ('<' :: inside) ≤ refused.start :=
        hfurthest.bound _ (fails_of_run_none rfl hnone)
      refine .stuck refused (hread.trans hrefused) (hfurthest.more (fun there h => ?_)
        fun there h => ?_) fun trees rest h => ?_
      · rw [fails_optional_of_some rfl hbase]
        exact .inl ((hfails there).mpr (.inr h))
      · rcases (fails_optional_of_some rfl hbase).mp h with h | h
        · rcases (hfails there).mp h with rfl | h
          · exact .inr (Nat.le_trans (offset_le hmore) hthere)
          · exact .inl h
        · rw [(fails_nullable_iff.mp h).2, trim_trim, htrim]
          exact .inr hthere
      · obtain ⟨-, rfl⟩ := Prod.mk.inj (Option.some.inj (hsome.unique h))
        rw [trim_trim, trim_trim, htrim]
        exact ⟨inside, rfl, hthere⟩
  | closed trees rest type after hsome hclosed hfurthest hafter hrest =>
      have hbase := run_base_of_path hpath hstop (.option (htrim.symm ▸ hsome))
      obtain ⟨there, hthere⟩ := exists_fails_signature (trim inside)
      have hwhole : offset text ('<' :: inside) ≤ after.start := hfurthest.offset_le
        ⟨there, fails_rule_iff.mpr (.inr (fails_literal_andThen.mpr (fails_seq_iff.mpr
          (.inl hthere))))⟩
      refine typeOutcome_afterBracket hbase hrest (hread.trans hclosed)
        (hfurthest.more (fun there h => (hfails there).mpr (.inr h)) fun there h => ?_) hafter
      rcases (hfails there).mp h with rfl | h
      · exact .inr (Nat.le_trans (offset_le hmore) hwhole)
      · exact .inl h

end

/-- Whatever the text, an attempt at a type has its outcome. -/
theorem typesBelow (text : List Char) (limit : Nat) : TypesBelow text limit := by
  induction limit using Nat.strongRecOn with
  | ind limit ih =>
      intro stack cs missed hlt hcs htrim hle
      have htypes : TypesBelow text cs.length := ih cs.length hlt
      obtain ⟨token, row, hhead, hrow⟩ := exists_head_of_trim hcs htrim
      by_cases hopen : cs.head? = some '('
      · obtain ⟨inside, rfl⟩ : ∃ inside, cs = '(' :: inside :=
          ⟨cs.tail, (List.cons_head?_tail hopen).symm⟩
        exact typeOutcome_tuple htypes hcs hhead hrow hle
      · by_cases htoken : ∃ path, token.lexeme = .path path
        · obtain ⟨path, hlexeme⟩ := htoken
          obtain ⟨more, rfl, hpath, hstop, rfl, rfl⟩ := hhead.of_path hlexeme
          have hread : readFrom ⟨stack, .atType⟩ missed (rowAt text (path.toList ++ more))
              = readFrom ⟨stack, .afterPath (String.ofList path.toList)
                  ⟨offset text (path.toList ++ more), offset text more⟩⟩ missed
                  (rowAt text more) := by
            rw [hrow, readFrom_cons, String.ofList_toList]
            rfl
          by_cases hargs : (trim more).head? = some '<'
          · obtain ⟨inside, hinside⟩ : ∃ inside, trim more = '<' :: inside :=
              ⟨(trim more).tail, (List.cons_head?_tail hargs).symm⟩
            exact typeOutcome_generic htypes hpath hstop hcs _ hinside hread hle
          · exact typeOutcome_bare hpath hstop hcs _ hargs hread hle
        · exact typeOutcome_none hopen (not_exists.mp htoken) hhead hrow hle

end

/-! ## The whole text -/

section

variable {text there : List Char} {missed : Missed}

theorem fails_main_of_none (h : Run rules (.rule .signature) (trim text) none) :
    Fails main text there ↔ Fails (.rule .signature) (trim text) there :=
  fails_round_iff.trans (fails_andThen_of_none h)

theorem fails_main_of_some {trees : List (ParseTree Rule)} {rest : List Char}
    (h : Run rules (.rule .signature) (trim text) (some (trees, rest))) :
    Fails main text there ↔
      Fails (.rule .signature) (trim text) there ∨ Fails .endOfText (trim rest) there :=
  fails_round_iff.trans (fails_andThen_of_some h)

theorem exists_fails_main (text : List Char) : ∃ there, Fails main text there := by
  obtain ⟨there, hthere⟩ := exists_fails_signature (trim text)
  exact ⟨there, fails_round_iff.mpr (fails_seq_iff.mpr (.inl hthere))⟩

theorem run_endOfText_none {cs : List Char} (h : cs ≠ []) : Run rules .endOfText cs none := by
  cases cs with
  | nil => exact absurd rfl h
  | cons c cs => exact .beforeEnd

/-- When the reader refuses a text, its memory is the furthest place at which a rule fails. -/
theorem furthest_of_parse (h : parse text = .error missed) :
    Furthest text 0 (Fails main text) missed.start := by
  have hread : readFrom ⟨[], .atType⟩ Missed.initial (rowAt text (trim text)) = .error missed := by
    rw [rowAt_trim List.suffix_rfl, rowAt_self]
    exact h
  have houtcome : TypeOutcome text [] Missed.initial (trim text) :=
    typesBelow text _ (Nat.lt_succ_self _) (trim_suffix text) (trim_trim text) (Nat.zero_le _)
  cases houtcome with
  | stuck refused hrefused hfurthest hstops =>
      obtain rfl := Except.error.inj (hrefused.symm.trans hread)
      obtain ⟨_ | ⟨trees, rest⟩, hrun⟩ := total_signature _ (trim text) le_rfl
      · exact hfurthest.congr fun there => fails_main_of_none hrun
      · obtain ⟨more, htrim, hle⟩ := hstops trees rest hrun
        refine hfurthest.more (fun there hthere => (fails_main_of_some hrun).mpr (.inl hthere))
          fun there hthere => ?_
        rcases (fails_main_of_some hrun).mp hthere with hthere | hthere
        · exact .inl hthere
        · rw [(fails_endOfText_iff.mp hthere).2]
          exact .inr hle
  | @taken trees rest type token row after lead htaken =>
      have hdone : token.lexeme ≠ .done := by
        intro hdone
        have haccept : stepAfterType [] type token = .accept type := by
          obtain ⟨lexeme, span⟩ := token
          obtain rfl := hdone
          rfl
        rw [htaken.read, haccept] at hread
        cases hread
      have hreject : stepAfterType [] type token = .reject := by
        obtain ⟨lexeme, span⟩ := token
        cases lexeme with
        | done => exact absurd rfl hdone
        | _ => rfl
      have hvain : Part.endOfText.beginsWith token.lexeme = false := by
        cases hother : token.lexeme with
        | done => exact absurd hother hdone
        | _ => rfl
      have hne : trim rest ≠ [] := by
        intro hnil
        have hhead := htaken.head
        rw [hnil] at hhead
        exact hdone hhead.of_nil
      rw [htaken.read, hreject, follow] at hread
      obtain rfl := Except.error.inj hread
      have hlast : Furthest text (after.tried lead token).start (fun there => there = trim rest)
          (after.tried (lead ++ [.endOfText]) token).start := by
        rw [start_tried_concat htaken.vain hvain, htaken.head.start]
        exact .upTo htaken.start_tried_le (fun there hthere => hthere ▸ List.suffix_rfl) rfl
      refine htaken.furthest.append hlast fun there => ?_
      rw [fails_main_of_some htaken.run, fails_endOfText_iff]
      exact or_congr Iff.rfl ⟨fun h => h.2, fun h => ⟨run_endOfText_none hne, h⟩⟩

/-- A text is refused at the furthest place at which a rule of the grammar fails. -/
theorem furthestFailure_of_parse (h : parse text = .error missed) :
    ∃ front there, text = front ++ there ∧ Text.byteLength front = missed.start ∧
      FurthestFailure text there := by
  have hfurthest := furthest_of_parse h
  obtain ⟨there, hthere, hoffset⟩ : ∃ there, Fails main text there ∧
      offset text there = missed.start := by
    rcases hfurthest.met with hzero | hmet
    · obtain ⟨there, hthere⟩ := exists_fails_main text
      have hle := hfurthest.bound there hthere
      rw [hzero] at hle
      exact ⟨there, hthere, (Nat.le_zero.mp hle).trans hzero.symm⟩
    · exact hmet
  obtain ⟨front, rfl⟩ := hthere.suffix
  rw [offset_of_append] at hoffset
  refine ⟨front, there, rfl, hoffset, hthere, fun other hother => ?_⟩
  refine suffix_of_offset_le (List.suffix_append front there) hother.suffix ?_
  rw [offset_of_append, hoffset]
  exact hfurthest.bound other hother

end

end TypeNaming.Signature
