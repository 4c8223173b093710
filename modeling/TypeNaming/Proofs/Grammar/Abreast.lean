/-
# The grammar and the reader side by side

The greedy grammar and the reader that goes by tokens are followed through the same text.
Where the grammar attempts a type, one of two things happens (`TypeOutcome`).  Either the
attempt succeeds, and the reader has come through the same text, with the furthest failure in
its memory as soon as the next token has been looked at.  Or the reader has refused the text,
and nothing that the grammar can still try gets it any further: the type has failed, or type
arguments have been given up and the type stops short before a `<`, which nothing takes.

Here is what follows from this for the items of a row.  A type argument is a type; a tuple
element is a type and a label, and of a path with dots the grammar takes the first identifier
for a label where the reader takes nothing (`TypeTaken.dotted`).  After a comma the next item
is attempted, and after a closing bracket both are back in the row around it
(`bracketOutcome_row`).
-/
import TypeNaming.Proofs.Grammar.Memory

namespace TypeNaming.Signature

open Peg (Expr ParseTree Run)

/-! ## What comes of a type, an item and a bracket -/

/-- The grammar has taken a type from the text, and so has the reader, which looks at the next
token.  The parts that may go on with the type, `lead`, are not there. -/
structure TypeTaken (text : List Char) (stack : List Frame) (missed : Missed) (cs : List Char)
    (trees : List (ParseTree Rule)) (rest : List Char) (type : TypeExpr) (token : Token)
    (row : List Token) (after : Missed) (lead : List Part) : Prop where
  run : Run rules (.rule .signature) cs (some (trees, rest))
  suffix : rest <:+ text
  head : Head text (trim rest) token row
  read : readFrom ⟨stack, .atType⟩ missed (rowAt text cs)
    = follow (after.tried (lead ++ partAfterType stack) token) row (stepAfterType stack type token)
  vain : Vain lead token
  furthest : Furthest text missed.start (Fails (.rule .signature) cs) (after.tried lead token).start
  start_le : after.start ≤ token.span.start

/-- The grammar attempts a type on the text, and the reader goes on with the same text. -/
inductive TypeOutcome (text : List Char) (stack : List Frame) (missed : Missed)
    (cs : List Char) : Prop
  /-- The reader refuses the text, and the grammar stops before a `<` at best. -/
  | stuck (refused : Missed) :
      readFrom ⟨stack, .atType⟩ missed (rowAt text cs) = .error refused →
      Furthest text missed.start (Fails (.rule .signature) cs) refused.start →
      (∀ trees rest, Run rules (.rule .signature) cs (some (trees, rest)) →
        ∃ more, trim rest = '<' :: more ∧ offset text (trim rest) ≤ refused.start) →
      TypeOutcome text stack missed cs
  | taken {trees : List (ParseTree Rule)} {rest : List Char} {type : TypeExpr} {token : Token}
      {row : List Token} {after : Missed} {lead : List Part} :
      TypeTaken text stack missed cs trees rest type token row after lead →
      TypeOutcome text stack missed cs

/-- The text begins with a character that no row goes on with. -/
def StopsShort (cs : List Char) : Prop :=
  cs.head? = some '<' ∨ cs.head? = some '.'

/-- The grammar attempts an item of a row, and the reader goes on with the same text. -/
inductive ItemOutcome (text : List Char) (item : Rule) (stack : List Frame) (missed : Missed)
    (cs : List Char) : Prop
  /-- The reader refuses the text, and no comma or closing bracket follows the item. -/
  | stuck (refused : Missed) :
      readFrom ⟨stack, .atType⟩ missed (rowAt text cs) = .error refused →
      Furthest text missed.start (Fails (.rule item) cs) refused.start →
      (∀ trees rest, Run rules (.rule item) cs (some (trees, rest)) → StopsShort (trim rest)) →
      ItemOutcome text item stack missed cs
  /-- Both have taken the item. -/
  | taken (trees : List (ParseTree Rule)) (rest : List Char) (element : Element)
      (token : Token) (row : List Token) (after : Missed) :
      Run rules (.rule item) cs (some (trees, rest)) →
      Head text (trim rest) token row →
      readFrom ⟨stack, .atType⟩ missed (rowAt text cs)
        = follow after row (stepAfter stack element token) →
      Furthest text missed.start (Fails (.rule item) cs) after.start →
      after.start ≤ offset text (trim rest) → rest <:+ text →
      ItemOutcome text item stack missed cs

/-- The grammar attempts something that ends in a closing bracket, and the reader comes to
the answer. -/
inductive BracketOutcome (text : List Char) (outer : List Frame)
    (answer : Except Missed TypeExpr) (before : Nat) (e : Expr Rule) (cs : List Char) : Prop
  | stuck (refused : Missed) : answer = .error refused → Run rules e cs none →
      Furthest text before (Fails e cs) refused.start →
      BracketOutcome text outer answer before e cs
  | closed (trees : List (ParseTree Rule)) (rest : List Char) (type : TypeExpr) (after : Missed) :
      Run rules e cs (some (trees, rest)) →
      answer = readFrom ⟨outer, .afterBracket type⟩ after (rowAt text rest) →
      Furthest text before (Fails e cs) after.start →
      after.start ≤ offset text rest → rest <:+ text →
      BracketOutcome text outer answer before e cs

/-! ## Rows -/

/-- The row of items inside the frame may be closed by the bracket. -/
inductive Closes : Rule → Char → Frame → Prop
  | args (path : String) (start : Nat) (read : List TypeExpr) :
      Closes .signature '>' (.args path start read)
  | tuple (start : Nat) (first : Element) (read : List Element) :
      Closes .element ')' (.tuple start (first :: read))

section

variable {text : List Char} {item : Rule} {mark : Char} {frame : Frame} {outer : List Frame}

theorem Closes.ne_comma (h : Closes item mark frame) : mark ≠ ',' := by
  cases h <;> decide

theorem Closes.comma (h : Closes item mark frame) (outer : List Frame) (element : Element)
    (span : Span) : ∃ next, Closes item mark next ∧
      stepAfter (frame :: outer) element ⟨.comma, span⟩ = .more ⟨next :: outer, .atType⟩ := by
  cases h with
  | args path start read => exact ⟨_, .args path start _, rfl⟩
  | tuple start first read => exact ⟨_, .tuple start first _, rfl⟩

theorem Closes.close (h : Closes item mark frame) (outer : List Frame) (element : Element)
    {lexeme : Lexeme} (hlexeme : Punctuation mark lexeme) (span : Span) :
    ∃ type, stepAfter (frame :: outer) element ⟨lexeme, span⟩
      = .more ⟨outer, .afterBracket type⟩ := by
  cases h with
  | args path start read =>
      cases hlexeme
      exact ⟨_, rfl⟩
  | tuple start first read =>
      cases hlexeme
      exact ⟨_, rfl⟩

theorem Closes.reject (h : Closes item mark frame) (outer : List Frame) (element : Element)
    {token : Token} (hcomma : token.lexeme ≠ .comma)
    (hclose : ¬ Punctuation mark token.lexeme) :
    stepAfter (frame :: outer) element token = .reject := by
  obtain ⟨lexeme, span⟩ := token
  cases h with
  | args path start read =>
      cases lexeme with
      | comma => exact absurd rfl hcomma
      | greaterThan => exact absurd .greaterThan hclose
      | _ => rfl
  | tuple start first read =>
      cases lexeme with
      | comma => exact absurd rfl hcomma
      | rightParen => exact absurd .rightParen hclose
      | _ => rfl

/-- An attempt at an item comes to an end. -/
theorem Closes.total (h : Closes item mark frame) (cs : List Char) :
    ∃ outcome, Run rules (.rule item) cs outcome := by
  cases h with
  | args => exact total_signature cs.length cs le_rfl
  | tuple => exact total_element (total_signature cs.length) cs le_rfl

/-- A row ends where neither a comma nor its closing bracket stands. -/
theorem row_stops {cs : List Char} (htrim : trim cs = cs) (hcomma : cs.head? ≠ some ',')
    (hmark : cs.head? ≠ some mark) : Run rules (rowTail item mark) cs none := by
  have hnone : Run rules (commaThen item) cs none := run_commaThen_none hcomma
  exact (run_rowTail_of_none hnone).2 (htrim.symm ▸ hmark)

theorem not_fails_row {cs there : List Char} (hcomma : cs.head? ≠ some ',') :
    ¬ Fails (rowTail item mark) cs there := by
  rw [rowTail, fails_andThen_literal_iff, fails_many_of_none (run_commaThen_none hcomma)]
  exact not_fails_commaThen hcomma

theorem StopsShort.ne_comma {cs : List Char} (h : StopsShort cs) : cs.head? ≠ some ',' := by
  rcases h with h | h
  · rw [h]
    decide
  · rw [h]
    decide

theorem StopsShort.ne_mark {cs : List Char} (h : StopsShort cs) (hframe : Closes item mark frame) :
    cs.head? ≠ some mark := by
  rcases h with h | h
  · rw [h]
    cases hframe <;> decide
  · rw [h]
    cases hframe <;> decide

/-- After a comma an item is attempted, and after the item the row goes on. -/
theorem bracketOutcome_comma {row : Expr Rule} (hrow : IsRow row item mark)
    (hframe : Closes item mark frame) {inside : List Char} {missed : Missed}
    (hsuffix : inside <:+ text)
    (hitem : ItemOutcome text item (frame :: outer) missed (trim inside))
    (htail : ∀ {rest token tokens after} (element : Element), rest <:+ trim inside →
      Head text (trim rest) token tokens → after.start ≤ offset text (trim rest) →
      BracketOutcome text outer (follow after tokens (stepAfter (frame :: outer) element token))
        after.start (rowTail item mark) (trim rest)) :
    BracketOutcome text outer (readFrom ⟨frame :: outer, .atType⟩ missed (rowAt text inside))
      missed.start row (',' :: inside) := by
  rw [← rowAt_trim hsuffix]
  cases hitem with
  | stuck refused hread hfurthest hstops =>
      obtain ⟨_ | ⟨trees, rest⟩, hrun⟩ := hframe.total (trim inside)
      · have hcomma := run_commaThen_of_none hrun
        refine .stuck refused hread (hrow.run_none hcomma) (hfurthest.congr fun there => ?_)
        rw [hrow.fails_none hcomma, fails_commaThen_iff]
      · have hcomma := run_commaThen_of_some hrun
        have hshort : StopsShort (trim rest) := hstops trees rest hrun
        have hnone : Run rules (rowTail item mark) (trim rest) none :=
          row_stops (trim_trim rest) hshort.ne_comma (hshort.ne_mark hframe)
        refine .stuck refused hread ((hrow.run_some hcomma).none hnone)
          (hfurthest.congr fun there => ?_)
        rw [hrow.fails_some hcomma, fails_commaThen_iff]
        exact or_iff_left (not_fails_row hshort.ne_comma)
  | taken trees rest element token tokens after hrun hhead hread hfurthest hafter hrest =>
      have hcomma := run_commaThen_of_some hrun
      have hfails (there : List Char) : Fails row (',' :: inside) there ↔
          Fails (.rule item) (trim inside) there ∨ Fails (rowTail item mark) (trim rest) there := by
        rw [hrow.fails_some hcomma, fails_commaThen_iff]
      rw [hread]
      cases htail element (hrun.suffix rfl) hhead hafter with
      | stuck refused hread hnone hfurther =>
          exact .stuck refused hread ((hrow.run_some hcomma).none hnone)
            (hfurthest.append hfurther hfails)
      | closed others rest type after hclosed hread hfurther hafter hrest =>
          exact .closed _ rest type after ((hrow.run_some hcomma).some hclosed) hread
            (hfurthest.append hfurther hfails) hafter hrest

/-- Items shorter than the limit have an outcome inside the frames of the row. -/
def ItemsBelow (text : List Char) (item : Rule) (mark : Char) (outer : List Frame)
    (limit : Nat) : Prop :=
  ∀ {frame : Frame} {cs : List Char} {missed : Missed}, Closes item mark frame →
    cs.length < limit → cs <:+ text → trim cs = cs → missed.start ≤ offset text cs →
    ItemOutcome text item (frame :: outer) missed cs

/-- A row of items, from the end of its first item on. -/
theorem bracketOutcome_row {lexeme : Lexeme} (hlexeme : Punctuation mark lexeme) (limit : Nat) :
    ItemsBelow text item mark outer limit →
    ∀ {frame : Frame} {cs : List Char} {token : Token} {row : List Token} {after : Missed}
      (element : Element), Closes item mark frame → cs.length ≤ limit → cs <:+ text →
      trim cs = cs → Head text cs token row → after.start ≤ offset text cs →
      BracketOutcome text outer (follow after row (stepAfter (frame :: outer) element token))
        after.start (rowTail item mark) cs := by
  induction limit using Nat.strongRecOn with
  | ind limit ih =>
      intro hitem frame cs token row after element hframe hlimit hcs htrim hhead hafter
      by_cases hcomma : cs.head? = some ','
      · obtain ⟨inside, rfl⟩ : ∃ inside, cs = ',' :: inside :=
          ⟨cs.tail, (List.cons_head?_tail hcomma).symm⟩
        obtain ⟨rfl, rfl⟩ := hhead.of_mark .comma
        obtain ⟨next, hnext, hstep⟩ := hframe.comma outer element _
        have hinside : (trim inside).length < limit :=
          Nat.lt_of_lt_of_le (length_trim_lt ',' inside) hlimit
        have hwhole : trim inside <:+ ',' :: inside :=
          (trim_suffix inside).trans (List.suffix_cons ',' inside)
        rw [hstep, follow]
        refine bracketOutcome_comma (isRow_rowTail hframe.ne_comma) hnext
          ((List.suffix_cons ',' inside).trans hcs)
          (hitem hnext hinside (hwhole.trans hcs) (trim_trim inside)
            (Nat.le_trans hafter (offset_le hwhole))) fun element hrest hhead hlast => ?_
        have hrest := (trim_suffix _).trans hrest
        exact ih _ hinside (fun hframe hlt => hitem hframe (Nat.lt_trans hlt hinside)) element
          hnext hrest.length_le (hrest.trans (hwhole.trans hcs)) (trim_trim _) hhead hlast
      · by_cases hmark : cs.head? = some mark
        · obtain ⟨rest, rfl⟩ : ∃ rest, cs = mark :: rest :=
            ⟨cs.tail, (List.cons_head?_tail hmark).symm⟩
          obtain ⟨rfl, rfl⟩ := hhead.of_mark hlexeme
          obtain ⟨type, hstep⟩ := hframe.close outer element hlexeme _
          rw [hstep, follow]
          have hrest := List.suffix_cons mark rest
          have hclosed : Run rules (rowTail item mark) (mark :: rest) (some ([], rest)) :=
            (run_rowTail_of_none (run_commaThen_none hcomma)).1 rest htrim
          exact .closed [] rest type after hclosed rfl (.nowhere fun _ => not_fails_row hcomma)
            (Nat.le_trans hafter (offset_le hrest)) (hrest.trans hcs)
        · have hstep := hframe.reject outer element (mt (hhead.head?_eq_iff .comma).mpr hcomma)
            fun h => hmark ((hhead.head?_eq_iff h).mpr rfl)
          rw [hstep, follow]
          exact .stuck after rfl (row_stops htrim hcomma hmark)
            (.nowhere fun _ => not_fails_row hcomma)

end

/-! ## Items -/

section

variable {text cs : List Char} {missed : Missed} {outer : List Frame} {start : Nat}

theorem TypeTaken.start_tried_le {stack : List Frame} {trees : List (ParseTree Rule)}
    {rest : List Char} {type : TypeExpr} {token : Token} {row : List Token} {after : Missed}
    {lead : List Part} (h : TypeTaken text stack missed cs trees rest type token row after lead) :
    (after.tried lead token).start ≤ offset text (trim rest) :=
  h.head.start ▸ Signature.start_tried_le h.vain h.start_le

/-- A type argument is a type. -/
theorem TypeOutcome.argument {path : String} {read : List TypeExpr}
    (h : TypeOutcome text (.args path start read :: outer) missed cs) :
    ItemOutcome text .signature (.args path start read :: outer) missed cs := by
  cases h with
  | stuck refused hread hfurthest hstops =>
      refine .stuck refused hread hfurthest fun trees rest hrun => ?_
      obtain ⟨more, hmore, -⟩ := hstops trees rest hrun
      exact .inl (hmore ▸ rfl)
  | @taken trees rest type token row after lead htaken =>
      have hread := htaken.read
      rw [show lead ++ partAfterType (.args path start read :: outer) = lead from
        List.append_nil lead] at hread
      exact .taken trees rest ⟨type, none⟩ token row _ htaken.run htaken.head hread
        htaken.furthest htaken.start_tried_le htaken.suffix

theorem run_label_none {cs : List Char} (h : Avoids isIdentStart cs) :
    Run rules (.rule .label) cs none :=
  .ruleFail (run_ident_none h)

theorem avoids_start_of_head? {cs : List Char} {c : Char} (h : cs.head? = some c)
    (hc : isIdentStart c = false) : Avoids isIdentStart cs := by
  intro d hd
  obtain rfl : c = d := by
    rw [h] at hd
    simpa using hd
  exact hc

/-- A text that begins with a path begins with its token, and no other does. -/
theorem Head.avoids {token : Token} {row : List Token} (h : Head text cs token row)
    (hpath : ∀ path, token.lexeme ≠ .path path) : Avoids isIdentStart cs := by
  cases h with
  | done =>
      intro c hc
      cases hc
  | mark hc => exact avoids_start_of_head? rfl (by cases hc <;> rfl)
  | path => exact absurd rfl (hpath _)
  | @stray c cs hc =>
      refine avoids_start_of_head? rfl (Bool.eq_false_iff.mpr fun hstart => ?_)
      rw [opening_eq_path_iff.mpr hstart] at hc
      cases hc

theorem run_element_of_none {trees : List (ParseTree Rule)} {rest : List Char}
    (h : Run rules (.rule .signature) cs (some (trees, rest)))
    (hlabel : Run rules (.rule .label) (trim rest) none) :
    Run rules (.rule .element) cs (some ([.node .element (trees ++ [])], trim rest)) :=
  run_element_iff.mpr ⟨rest, trees, [], h, .optionNone hlabel, rfl⟩

/-- A label is the identifier that stands there, as a whole or as the beginning of a path with
dots. -/
theorem run_element_of_label {trees : List (ParseTree Rule)} {rest text more : List Char}
    (h : Run rules (.rule .signature) cs (some (trees, rest))) (htext : Identifier text)
    (hrest : trim rest = text ++ more) (hmore : Avoids isIdentRest more) :
    Run rules (.rule .element) cs
      (some ([.node .element (trees ++ [.node .label [.leaf .ident text]])], more)) :=
  run_element_iff.mpr ⟨rest, trees, _, h,
    .option (run_label_iff.mpr ⟨text, htext, hrest, hmore, rfl⟩), rfl⟩

/-- A path with dots begins with an identifier and a dot. -/
theorem IsPath.exists_first {path : String} (h : IsPath path.toList)
    (hident : isIdent path = false) :
    ∃ first others, Identifier first ∧ path.toList = first ++ '.' :: others := by
  have hdot : '.' ∈ path.toList := by simpa [isIdent] using hident
  generalize path.toList = cs at h hdot
  cases h with
  | ident h => exact absurd hdot h.undotted
  | dotted h _ => exact ⟨_, _, h, rfl⟩

/-- Where a label stands, the attempt at it does not fail. -/
theorem not_fails_label {text more there : List Char} (htext : Identifier text)
    (hmore : Avoids isIdentRest more) : ¬ Fails (.rule .label) (text ++ more) there := by
  intro hfails
  have hrun := run_label_iff.mpr ⟨text, htext, rfl, hmore, rfl⟩
  cases (fails_label_iff.mp hfails).1.unique hrun

theorem stepAfterType_path {read : List Element} (type : TypeExpr) {token : Token}
    {path : String} (h : token.lexeme = .path path) :
    stepAfterType (.tuple start read :: outer) type token
      = if isIdent path then .more ⟨.tuple start read :: outer,
          .afterLabel ⟨type, some ⟨path, token.span⟩⟩⟩ else .reject := by
  obtain ⟨lexeme, span⟩ := token
  obtain rfl := h
  rfl

section

variable {read : List Element} {trees : List (ParseTree Rule)} {rest : List Char}
  {type : TypeExpr} {token : Token} {row : List Token} {after : Missed} {lead : List Part}

/-- An element without a label. -/
theorem TypeTaken.unlabelled
    (h : TypeTaken text (.tuple start read :: outer) missed cs trees rest type token row after lead)
    (hpath : ∀ path, token.lexeme ≠ .path path) :
    ItemOutcome text .element (.tuple start read :: outer) missed cs := by
  have hlabel : Run rules (.rule .label) (trim rest) none := run_label_none (h.head.avoids hpath)
  have hvain : Part.label.beginsWith token.lexeme = false := by
    cases hlexeme : token.lexeme with
    | path path => exact absurd hlexeme (hpath path)
    | _ => rfl
  have hstart : (after.tried (lead ++ [.label]) token).start = offset text (trim rest) :=
    (start_tried_concat h.vain hvain).trans h.head.start
  have hlast : Furthest text (after.tried lead token).start (fun there => there = trim rest)
      (offset text (trim rest)) :=
    .only h.start_tried_le rfl fun there hthere => le_of_eq (congrArg (offset text) hthere)
  refine .taken _ (trim rest) ⟨type, none⟩ token row (after.tried (lead ++ [.label]) token)
    (run_element_of_none h.run hlabel) (by rw [trim_trim]; exact h.head) ?_ ?_ ?_
    ((trim_suffix rest).trans h.suffix)
  · rw [h.read, stepAfterType_tuple type hpath]
    rfl
  · rw [hstart]
    refine h.furthest.append hlast fun there => ?_
    rw [fails_optional_of_some rfl h.run, fails_label_iff]
    exact or_congr Iff.rfl ⟨fun hthere => hthere.2, fun hthere => ⟨hlabel, hthere⟩⟩
  · rw [hstart, trim_trim]

/-- An element with a label. -/
theorem TypeTaken.labelled
    (h : TypeTaken text (.tuple start read :: outer) missed cs trees rest type token row after lead)
    {path : String} (hlexeme : token.lexeme = .path path) (hident : isIdent path = true) :
    ItemOutcome text .element (.tuple start read :: outer) missed cs := by
  obtain ⟨more, htrim, hpath, hstop, -, rfl⟩ := h.head.of_path hlexeme
  have hname : Identifier path.toList := hpath.identifier (by simpa [isIdent] using hident)
  have hmore : more <:+ trim rest := ⟨path.toList, htrim.symm⟩
  have hsuffix : more <:+ text := hmore.trans ((trim_suffix rest).trans h.suffix)
  obtain ⟨next, tokens, hnext, hrow⟩ := exists_head hsuffix
  refine .taken _ more ⟨type, some ⟨path, token.span⟩⟩ next tokens (after.tried lead token)
    (run_element_of_label h.run hname htrim hstop.avoids) hnext ?_
    (h.furthest.congr fun there => ?_) ?_ hsuffix
  · have hfits : Part.label.beginsWith token.lexeme = true := by
      rw [hlexeme]
      rfl
    rw [h.read, stepAfterType_path type hlexeme, if_pos hident, follow, hrow, readFrom_cons,
      partAfterType, tried_append_of_begins h.vain hfits]
    rfl
  · rw [fails_optional_of_some rfl h.run, htrim]
    exact or_iff_left (not_fails_label hname hstop.avoids)
  · exact Nat.le_trans h.start_tried_le (offset_le ((trim_suffix more).trans hmore))

/-- The label is the first identifier of the path, and a dot comes after it. -/
theorem TypeTaken.dotted
    (h : TypeTaken text (.tuple start read :: outer) missed cs trees rest type token row after lead)
    {path : String} (hlexeme : token.lexeme = .path path) (hident : isIdent path = false) :
    ItemOutcome text .element (.tuple start read :: outer) missed cs := by
  obtain ⟨more, htrim, hpath, -, -, -⟩ := h.head.of_path hlexeme
  obtain ⟨first, others, hfirst, heq⟩ := hpath.exists_first hident
  rw [heq, List.append_assoc] at htrim
  have hmore : Avoids isIdentRest ('.' :: others ++ more) := by
    rintro _ ⟨⟩
    decide
  refine .stuck (after.tried lead token) ?_ (h.furthest.congr fun there => ?_)
    fun trees last hsome => ?_
  · have hfits : Part.label.beginsWith token.lexeme = true := by
      rw [hlexeme]
      rfl
    rw [h.read, stepAfterType_path type hlexeme, if_neg (by simp [hident]), follow,
      partAfterType, tried_append_of_begins h.vain hfits]
  · rw [fails_optional_of_some rfl h.run, htrim]
    exact or_iff_left (not_fails_label hfirst hmore)
  · obtain ⟨-, rfl⟩ := Prod.mk.inj (Option.some.inj
      ((run_element_of_label h.run hfirst htrim hmore).unique hsome))
    exact .inr rfl

end

/-- An element is a type, and a label where one stands. -/
theorem TypeOutcome.element {read : List Element}
    (h : TypeOutcome text (.tuple start read :: outer) missed cs) :
    ItemOutcome text .element (.tuple start read :: outer) missed cs := by
  cases h with
  | stuck refused hread hfurthest hstops =>
      obtain ⟨_ | ⟨trees, rest⟩, hrun⟩ := total_signature cs.length cs le_rfl
      · have hnone : Run rules (.rule .element) cs none := .ruleFail (.seqFirst hrun)
        refine .stuck refused hread (hfurthest.more (fun there hthere => ?_) fun there hthere => ?_)
          fun trees rest hsome => ?_
        · exact (fails_optional_of_none rfl rfl hrun).mpr (.inr hthere)
        · rcases (fails_optional_of_none rfl rfl hrun).mp hthere with rfl | hthere
          · exact .inr (hfurthest.offset_le (exists_fails_signature _))
          · exact .inl hthere
        · cases hnone.unique hsome
      · obtain ⟨more, hmore, hle⟩ := hstops trees rest hrun
        have hhead : (trim rest).head? = some '<' := hmore ▸ rfl
        have hlabel := run_label_none (avoids_start_of_head? hhead rfl)
        refine .stuck refused hread (hfurthest.more (fun there hthere => ?_) fun there hthere => ?_)
          fun others last hsome => ?_
        · exact (fails_optional_of_some rfl hrun).mpr (.inl hthere)
        · rcases (fails_optional_of_some rfl hrun).mp hthere with hthere | hthere
          · exact .inl hthere
          · rw [(fails_label_iff.mp hthere).2]
            exact .inr hle
        · obtain ⟨-, rfl⟩ := Prod.mk.inj (Option.some.inj
            ((run_element_of_none hrun hlabel).unique hsome))
          rw [trim_trim]
          exact .inl hhead
  | @taken trees rest type token row after lead htaken =>
      by_cases htoken : ∃ path, token.lexeme = .path path
      · obtain ⟨path, hlexeme⟩ := htoken
        cases hident : isIdent path with
        | true => exact htaken.labelled hlexeme hident
        | false => exact htaken.dotted hlexeme hident
      · exact htaken.unlabelled (not_exists.mp htoken)

end

end TypeNaming.Signature
