/-
# The grammar as parsing expressions

The grammar of signatures the way it is given to a parser generator: every rule is a
parsing expression, and between the parts of a rule that is not atomic any blanks are
passed over.

    main      =  blanks signature blanks end
    signature =  ( tuple | named ) nullable?
    nullable  =  `?`
    tuple     =  `(` element ( `,` element )+ `)`
    element   =  signature label?
    label     =  ident
    named     =  path type_args?
    type_args =  `<` signature ( `,` signature )* `>`
    path      =  ident ( `.` ident )*                          (atomic)
    ident     =  ( letter | `_` ) ( letter | digit | `_` )*    (atomic)

There is one lemma for each rule that says what an attempt at it leaves behind, and
`total_main`, that an attempt always comes to an end.
-/
import Mathlib.Data.List.TakeWhile
import TypeNaming.Proofs.Grammar.Lexis
import TypeNaming.Proofs.Grammar.Peg

namespace TypeNaming.Signature

open Peg (Expr ParseTree Grammar Run Total Consumes)

/-! ## The rules -/

/-- The rules that leave something in the tree. -/
inductive Rule where
  | signature | nullable | tuple | element | label | named | typeArgs | path | ident

/-- A single character. -/
def literal (c : Char) : Expr Rule := .char fun d => d == c

/-- Any number of blanks. -/
def blanks : Expr Rule := .star (.char isSpace)

/-- One part after the other, with blanks between them. -/
def andThen (first second : Expr Rule) : Expr Rule := .seq first (.seq blanks second)

/-- Any number of times, with blanks between them. -/
def many (e : Expr Rule) : Expr Rule := .option (.seq e (.star (.seq blanks e)))

/-- At least once, with blanks between them. -/
def many1 (e : Expr Rule) : Expr Rule := andThen e (many e)

/-- A comma and an item after it. -/
def commaThen (item : Rule) : Expr Rule := andThen (literal ',') (.rule item)

/-- The expression of a rule. -/
def Rule.body : Rule → Expr Rule
  | .signature => andThen (.choice (.rule .tuple) (.rule .named)) (.option (.rule .nullable))
  | .nullable => literal '?'
  | .tuple =>
    andThen (literal '(') (andThen (.rule .element)
      (andThen (many1 (commaThen .element)) (literal ')')))
  | .element => andThen (.rule .signature) (.option (.rule .label))
  | .label => .rule .ident
  | .named => andThen (.rule .path) (.option (.rule .typeArgs))
  | .typeArgs =>
    andThen (literal '<') (andThen (.rule .signature)
      (andThen (many (commaThen .signature)) (literal '>')))
  | .path => .seq (.rule .ident) (.star (.seq (literal '.') (.rule .ident)))
  | .ident => .seq (.char isIdentStart) (.star (.char isIdentRest))

/-- Whether the rule keeps its text. -/
def Rule.isAtomic : Rule → Bool
  | .path => true
  | .ident => true
  | _ => false

/-- The grammar of signatures. -/
def rules : Grammar Rule := ⟨Rule.body, Rule.isAtomic⟩

/-- A whole text. -/
def main : Expr Rule := .seq blanks (.seq (.rule .signature) (.seq blanks .endOfText))

/-- The grammar finds the tree in the text. -/
def Accepts (text : List Char) (tree : ParseTree Rule) : Prop :=
  Run rules main text (some ([tree], []))

/-! ## Blanks -/

/-- The text after its first blanks. -/
def trim (cs : List Char) : List Char := cs.dropWhile isSpace

theorem isSpace_of_start {c : Char} (h : isIdentStart c = true) : isSpace c = false := by
  refine Bool.eq_false_iff.mpr fun hspace => ?_
  have := opening_of_space hspace
  rw [opening_eq_path_iff.mpr h] at this
  cases this

theorem isSpace_of_punctuation {c : Char} {lexeme : Lexeme} (h : Punctuation c lexeme) :
    isSpace c = false := by
  cases h <;> rfl

theorem trim_cons {c : Char} (h : isSpace c = false) (cs : List Char) :
    trim (c :: cs) = c :: cs := by
  simp [trim, h]

theorem trim_suffix (cs : List Char) : trim cs <:+ cs := List.dropWhile_suffix _

theorem IsPath.trim {cs : List Char} (h : IsPath cs) (rest : List Char) :
    trim (cs ++ rest) = cs ++ rest := by
  obtain ⟨first, more, rfl, hfirst, -⟩ := h.starts
  exact trim_cons (isSpace_of_start hfirst) _

theorem length_trim_le (cs : List Char) : (trim cs).length ≤ cs.length :=
  (trim_suffix cs).length_le

theorem length_trim_lt (c : Char) (cs : List Char) : (trim cs).length < (c :: cs).length :=
  Nat.lt_succ_of_le (length_trim_le cs)

theorem run_blanks (cs : List Char) : Run rules blanks cs (some ([], trim cs)) :=
  Peg.run_star_char isSpace cs

theorem run_blanks_some_iff {cs rest : List Char} {trees : List (ParseTree Rule)} :
    Run rules blanks cs (some (trees, rest)) ↔ trees = [] ∧ rest = trim cs := by
  constructor
  · intro h
    obtain ⟨rfl, rfl⟩ := Prod.mk.inj (Option.some.inj (h.unique (run_blanks cs)))
    exact ⟨rfl, rfl⟩
  · rintro ⟨rfl, rfl⟩
    exact run_blanks cs

theorem run_andThen_iff {first second : Expr Rule} {cs rest : List Char}
    {trees : List (ParseTree Rule)} :
    Run rules (andThen first second) cs (some (trees, rest)) ↔
      ∃ front mid back, Run rules first cs (some (front, mid)) ∧
        Run rules second (trim mid) (some (back, rest)) ∧ trees = front ++ back := by
  constructor
  · intro h
    obtain ⟨front, mid, _, hfirst, hsecond, rfl⟩ := Peg.run_seq_some_iff.mp h
    obtain ⟨_, _, back, hblanks, hsecond, rfl⟩ := Peg.run_seq_some_iff.mp hsecond
    obtain ⟨rfl, rfl⟩ := run_blanks_some_iff.mp hblanks
    exact ⟨front, mid, back, hfirst, hsecond, rfl⟩
  · rintro ⟨front, mid, back, hfirst, hsecond, rfl⟩
    exact .seq hfirst (.seq (run_blanks mid) hsecond)

theorem run_literal_some_iff {c : Char} {cs rest : List Char} {trees : List (ParseTree Rule)} :
    Run rules (literal c) cs (some (trees, rest)) ↔ cs = c :: rest ∧ trees = [] := by
  rw [literal, Peg.run_char_some_iff]
  simp

theorem run_literal_none_iff {c : Char} {cs : List Char} :
    Run rules (literal c) cs none ↔ cs.head? ≠ some c := by
  rw [literal, Peg.run_char_none_iff]
  cases cs <;> simp

theorem run_main_iff {text rest : List Char} {trees : List (ParseTree Rule)} :
    Run rules main text (some (trees, rest)) ↔
      ∃ after, Run rules (.rule .signature) (trim text) (some (trees, after)) ∧
        trim after = [] ∧ rest = [] := by
  constructor
  · intro h
    obtain ⟨_, _, _, hbefore, hwhole, rfl⟩ := Peg.run_seq_some_iff.mp h
    obtain ⟨rfl, rfl⟩ := run_blanks_some_iff.mp hbefore
    obtain ⟨trees, after, _, hsignature, htail, rfl⟩ := Peg.run_seq_some_iff.mp hwhole
    obtain ⟨_, _, _, hafter, hend, rfl⟩ := Peg.run_seq_some_iff.mp htail
    obtain ⟨rfl, rfl⟩ := run_blanks_some_iff.mp hafter
    obtain ⟨hnil, rfl, rfl⟩ := Peg.run_endOfText_iff.mp hend
    exact ⟨after, by simpa using hsignature, hnil, rfl⟩
  · rintro ⟨after, hsignature, hnil, rfl⟩
    have hend : Run rules .endOfText (trim after) (some ([], [])) :=
      Peg.run_endOfText_iff.mpr ⟨hnil, rfl, rfl⟩
    have htail := Run.seq hsignature (.seq (run_blanks after) hend)
    rw [List.append_nil, List.append_nil] at htail
    exact .seq (run_blanks text) htail

/-! ## Identifiers and paths -/

/-- The text does not begin with a character of the class. -/
def Avoids (accepts : Char → Bool) (cs : List Char) : Prop :=
  ∀ c ∈ cs.head?, accepts c = false

theorem avoids_dropWhile (accepts : Char → Bool) (cs : List Char) :
    Avoids accepts (cs.dropWhile accepts) := by
  intro c hc
  have := List.head?_dropWhile_not accepts cs
  rwa [Option.mem_def.mp hc] at this

theorem dropWhile_of_avoids {accepts : Char → Bool} {cs : List Char} (h : Avoids accepts cs) :
    cs.dropWhile accepts = cs := by
  cases cs with
  | nil => rfl
  | cons c cs => rw [List.dropWhile_cons_of_neg (by simp [h c rfl])]

theorem Stops.avoids {cs : List Char} (h : Stops cs) : Avoids isIdentRest cs := by
  cases cs with
  | nil => intro c hc; cases hc
  | cons c cs =>
      intro d hd
      obtain rfl : c = d := by simpa using hd
      have : goesOn c cs = false := h
      simp only [goesOn, Bool.or_eq_false_iff] at this
      exact this.1

theorem Identifier.undotted {cs : List Char} (h : Identifier cs) : '.' ∉ cs := by
  obtain ⟨first, rest, rfl, hfirst, hrest⟩ := h
  rintro (_ | ⟨_, hmem⟩)
  · exact absurd hfirst (by decide)
  · exact absurd (hrest '.' hmem) (by decide)

theorem run_ident_iff {cs rest : List Char} {trees : List (ParseTree Rule)} :
    Run rules (.rule .ident) cs (some (trees, rest)) ↔
      ∃ text, Identifier text ∧ cs = text ++ rest ∧ Avoids isIdentRest rest ∧
        trees = [.leaf .ident text] := by
  rw [Peg.run_leaf_iff rfl]
  constructor
  · rintro ⟨text, inner, rfl, hrun, rfl⟩
    obtain ⟨_, mid, _, hstart, hstar, -⟩ := Peg.run_seq_some_iff.mp hrun
    obtain ⟨c, hc, htext, -⟩ := Peg.run_char_some_iff.mp hstart
    obtain ⟨-, rfl⟩ := Prod.mk.inj (Option.some.inj
      ((Peg.run_star_char isIdentRest mid).unique hstar))
    have heq : text = c :: mid.takeWhile isIdentRest := by
      refine List.append_cancel_right (htext.trans ?_)
      rw [List.cons_append, List.takeWhile_append_dropWhile]
    have hident : Identifier text := ⟨c, _, heq, hc, fun d hd => List.mem_takeWhile_imp hd⟩
    exact ⟨text, hident, rfl, avoids_dropWhile _ _, rfl⟩
  · rintro ⟨text, ⟨c, more, rfl, hc, hmore⟩, rfl, hrest, rfl⟩
    refine ⟨c :: more, [], rfl, ?_, rfl⟩
    have hdrop : (more ++ rest).dropWhile isIdentRest = rest := by
      rw [List.dropWhile_append_of_pos hmore, dropWhile_of_avoids hrest]
    have := Peg.run_star_char (g := rules) isIdentRest (more ++ rest)
    rw [hdrop] at this
    exact .seq (.char hc) this

theorem run_ident_none {cs : List Char} (h : Avoids isIdentStart cs) :
    Run rules (.rule .ident) cs none :=
  .ruleFail (.seqFirst (Peg.run_char_none_iff.mpr h))

theorem avoids_of_ident_none {cs : List Char} (h : Run rules (.rule .ident) cs none) :
    Avoids isIdentStart cs := by
  cases h with
  | ruleFail h =>
      cases h with
      | seqFirst h => exact Peg.run_char_none_iff.mp h
      | @seqSecond _ _ _ mid _ _ h =>
          cases (Peg.run_star_char isIdentRest mid).unique h

/-- A dot and an identifier. -/
def dotIdent : Expr Rule := .seq (literal '.') (.rule .ident)

theorem run_dotIdent_none_iff {cs : List Char} (h : Avoids isIdentRest cs) :
    Run rules dotIdent cs none ↔ Stops cs := by
  cases cs with
  | nil => exact ⟨fun _ => trivial, fun _ => .seqFirst .charEnd⟩
  | cons c cs =>
      have hc : isIdentRest c = false := h c rfl
      constructor
      · intro hrun
        refine Bool.eq_false_iff.mpr fun hgoes => ?_
        rcases goesOn_iff.mp hgoes with hrest | ⟨rfl, d, ds, rfl, hd⟩
        · rw [hc] at hrest
          cases hrest
        · cases hrun with
          | seqFirst hdot =>
              exact run_literal_none_iff.mp hdot rfl
          | seqSecond hdot hident =>
              obtain ⟨heq, -⟩ := run_literal_some_iff.mp hdot
              obtain ⟨-, rfl⟩ := List.cons.inj heq
              have := avoids_of_ident_none hident d rfl
              rw [hd] at this
              cases this
      · intro hstop
        by_cases hdot : c = '.'
        · obtain rfl := hdot
          refine .seqSecond (run_literal_some_iff.mpr ⟨rfl, rfl⟩) (run_ident_none fun d hd => ?_)
          refine Bool.eq_false_iff.mpr fun hstart => ?_
          obtain ⟨ds, rfl⟩ : ∃ ds, cs = d :: ds := ⟨cs.tail, (List.cons_head?_tail hd).symm⟩
          have hgoes : goesOn '.' (d :: ds) = true :=
            goesOn_iff.mpr (Or.inr ⟨rfl, d, ds, rfl, hstart⟩)
          rw [show goesOn '.' (d :: ds) = false from hstop] at hgoes
          cases hgoes
        · refine .seqFirst (run_literal_none_iff.mpr ?_)
          simpa using hdot

/-- The dotted rest of a path, after an identifier. -/
theorem dottedRest_of_run {cs rest : List Char} {trees : List (ParseTree Rule)}
    (h : Run rules (.star dotIdent) cs (some (trees, rest))) (hcs : Avoids isIdentRest cs) :
    ∃ more, cs = more ++ rest ∧ Stops rest ∧
      ∀ first, Identifier first → IsPath (first ++ more) := by
  revert hcs
  refine Peg.star_induction (P := fun cs _ rest => Avoids isIdentRest cs → ∃ more,
    cs = more ++ rest ∧ Stops rest ∧ ∀ first, Identifier first → IsPath (first ++ more)) ?_ ?_ h
  · intro cs hdone hcs
    refine ⟨[], rfl, (run_dotIdent_none_iff hcs).mp hdone, fun first hfirst => ?_⟩
    simpa using IsPath.ident hfirst
  · intro cs mid rest front back hfront ih _
    obtain ⟨_, _, _, hdot, hident, -⟩ := Peg.run_seq_some_iff.mp hfront
    obtain ⟨rfl, -⟩ := run_literal_some_iff.mp hdot
    obtain ⟨text, htext, rfl, hmid, -⟩ := run_ident_iff.mp hident
    obtain ⟨more, rfl, hstop, hpath⟩ := ih hmid
    refine ⟨'.' :: (text ++ more), by simp, hstop, fun first hfirst => ?_⟩
    exact .dotted hfirst (hpath text htext)

theorem IsPath.run_dottedRest {cs rest : List Char} (h : IsPath cs) (hrest : Stops rest) :
    ∃ first more trees, Identifier first ∧ cs = first ++ more ∧
      Avoids isIdentRest (more ++ rest) ∧
      Run rules (.star dotIdent) (more ++ rest) (some (trees, rest)) := by
  induction h with
  | @ident cs h =>
      refine ⟨cs, [], [], h, by simp, hrest.avoids, .starDone ?_⟩
      exact (run_dotIdent_none_iff hrest.avoids).mpr hrest
  | @dotted first cs h _ ih =>
      obtain ⟨next, more, trees, hnext, rfl, havoids, hrun⟩ := ih
      have hident : Run rules (.rule .ident) (next ++ (more ++ rest))
          (some ([.leaf .ident next], more ++ rest)) :=
        run_ident_iff.mpr ⟨next, hnext, rfl, havoids, rfl⟩
      have hround : Run rules dotIdent ('.' :: (next ++ (more ++ rest)))
          (some ([.leaf .ident next], more ++ rest)) :=
        .seq (run_literal_some_iff.mpr ⟨rfl, rfl⟩) hident
      have hwhole := Run.starMore hround hrun
      rw [← List.append_assoc, ← List.cons_append] at hwhole
      refine ⟨first, '.' :: (next ++ more), _, h, rfl, ?_, hwhole⟩
      intro c hc
      obtain rfl : '.' = c := by simpa using hc
      decide

theorem run_path_iff {cs rest : List Char} {trees : List (ParseTree Rule)} :
    Run rules (.rule .path) cs (some (trees, rest)) ↔
      ∃ text, IsPath text ∧ cs = text ++ rest ∧ Stops rest ∧ trees = [.leaf .path text] := by
  rw [Peg.run_leaf_iff rfl]
  constructor
  · rintro ⟨text, inner, rfl, hrun, rfl⟩
    obtain ⟨_, mid, _, hident, hstar, -⟩ := Peg.run_seq_some_iff.mp hrun
    obtain ⟨first, hfirst, htext, hmid, -⟩ := run_ident_iff.mp hident
    obtain ⟨more, rfl, hstop, hpath⟩ := dottedRest_of_run hstar hmid
    rw [← List.append_assoc] at htext
    exact ⟨text, List.append_cancel_right htext ▸ hpath first hfirst, rfl, hstop, rfl⟩
  · rintro ⟨text, htext, rfl, hstop, rfl⟩
    obtain ⟨first, more, inner, hfirst, rfl, havoids, hrun⟩ := htext.run_dottedRest hstop
    have hident : Run rules (.rule .ident) (first ++ more ++ rest) (some (_, more ++ rest)) :=
      run_ident_iff.mpr ⟨first, hfirst, by simp, havoids, rfl⟩
    exact ⟨first ++ more, _, rfl, .seq hident hrun, rfl⟩

/-! ## What each rule does -/

theorem run_nullable_iff {cs rest : List Char} {trees : List (ParseTree Rule)} :
    Run rules (.rule .nullable) cs (some (trees, rest)) ↔
      cs = '?' :: rest ∧ trees = [.node .nullable []] := by
  rw [Peg.run_node_iff rfl]
  constructor
  · rintro ⟨inner, hrun, rfl⟩
    obtain ⟨rfl, rfl⟩ := run_literal_some_iff.mp hrun
    exact ⟨rfl, rfl⟩
  · rintro ⟨rfl, rfl⟩
    exact ⟨[], run_literal_some_iff.mpr ⟨rfl, rfl⟩, rfl⟩

theorem run_label_iff {cs rest : List Char} {trees : List (ParseTree Rule)} :
    Run rules (.rule .label) cs (some (trees, rest)) ↔
      ∃ text, Identifier text ∧ cs = text ++ rest ∧ Avoids isIdentRest rest ∧
        trees = [.node .label [.leaf .ident text]] := by
  rw [Peg.run_node_iff rfl]
  constructor
  · rintro ⟨inner, hrun, rfl⟩
    obtain ⟨text, htext, rfl, hrest, rfl⟩ := run_ident_iff.mp hrun
    exact ⟨text, htext, rfl, hrest, rfl⟩
  · rintro ⟨text, htext, rfl, hrest, rfl⟩
    exact ⟨_, run_ident_iff.mpr ⟨text, htext, rfl, hrest, rfl⟩, rfl⟩

theorem run_element_iff {cs rest : List Char} {trees : List (ParseTree Rule)} :
    Run rules (.rule .element) cs (some (trees, rest)) ↔
      ∃ mid front back, Run rules (.rule .signature) cs (some (front, mid)) ∧
        Run rules (.option (.rule .label)) (trim mid) (some (back, rest)) ∧
        trees = [.node .element (front ++ back)] := by
  rw [Peg.run_node_iff rfl]
  constructor
  · rintro ⟨inner, hrun, rfl⟩
    obtain ⟨front, mid, back, htype, hlabel, rfl⟩ := run_andThen_iff.mp hrun
    exact ⟨mid, front, back, htype, hlabel, rfl⟩
  · rintro ⟨mid, front, back, htype, hlabel, rfl⟩
    exact ⟨_, run_andThen_iff.mpr ⟨front, mid, back, htype, hlabel, rfl⟩, rfl⟩

theorem run_tuple_iff {cs rest : List Char} {trees : List (ParseTree Rule)} :
    Run rules (.rule .tuple) cs (some (trees, rest)) ↔
      ∃ inside after more last front second others, cs = '(' :: inside ∧
        Run rules (.rule .element) (trim inside) (some (front, after)) ∧
        Run rules (commaThen .element) (trim after) (some (second, more)) ∧
        Run rules (many (commaThen .element)) (trim more) (some (others, last)) ∧
        trim last = ')' :: rest ∧ trees = [.node .tuple (front ++ (second ++ others))] := by
  rw [Peg.run_node_iff rfl]
  constructor
  · rintro ⟨inner, hbody, rfl⟩
    obtain ⟨_, inside, _, hopen, hfrom, rfl⟩ := run_andThen_iff.mp hbody
    obtain ⟨rfl, rfl⟩ := run_literal_some_iff.mp hopen
    obtain ⟨front, after, _, hfirst, hrow, rfl⟩ := run_andThen_iff.mp hfrom
    obtain ⟨_, last, _, hothers, hclose, rfl⟩ := run_andThen_iff.mp hrow
    obtain ⟨second, more, others, hsecond, hmany, rfl⟩ := run_andThen_iff.mp hothers
    obtain ⟨hlast, rfl⟩ := run_literal_some_iff.mp hclose
    exact ⟨inside, after, more, last, front, second, others, rfl, hfirst, hsecond, hmany, hlast,
      by simp⟩
  · rintro ⟨inside, after, more, last, front, second, others, rfl, hfirst, hsecond, hothers, hlast,
      rfl⟩
    have hrow : Run rules (many1 (commaThen .element)) (trim after)
        (some (second ++ others, last)) :=
      run_andThen_iff.mpr ⟨_, _, _, hsecond, hothers, rfl⟩
    have hclose : Run rules (literal ')') (trim last) (some ([], rest)) :=
      run_literal_some_iff.mpr ⟨hlast, rfl⟩
    have hopen : Run rules (literal '(') ('(' :: inside) (some ([], inside)) :=
      run_literal_some_iff.mpr ⟨rfl, rfl⟩
    refine ⟨_, run_andThen_iff.mpr ⟨_, _, _, hopen, run_andThen_iff.mpr ⟨_, _, _, hfirst,
      run_andThen_iff.mpr ⟨_, _, _, hrow, hclose, rfl⟩, rfl⟩, rfl⟩, by simp⟩

theorem run_typeArgs_iff {cs rest : List Char} {trees : List (ParseTree Rule)} :
    Run rules (.rule .typeArgs) cs (some (trees, rest)) ↔
      ∃ inside after last front others, cs = '<' :: inside ∧
        Run rules (.rule .signature) (trim inside) (some (front, after)) ∧
        Run rules (many (commaThen .signature)) (trim after) (some (others, last)) ∧
        trim last = '>' :: rest ∧ trees = [.node .typeArgs (front ++ others)] := by
  rw [Peg.run_node_iff rfl]
  constructor
  · rintro ⟨inner, hbody, rfl⟩
    obtain ⟨_, inside, _, hopen, hfrom, rfl⟩ := run_andThen_iff.mp hbody
    obtain ⟨rfl, rfl⟩ := run_literal_some_iff.mp hopen
    obtain ⟨front, after, _, hfirst, hrow, rfl⟩ := run_andThen_iff.mp hfrom
    obtain ⟨others, last, _, hothers, hclose, rfl⟩ := run_andThen_iff.mp hrow
    obtain ⟨hlast, rfl⟩ := run_literal_some_iff.mp hclose
    exact ⟨inside, after, last, front, others, rfl, hfirst, hothers, hlast, by simp⟩
  · rintro ⟨inside, after, last, front, others, rfl, hfirst, hothers, hlast, rfl⟩
    have hclose : Run rules (literal '>') (trim last) (some ([], rest)) :=
      run_literal_some_iff.mpr ⟨hlast, rfl⟩
    have hopen : Run rules (literal '<') ('<' :: inside) (some ([], inside)) :=
      run_literal_some_iff.mpr ⟨rfl, rfl⟩
    refine ⟨_, run_andThen_iff.mpr ⟨_, _, _, hopen, run_andThen_iff.mpr ⟨_, _, _, hfirst,
      run_andThen_iff.mpr ⟨_, _, _, hothers, hclose, rfl⟩, rfl⟩, rfl⟩, by simp⟩

theorem run_named_iff {cs rest : List Char} {trees : List (ParseTree Rule)} :
    Run rules (.rule .named) cs (some (trees, rest)) ↔
      ∃ text after args, IsPath text ∧ cs = text ++ after ∧ Stops after ∧
        Run rules (.option (.rule .typeArgs)) (trim after) (some (args, rest)) ∧
        trees = [.node .named (.leaf .path text :: args)] := by
  rw [Peg.run_node_iff rfl]
  constructor
  · rintro ⟨inner, hbody, rfl⟩
    obtain ⟨_, after, args, hpath, hargs, rfl⟩ := run_andThen_iff.mp hbody
    obtain ⟨text, htext, rfl, hstop, rfl⟩ := run_path_iff.mp hpath
    exact ⟨text, after, args, htext, rfl, hstop, hargs, rfl⟩
  · rintro ⟨text, after, args, htext, rfl, hstop, hargs, rfl⟩
    have hpath : Run rules (.rule .path) (text ++ after) (some ([.leaf .path text], after)) :=
      run_path_iff.mpr ⟨text, htext, rfl, hstop, rfl⟩
    exact ⟨_, run_andThen_iff.mpr ⟨_, _, _, hpath, hargs, rfl⟩, rfl⟩

theorem run_signature_iff {cs rest : List Char} {trees : List (ParseTree Rule)} :
    Run rules (.rule .signature) cs (some (trees, rest)) ↔
      ∃ mid base mark, (Run rules (.rule .tuple) cs (some (base, mid)) ∨
          Run rules (.rule .tuple) cs none ∧ Run rules (.rule .named) cs (some (base, mid))) ∧
        Run rules (.option (.rule .nullable)) (trim mid) (some (mark, rest)) ∧
        trees = [.node .signature (base ++ mark)] := by
  rw [Peg.run_node_iff rfl]
  constructor
  · rintro ⟨inner, hbody, rfl⟩
    obtain ⟨base, mid, mark, hbase, hmark, rfl⟩ := run_andThen_iff.mp hbody
    exact ⟨mid, base, mark, Peg.run_choice_some_iff.mp hbase, hmark, rfl⟩
  · rintro ⟨mid, base, mark, hbase, hmark, rfl⟩
    exact ⟨_, run_andThen_iff.mpr ⟨_, _, _, Peg.run_choice_some_iff.mpr hbase, hmark, rfl⟩, rfl⟩

/-! ## Every text has an outcome -/

theorem consumes_char (accepts : Char → Bool) : Consumes rules (.char accepts) := by
  intro cs rest trees h
  obtain ⟨c, -, rfl, -⟩ := Peg.run_char_some_iff.mp h
  simp

theorem consumes_seq {first second : Expr Rule} (h : Consumes rules first) :
    Consumes rules (.seq first second) := by
  intro cs rest trees hrun
  obtain ⟨_, mid, _, hfirst, hsecond, -⟩ := Peg.run_seq_some_iff.mp hrun
  exact Nat.lt_of_le_of_lt (hsecond.suffix rfl).length_le (h hfirst)

theorem consumes_round (item : Rule) : Consumes rules (.seq blanks (commaThen item)) := by
  intro cs rest trees hrun
  obtain ⟨_, _, _, hblanks, hround, -⟩ := Peg.run_seq_some_iff.mp hrun
  obtain ⟨-, rfl⟩ := run_blanks_some_iff.mp hblanks
  exact Nat.lt_of_lt_of_le (consumes_seq (consumes_char _) hround) (length_trim_le cs)

theorem total_blanks (limit : Nat) : Total rules blanks limit :=
  fun cs _ => ⟨_, run_blanks cs⟩

theorem total_literal (c : Char) (limit : Nat) : Total rules (literal c) limit :=
  Peg.total_char _ limit

theorem total_andThen {first second : Expr Rule} {limit : Nat} (hfirst : Total rules first limit)
    (hsecond : Total rules second limit) : Total rules (andThen first second) limit :=
  Peg.total_seq hfirst (Peg.total_seq (total_blanks limit) hsecond)

theorem total_literal_andThen (c : Char) {second : Expr Rule} {limit : Nat}
    (h : ∀ shorter < limit, Total rules second shorter) :
    Total rules (andThen (literal c) second) limit :=
  Peg.total_seq_char fun shorter hlt => Peg.total_seq (total_blanks shorter) (h shorter hlt)

theorem total_ident (limit : Nat) : Total rules (.rule .ident) limit :=
  Peg.total_rule (Peg.total_seq (Peg.total_char _ limit)
    (Peg.total_star (Peg.total_char _ limit) (consumes_char _)))

theorem total_path (limit : Nat) : Total rules (.rule .path) limit := by
  have hround : Total rules dotIdent limit :=
    Peg.total_seq (total_literal '.' limit) (total_ident limit)
  exact Peg.total_rule (Peg.total_seq (total_ident limit)
    (Peg.total_star hround (consumes_seq (consumes_char _))))

theorem total_commaThen {item : Rule} {limit : Nat} (h : Total rules (.rule item) limit) :
    Total rules (commaThen item) limit :=
  total_andThen (total_literal ',' limit) h

theorem total_many {item : Rule} {limit : Nat} (h : Total rules (.rule item) limit) :
    Total rules (many (commaThen item)) limit := by
  have hround := Peg.total_seq (total_blanks limit) (total_commaThen h)
  exact Peg.total_option (Peg.total_seq (total_commaThen h)
    (Peg.total_star hround (consumes_round item)))

theorem total_element {limit : Nat} (h : Total rules (.rule .signature) limit) :
    Total rules (.rule .element) limit :=
  Peg.total_rule (total_andThen h (Peg.total_option (Peg.total_rule (total_ident limit))))

theorem total_tuple {limit : Nat}
    (h : ∀ shorter < limit, Total rules (.rule .signature) shorter) :
    Total rules (.rule .tuple) limit := by
  refine Peg.total_rule (total_literal_andThen '(' fun shorter hlt => ?_)
  have helement := total_element (h shorter hlt)
  have hothers := total_andThen (total_commaThen helement) (total_many helement)
  exact total_andThen helement (total_andThen hothers (total_literal ')' shorter))

theorem total_typeArgs {limit : Nat}
    (h : ∀ shorter < limit, Total rules (.rule .signature) shorter) :
    Total rules (.rule .typeArgs) limit := by
  refine Peg.total_rule (total_literal_andThen '<' fun shorter hlt => ?_)
  have hsignature := h shorter hlt
  exact total_andThen hsignature (total_andThen (total_many hsignature) (total_literal '>' shorter))

theorem total_signature (limit : Nat) : Total rules (.rule .signature) limit := by
  induction limit using Nat.strongRecOn with
  | ind limit ih =>
      have hnamed : Total rules (.rule .named) limit :=
        Peg.total_rule (total_andThen (total_path limit) (Peg.total_option (total_typeArgs ih)))
      have hmark : Total rules (.rule .nullable) limit :=
        Peg.total_rule (total_literal '?' limit)
      exact Peg.total_rule (total_andThen (Peg.total_choice (total_tuple ih) hnamed)
        (Peg.total_option hmark))

/-- The grammar has an outcome on every text. -/
theorem total_main (limit : Nat) : Total rules main limit :=
  Peg.total_seq (total_blanks limit) (Peg.total_seq (total_signature limit)
    (Peg.total_seq (total_blanks limit) (Peg.total_endOfText limit)))

end TypeNaming.Signature
