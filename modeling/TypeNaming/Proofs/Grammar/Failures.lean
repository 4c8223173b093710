/-
# Where the rules fail

In reading a text the greedy grammar tries many rules in vain, also in texts that it accepts.
`Fails e cs there` says that in the attempt at `e` on the text `cs` some rule fails with
`there` left of it.  Failed attempts that are undone count like the others; a character that is
not there does not count, only the rule that wanted it; and neither does what happens inside a
path, which is atomic.

A text that is refused is refused at the furthest of these places (`FurthestFailure`).

There is one lemma for each form of expression.  A sequence whose first part is known to
succeed, or to fail, is the form that is needed most.
-/
import TypeNaming.Proofs.Grammar.Brackets
import TypeNaming.Proofs.Grammar.Rests

namespace TypeNaming.Signature

open Peg (Expr ParseTree Run Tries)

/-- The expressions whose failures count: the rules and the end of the text.  An identifier is
tried inside a path, and as the whole of a label, which fails where the identifier does. -/
def reported : Expr Rule → Bool
  | .endOfText => true
  | .rule .ident => false
  | .rule _ => true
  | _ => false

/-- In the attempt at the expression on the text a rule fails where `there` is left. -/
def Fails (e : Expr Rule) (cs there : List Char) : Prop :=
  ∃ count e', reported e' = true ∧ Tries rules Rule.opens e cs count e' there ∧
    Run rules e' there none

/-- Some rule fails at the place, and none at a later one. -/
structure FurthestFailure (text there : List Char) : Prop where
  fails : Fails main text there
  last : ∀ other, Fails main text other → there <:+ other

/-! ## The forms of expression -/

section

variable {first second inner : Expr Rule} {cs mid there : List Char}
  {trees : List (ParseTree Rule)}

theorem not_fails_char (accepts : Char → Bool) (cs there : List Char) :
    ¬ Fails (.char accepts) cs there := by
  rintro ⟨_, _, hreported, htries, -⟩
  cases htries with
  | here => cases hreported

theorem fails_endOfText_iff :
    Fails .endOfText cs there ↔ Run rules .endOfText cs none ∧ there = cs := by
  constructor
  · rintro ⟨_, _, -, htries, hrun⟩
    cases htries with
    | here => exact ⟨hrun, rfl⟩
  · rintro ⟨hrun, rfl⟩
    exact ⟨0, _, rfl, .here, hrun⟩

theorem fails_seq_iff : Fails (.seq first second) cs there ↔
    Fails first cs there ∨
      ∃ trees mid, Run rules first cs (some (trees, mid)) ∧ Fails second mid there := by
  constructor
  · rintro ⟨count, e, hreported, htries, hrun⟩
    cases htries with
    | here => cases hreported
    | first htries => exact .inl ⟨count, e, hreported, htries, hrun⟩
    | second hfirst htries => exact .inr ⟨_, _, hfirst, count, e, hreported, htries, hrun⟩
  · rintro (⟨count, e, hreported, htries, hrun⟩ | ⟨_, _, hfirst, count, e, hreported, htries, hrun⟩)
    · exact ⟨count, e, hreported, .first htries, hrun⟩
    · exact ⟨count, e, hreported, .second hfirst htries, hrun⟩

theorem fails_choice_iff : Fails (.choice first second) cs there ↔
    Fails first cs there ∨ Run rules first cs none ∧ Fails second cs there := by
  constructor
  · rintro ⟨count, e, hreported, htries, hrun⟩
    cases htries with
    | here => cases hreported
    | choiceFirst htries => exact .inl ⟨count, e, hreported, htries, hrun⟩
    | choiceSecond hfirst htries => exact .inr ⟨hfirst, count, e, hreported, htries, hrun⟩
  · rintro (⟨count, e, hreported, htries, hrun⟩ | ⟨hfirst, count, e, hreported, htries, hrun⟩)
    · exact ⟨count, e, hreported, .choiceFirst htries, hrun⟩
    · exact ⟨count, e, hreported, .choiceSecond hfirst htries, hrun⟩

theorem fails_option_iff : Fails (.option inner) cs there ↔ Fails inner cs there := by
  constructor
  · rintro ⟨count, e, hreported, htries, hrun⟩
    cases htries with
    | here => cases hreported
    | option htries => exact ⟨count, e, hreported, htries, hrun⟩
  · rintro ⟨count, e, hreported, htries, hrun⟩
    exact ⟨count, e, hreported, .option htries, hrun⟩

theorem fails_star_iff : Fails (.star inner) cs there ↔
    Fails inner cs there ∨
      ∃ trees mid, Run rules inner cs (some (trees, mid)) ∧ Fails (.star inner) mid there := by
  constructor
  · rintro ⟨count, e, hreported, htries, hrun⟩
    cases htries with
    | here => cases hreported
    | star htries => exact .inl ⟨count, e, hreported, htries, hrun⟩
    | round hinner htries => exact .inr ⟨_, _, hinner, count, e, hreported, htries, hrun⟩
  · rintro (⟨count, e, hreported, htries, hrun⟩ | ⟨_, _, hinner, count, e, hreported, htries, hrun⟩)
    · exact ⟨count, e, hreported, .star htries, hrun⟩
    · exact ⟨count, e, hreported, .round hinner htries, hrun⟩

/-- A rule fails where it is tried, or something in it fails. -/
theorem fails_rule_iff {name : Rule} : Fails (.rule name) cs there ↔
    (reported (.rule name) = true ∧ Run rules (.rule name) cs none ∧ there = cs) ∨
      Fails name.body cs there := by
  constructor
  · rintro ⟨count, e, hreported, htries, hrun⟩
    cases htries with
    | here => exact .inl ⟨hreported, hrun, rfl⟩
    | rule _ htries => exact .inr ⟨count, e, hreported, htries, hrun⟩
    | opening => cases hreported
    | inside _ hbody hc htries =>
        refine .inr ?_
        rw [show name.body = _ from hbody]
        exact fails_seq_iff.mpr (.inr ⟨_, _, .char hc, _, e, hreported, htries, hrun⟩)
  · rintro (⟨hreported, hrun, rfl⟩ | h)
    · exact ⟨0, _, hreported, .here, hrun⟩
    · cases hopens : name.opens with
      | false =>
          obtain ⟨count, e, hreported, htries, hrun⟩ := h
          exact ⟨count, e, hreported, .rule hopens htries, hrun⟩
      | true =>
          obtain ⟨bracket, inside, -, hbody, -⟩ := body_of_opens hopens
          rw [hbody] at h
          rcases fails_seq_iff.mp h with h | ⟨_, _, hbracket, count, e, hreported, htries, hrun⟩
          · exact absurd h (not_fails_char _ _ _)
          · obtain ⟨c, hc, rfl, -⟩ := Peg.run_char_some_iff.mp hbracket
            exact ⟨count + 1, e, hreported, .inside hopens hbody hc htries, hrun⟩

theorem not_fails_literal (c : Char) (cs there : List Char) : ¬ Fails (literal c) cs there :=
  not_fails_char _ cs there

theorem not_fails_star_char (accepts : Char → Bool) (cs there : List Char) :
    ¬ Fails (.star (.char accepts)) cs there := by
  rintro ⟨_, _, hreported, htries, -⟩
  generalize he : Expr.star (Expr.char accepts) = e at htries
  induction htries with
  | here =>
      subst he
      cases hreported
  | star htries =>
      obtain rfl := Expr.star.inj he
      cases htries with
      | here => cases hreported
  | round _ _ ih => exact ih hreported he
  | _ => cases he

theorem not_fails_ident (cs there : List Char) : ¬ Fails (.rule .ident) cs there := by
  intro h
  rcases fails_rule_iff.mp h with ⟨hreported, -⟩ | h
  · cases hreported
  · rcases fails_seq_iff.mp h with h | ⟨_, _, _, h⟩
    · exact not_fails_char _ _ _ h
    · exact not_fails_star_char _ _ _ h

/-! ## Sequences -/

theorem fails_andThen_of_some (h : Run rules first cs (some (trees, mid))) :
    Fails (andThen first second) cs there ↔
      Fails first cs there ∨ Fails second (trim mid) there := by
  rw [andThen, fails_seq_iff]
  refine or_congr Iff.rfl ⟨?_, fun hsecond => ?_⟩
  · rintro ⟨_, _, hfirst, hsecond⟩
    obtain ⟨-, rfl⟩ := Prod.mk.inj (Option.some.inj (hfirst.unique h))
    rcases fails_seq_iff.mp hsecond with hblanks | ⟨_, _, hblanks, hsecond⟩
    · exact absurd hblanks (not_fails_star_char _ _ _)
    · obtain ⟨-, rfl⟩ := run_blanks_some_iff.mp hblanks
      exact hsecond
  · exact ⟨_, _, h, fails_seq_iff.mpr (.inr ⟨_, _, run_blanks mid, hsecond⟩)⟩

theorem fails_andThen_of_none (h : Run rules first cs none) :
    Fails (andThen first second) cs there ↔ Fails first cs there := by
  rw [andThen, fails_seq_iff]
  refine or_iff_left ?_
  rintro ⟨_, _, hfirst, -⟩
  cases h.unique hfirst

/-- After the character that it begins with, a sequence fails where its rest does. -/
theorem fails_literal_andThen {c : Char} :
    Fails (andThen (literal c) second) (c :: cs) there ↔ Fails second (trim cs) there := by
  rw [fails_andThen_of_some (run_literal_some_iff.mpr ⟨rfl, rfl⟩)]
  exact or_iff_right (not_fails_literal c _ _)

theorem not_fails_literal_andThen {c : Char} (h : cs.head? ≠ some c) :
    ¬ Fails (andThen (literal c) second) cs there := by
  rw [fails_andThen_of_none (run_literal_none_iff.mpr h)]
  exact not_fails_literal c _ _

/-! ## The rules without parts -/

theorem fails_nullable_iff : Fails (.rule .nullable) cs there ↔
    Run rules (.rule .nullable) cs none ∧ there = cs := by
  rw [fails_rule_iff]
  exact ⟨fun h => (h.resolve_right (not_fails_literal '?' _ _)).2, fun h => .inl ⟨rfl, h⟩⟩

theorem fails_label_iff : Fails (.rule .label) cs there ↔
    Run rules (.rule .label) cs none ∧ there = cs := by
  rw [fails_rule_iff]
  exact ⟨fun h => (h.resolve_right (not_fails_ident _ _)).2, fun h => .inl ⟨rfl, h⟩⟩

theorem not_fails_dotted (cs there : List Char) : ¬ Fails (.star dotIdent) cs there := by
  rintro ⟨_, _, hreported, htries, hrun⟩
  generalize he : Expr.star dotIdent = e at htries
  induction htries with
  | here =>
      subst he
      cases hreported
  | star htries =>
      obtain rfl := Expr.star.inj he
      rcases fails_seq_iff.mp ⟨_, _, hreported, htries, hrun⟩ with h | ⟨_, _, _, h⟩
      · exact not_fails_literal _ _ _ h
      · exact not_fails_ident _ _ h
  | round _ _ ih => exact ih hreported hrun he
  | _ => cases he

theorem fails_path_iff : Fails (.rule .path) cs there ↔
    Run rules (.rule .path) cs none ∧ there = cs := by
  rw [fails_rule_iff]
  refine ⟨fun h => (h.resolve_right fun h => ?_).2, fun h => .inl ⟨rfl, h⟩⟩
  rcases fails_seq_iff.mp h with h | ⟨_, _, _, h⟩
  · exact not_fails_ident _ _ h
  · exact not_fails_dotted _ _ h

/-- A bracket rule that finds no bracket fails, and nothing in it. -/
theorem fails_of_no_bracket {name : Rule} {bracket : Char} {inside : Expr Rule}
    (hbody : name.body = andThen (literal bracket) inside) (h : cs.head? ≠ some bracket)
    (hfails : Fails (.rule name) cs there) : there = cs := by
  rcases fails_rule_iff.mp hfails with ⟨-, -, heq⟩ | hfails
  · exact heq
  · rw [hbody] at hfails
    exact absurd hfails (not_fails_literal_andThen h)

/-- What fails is tried in the text. -/
theorem Fails.suffix {e : Expr Rule} (h : Fails e cs there) : there <:+ cs := by
  obtain ⟨count, e', -, htries, -⟩ := h
  induction htries with
  | here => exact List.suffix_rfl
  | opening => exact List.suffix_rfl
  | inside _ _ _ _ ih => exact ih.trans (List.suffix_cons _ _)
  | second hfirst _ ih => exact ih.trans (hfirst.suffix rfl)
  | round hinner _ ih => exact ih.trans (hinner.suffix rfl)
  | _ => assumption

/-! ## Rows of items -/

/-- The items after the first, and the bracket that closes them. -/
def rowTail (item : Rule) (close : Char) : Expr Rule :=
  andThen (many (commaThen item)) (literal close)

/-- The same where there has to be an item. -/
def rowTail1 (item : Rule) (close : Char) : Expr Rule :=
  andThen (many1 (commaThen item)) (literal close)

variable {e : Expr Rule} {rest : List Char} {others : List (ParseTree Rule)}

theorem run_many_of_none (h : Run rules e cs none) : Run rules (many e) cs (some ([], cs)) :=
  .optionNone (.seqFirst h)

/-- After blanks a repetition takes what it takes without them. -/
theorem exists_star_of_many (h : Run rules (many e) (trim cs) (some (trees, rest))) :
    ∃ last, Run rules (.star (.seq blanks e)) cs (some (trees, last)) ∧ trim last = trim rest := by
  rcases Peg.run_option_some_iff.mp h with hsome | ⟨hnone, rfl, rfl⟩
  · obtain ⟨front, mid, back, hfirst, hstar, rfl⟩ := Peg.run_seq_some_iff.mp hsome
    have hround : Run rules (.seq blanks e) cs (some ([] ++ front, mid)) :=
      .seq (run_blanks cs) hfirst
    exact ⟨rest, .starMore hround hstar, rfl⟩
  · refine ⟨cs, .starDone (.seqSecond (run_blanks cs) ?_), (trim_trim cs).symm⟩
    cases hnone with
    | seqFirst hfirst => exact hfirst
    | seqSecond _ hstar => cases hstar

theorem run_many_of_some (h : Run rules e cs (some (trees, mid)))
    (hothers : Run rules (many e) (trim mid) (some (others, rest))) :
    ∃ last, Run rules (many e) cs (some (trees ++ others, last)) ∧ trim last = trim rest := by
  obtain ⟨last, hstar, hlast⟩ := exists_star_of_many hothers
  exact ⟨last, .option (.seq h hstar), hlast⟩

theorem fails_round_iff : Fails (.seq blanks e) cs there ↔ Fails e (trim cs) there := by
  rw [fails_seq_iff]
  constructor
  · rintro (h | ⟨_, _, hblanks, h⟩)
    · exact absurd h (not_fails_star_char _ _ _)
    · obtain ⟨-, rfl⟩ := run_blanks_some_iff.mp hblanks
      exact h
  · exact fun h => .inr ⟨_, _, run_blanks cs, h⟩

theorem run_round_iff : Run rules (.seq blanks e) cs (some (trees, rest)) ↔
    Run rules e (trim cs) (some (trees, rest)) := by
  constructor
  · intro h
    obtain ⟨_, _, _, hblanks, h, rfl⟩ := Peg.run_seq_some_iff.mp h
    obtain ⟨rfl, rfl⟩ := run_blanks_some_iff.mp hblanks
    exact h
  · intro h
    have hround : Run rules (.seq blanks e) cs (some ([] ++ trees, rest)) :=
      .seq (run_blanks cs) h
    exact hround

theorem fails_many_iff : Fails (many e) cs there ↔
    Fails e cs there ∨
      ∃ trees mid, Run rules e cs (some (trees, mid)) ∧
        Fails (.star (.seq blanks e)) mid there := by
  rw [many, fails_option_iff, fails_seq_iff]

/-- After blanks a repetition fails where it fails without them. -/
theorem fails_star_round_iff :
    Fails (.star (.seq blanks e)) cs there ↔ Fails (many e) (trim cs) there := by
  rw [fails_star_iff, fails_round_iff, fails_many_iff]
  simp only [run_round_iff]

theorem fails_many_of_some (h : Run rules e cs (some (trees, mid))) :
    Fails (many e) cs there ↔ Fails e cs there ∨ Fails (many e) (trim mid) there := by
  rw [fails_many_iff, ← fails_star_round_iff]
  refine or_congr Iff.rfl ⟨?_, fun hstar => ⟨trees, mid, h, hstar⟩⟩
  rintro ⟨_, _, hrun, hstar⟩
  obtain ⟨-, rfl⟩ := Prod.mk.inj (Option.some.inj (hrun.unique h))
  exact hstar

theorem fails_many_of_none (h : Run rules e cs none) :
    Fails (many e) cs there ↔ Fails e cs there := by
  rw [fails_many_iff]
  refine or_iff_left ?_
  rintro ⟨_, _, hrun, -⟩
  cases hrun.unique h

/-- The row comes to what the other comes to, with the trees before it. -/
structure RowGoesOn (row : Expr Rule) (cs : List Char) (trees : List (ParseTree Rule))
    (next : Expr Rule) (cs' : List Char) : Prop where
  some : ∀ {others rest}, Run rules next cs' (some (others, rest)) →
    Run rules row cs (some (trees ++ others, rest))
  none : Run rules next cs' none → Run rules row cs none

/-- What follows a repetition follows what leaves the same rest. -/
theorem goesOn_of_many {second : Expr Rule} {cs' : List Char}
    (h : ∀ others last, Run rules (many e) cs' (some (others, last)) →
      ∃ stop, Run rules first cs (some (trees ++ others, stop)) ∧ trim stop = trim last) :
    RowGoesOn (andThen first second) cs trees (andThen (many e) second) cs' where
  some hrow := by
    obtain ⟨others, last, back, hmany, hsecond, rfl⟩ := run_andThen_iff.mp hrow
    obtain ⟨stop, hfirst, hstop⟩ := h others last hmany
    rw [← hstop] at hsecond
    exact run_andThen_iff.mpr ⟨_, stop, back, hfirst, hsecond, (List.append_assoc ..).symm⟩
  none hrow := by
    cases hrow with
    | seqFirst hmany => cases hmany
    | seqSecond hmany hsecond =>
        obtain ⟨stop, hfirst, hstop⟩ := h _ _ hmany
        refine .seqSecond hfirst (.seqSecond (run_blanks stop) ?_)
        rw [hstop]
        cases hsecond with
        | seqFirst hblanks => cases (run_blanks _).unique hblanks
        | seqSecond hblanks hsecond =>
            obtain ⟨-, rfl⟩ := run_blanks_some_iff.mp hblanks
            exact hsecond

theorem fails_andThen_literal_iff {close : Char} :
    Fails (andThen e (literal close)) cs there ↔ Fails e cs there := by
  rw [andThen, fails_seq_iff]
  refine or_iff_left ?_
  rintro ⟨_, _, -, h⟩
  exact not_fails_literal close _ _ (fails_round_iff.mp h)

section

variable {item : Rule} {close : Char}

theorem fails_commaThen_iff :
    Fails (commaThen item) (',' :: cs) there ↔ Fails (.rule item) (trim cs) there :=
  fails_literal_andThen

theorem not_fails_commaThen (h : cs.head? ≠ some ',') : ¬ Fails (commaThen item) cs there :=
  not_fails_literal_andThen h

theorem run_commaThen_of_some (h : Run rules (.rule item) (trim cs) (some (trees, rest))) :
    Run rules (commaThen item) (',' :: cs) (some (trees, rest)) :=
  run_andThen_iff.mpr ⟨[], cs, trees, run_literal_some_iff.mpr ⟨rfl, rfl⟩, h, rfl⟩

theorem run_commaThen_of_none (h : Run rules (.rule item) (trim cs) none) :
    Run rules (commaThen item) (',' :: cs) none :=
  .seqSecond (run_literal_some_iff.mpr ⟨rfl, rfl⟩) (.seqSecond (run_blanks cs) h)

theorem run_commaThen_none (h : cs.head? ≠ some ',') : Run rules (commaThen item) cs none :=
  .seqFirst (run_literal_none_iff.mpr h)

/-- Without an item the row is closed, or it fails. -/
theorem run_rowTail_of_none (h : Run rules (commaThen item) cs none) :
    (∀ rest, trim cs = close :: rest → Run rules (rowTail item close) cs (some ([], rest))) ∧
      ((trim cs).head? ≠ some close → Run rules (rowTail item close) cs none) := by
  have hmany := run_many_of_none h
  refine ⟨fun rest hclose => ?_, fun hclose => ?_⟩
  · exact run_andThen_iff.mpr ⟨[], cs, [], hmany, run_literal_some_iff.mpr ⟨hclose, rfl⟩, rfl⟩
  · exact .seqSecond hmany (.seqSecond (run_blanks cs) (run_literal_none_iff.mpr hclose))

/-- After an item the row goes on. -/
theorem run_rowTail_of_some (h : Run rules (commaThen item) cs (some (trees, mid))) :
    RowGoesOn (rowTail item close) cs trees (rowTail item close) (trim mid) :=
  goesOn_of_many fun _ _ hmany => run_many_of_some h hmany

theorem run_rowTail1_of_some (h : Run rules (commaThen item) cs (some (trees, mid))) :
    RowGoesOn (rowTail1 item close) cs trees (rowTail item close) (trim mid) :=
  goesOn_of_many fun _ last hmany => ⟨last, run_andThen_iff.mpr ⟨_, mid, _, h, hmany, rfl⟩, rfl⟩

theorem run_rowTail1_of_none (h : Run rules (commaThen item) cs none) :
    Run rules (rowTail1 item close) cs none :=
  .seqFirst (.seqFirst h)

/-- The expression goes on with a row where a comma stands. -/
structure IsRow (row : Expr Rule) (item : Rule) (close : Char) : Prop where
  run_none : ∀ {cs}, Run rules (commaThen item) (',' :: cs) none → Run rules row (',' :: cs) none
  run_some : ∀ {cs trees mid}, Run rules (commaThen item) (',' :: cs) (some (trees, mid)) →
    RowGoesOn row (',' :: cs) trees (rowTail item close) (trim mid)
  fails_none : ∀ {cs there}, Run rules (commaThen item) (',' :: cs) none →
    (Fails row (',' :: cs) there ↔ Fails (commaThen item) (',' :: cs) there)
  fails_some : ∀ {cs trees mid there},
    Run rules (commaThen item) (',' :: cs) (some (trees, mid)) →
    (Fails row (',' :: cs) there ↔
      Fails (commaThen item) (',' :: cs) there ∨ Fails (rowTail item close) (trim mid) there)

theorem isRow_rowTail (hclose : close ≠ ',') : IsRow (rowTail item close) item close where
  run_none {cs} h := by
    refine (run_rowTail_of_none h).2 ?_
    rw [trim_cons (by decide)]
    simpa using hclose.symm
  run_some := run_rowTail_of_some
  fails_none h := fails_andThen_literal_iff.trans (fails_many_of_none h)
  fails_some h := by
    simp only [rowTail, fails_andThen_literal_iff]
    exact fails_many_of_some h

theorem isRow_rowTail1 : IsRow (rowTail1 item close) item close where
  run_none := run_rowTail1_of_none
  run_some := run_rowTail1_of_some
  fails_none h := fails_andThen_literal_iff.trans (fails_andThen_of_none h)
  fails_some h := by
    simp only [rowTail, rowTail1, fails_andThen_literal_iff]
    exact fails_andThen_of_some h

end

/-! ## Rules that end in something optional -/

section

variable {name : Rule}

/-- What is optional does not make a rule fail. -/
theorem fails_optional_of_some (hbody : name.body = andThen first (.option second))
    (h : Run rules first cs (some (trees, mid))) :
    Fails (.rule name) cs there ↔ Fails first cs there ∨ Fails second (trim mid) there := by
  rw [fails_rule_iff, hbody, fails_andThen_of_some h, fails_option_iff]
  refine or_iff_right ?_
  rintro ⟨-, hnone, -⟩
  cases hnone with
  | ruleFail hnone =>
      rw [show rules.body name = _ from hbody] at hnone
      cases hnone with
      | seqFirst hfirst => cases hfirst.unique h
      | seqSecond _ hsecond =>
          cases hsecond with
          | seqFirst hblanks => cases (run_blanks _).unique hblanks
          | seqSecond _ hoption => cases hoption

theorem fails_optional_of_none (hreported : reported (.rule name) = true)
    (hbody : name.body = andThen first (.option second)) (h : Run rules first cs none) :
    Fails (.rule name) cs there ↔ there = cs ∨ Fails first cs there := by
  have hnone : Run rules (.rule name) cs none := by
    refine .ruleFail ?_
    rw [show rules.body name = _ from hbody]
    exact .seqFirst h
  rw [fails_rule_iff, hbody, fails_andThen_of_none h]
  exact or_congr ⟨fun hrule => hrule.2.2, fun heq => ⟨hreported, hnone, heq⟩⟩ Iff.rfl

end

/-! ## Every attempt at a type -/

theorem fails_of_run_none {name : Rule} (hreported : reported (.rule name) = true)
    (h : Run rules (.rule name) cs none) : Fails (.rule name) cs cs :=
  fails_rule_iff.mpr (.inl ⟨hreported, h, rfl⟩)

/-- In an attempt at a type something fails, even if it succeeds: a name is tried as a tuple
first. -/
theorem exists_fails_signature (cs : List Char) : ∃ there, Fails (.rule .signature) cs there := by
  generalize hn : cs.length = n
  induction n using Nat.strongRecOn generalizing cs with
  | ind n ih =>
      have hbase {there : List Char} (h : Fails (.rule .tuple) cs there) :
          Fails (.rule .signature) cs there :=
        fails_rule_iff.mpr (.inr (fails_seq_iff.mpr (.inl (fails_choice_iff.mpr (.inl h)))))
      by_cases hopen : cs.head? = some '('
      · obtain ⟨inside, rfl⟩ : ∃ inside, cs = '(' :: inside :=
          ⟨cs.tail, (List.cons_head?_tail hopen).symm⟩
        obtain ⟨there, hthere⟩ := ih _ (hn ▸ length_trim_lt '(' inside) (trim inside) rfl
        have helement : Fails (.rule .element) (trim inside) there :=
          fails_rule_iff.mpr (.inr (fails_seq_iff.mpr (.inl hthere)))
        have htuple : Fails (.rule .tuple) ('(' :: inside) there :=
          fails_rule_iff.mpr (.inr (fails_literal_andThen.mpr (fails_seq_iff.mpr (.inl helement))))
        exact ⟨there, hbase htuple⟩
      · have hnone : Run rules (.rule .tuple) cs none :=
          .ruleFail (.seqFirst (run_literal_none_iff.mpr hopen))
        exact ⟨cs, hbase (fails_of_run_none rfl hnone)⟩

end

end TypeNaming.Signature
