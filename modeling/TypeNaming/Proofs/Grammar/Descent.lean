/-
# Greedy reading finds the derivations

The rules of the grammar are greedy: type arguments, a `?` and a label are taken where
they stand, a path goes on as long as it can, and a tuple is tried before a name.
`accepts_iff` says that nothing is lost by that: the trees that the rules find in a text
are those of the derivations (`Derives`) of the lexemes into which the text is cut
(`Cut`), no more and no fewer; and `rejects_iff`, that they fail on every other text.

Soundness goes by the length of the text, because a row of items is read by a repetition
and an item may have rows of items in it.  Completeness goes by the derivation, with what
follows a type as its side condition: neither type arguments nor a `?` may follow a type
that is complete, nor a label an element.
-/
import TypeNaming.Proofs.Grammar.Derivation
import TypeNaming.Proofs.Grammar.Rules

namespace TypeNaming.Signature

open Peg (Expr ParseTree Run)

/-! ## The tree of a type -/

/-- What the optional `?` leaves behind. -/
def markTrees (marked : Bool) : List (ParseTree Rule) :=
  if marked then [.node .nullable []] else []

/-- What the optional label leaves behind. -/
def labelTrees : Option String → List (ParseTree Rule)
  | none => []
  | some label => [.node .label [.leaf .ident label.toList]]

/-- What the optional type arguments leave behind. -/
def argsTrees : List (ParseTree Rule) → List (ParseTree Rule)
  | [] => []
  | args => [.node .typeArgs args]

mutual

/-- What a type leaves behind. -/
def Written.tree : Written → ParseTree Rule
  | .named path args marked =>
    .node .signature
      (.node .named (.leaf .path path.toList :: argsTrees (Written.trees args))
        :: markTrees marked)
  | .tuple elements marked =>
    .node .signature (.node .tuple (WrittenElement.trees elements) :: markTrees marked)

/-- What each of the types leaves behind. -/
def Written.trees : List Written → List (ParseTree Rule)
  | [] => []
  | type :: types => type.tree :: Written.trees types

/-- What an element leaves behind. -/
def WrittenElement.tree : WrittenElement → ParseTree Rule
  | .mk type label => .node .element (type.tree :: labelTrees label)

/-- What each of the elements leaves behind. -/
def WrittenElement.trees : List WrittenElement → List (ParseTree Rule)
  | [] => []
  | element :: elements => element.tree :: WrittenElement.trees elements

end

@[simp] theorem Written.trees_eq_map (types : List Written) :
    Written.trees types = types.map Written.tree := by
  induction types with
  | nil => rfl
  | cons type types ih => simp [Written.trees, ih]

@[simp] theorem WrittenElement.trees_eq_map (elements : List WrittenElement) :
    WrittenElement.trees elements = elements.map WrittenElement.tree := by
  induction elements with
  | nil => rfl
  | cons element elements ih => simp [WrittenElement.trees, ih]

/-! ## Cuts and blanks -/

theorem Cut.trim {cs : List Char} {lexemes : List Lexeme} (h : Cut cs lexemes) :
    Cut (Signature.trim cs) lexemes := by
  induction h with
  | done => exact .done
  | blank hc _ ih => simpa [Signature.trim, hc] using ih
  | mark hmark hrest _ =>
      rw [trim_cons (isSpace_of_punctuation hmark)]
      exact .mark hmark hrest
  | path hpath hlong hrest _ =>
      rw [hpath.trim]
      exact .path hpath hlong hrest

theorem cut_of_trim {lexemes : List Lexeme} : ∀ {cs : List Char},
    Cut (trim cs) lexemes → Cut cs lexemes
  | [], h => h
  | c :: cs, h => by
      cases hc : isSpace c with
      | true => exact .blank hc (cut_of_trim (by simpa [trim, hc] using h))
      | false => simpa [trim, hc] using h

/-! ## Soundness -/

theorem longest_of_stops {cs rest : List Char} (h : IsPath cs) (hrest : Stops rest) :
    Longest cs rest := by
  obtain ⟨first, more, rfl, -⟩ := h.starts
  exact (longest_iff h).mpr hrest

theorem stops_of_longest {cs rest : List Char} (h : IsPath cs) (hlong : Longest cs rest) :
    Stops rest := by
  obtain ⟨first, more, rfl, -⟩ := h.starts
  exact (longest_iff h).mp hlong

/-- The text is the lexemes up to its rest: whatever the rest is cut into comes after
them. -/
def Spans (cs rest : List Char) (lexemes : List Lexeme) : Prop :=
  ∀ more, Cut rest more → Cut cs (lexemes ++ more)

theorem Spans.nil (cs : List Char) : Spans cs cs [] := fun _ h => h

theorem Spans.append {cs mid rest : List Char} {lexemes others : List Lexeme}
    (h : Spans cs mid lexemes) (h' : Spans mid rest others) : Spans cs rest (lexemes ++ others) :=
  fun more hmore => List.append_assoc .. ▸ h _ (h' more hmore)

theorem Spans.of_trim {cs rest : List Char} {lexemes : List Lexeme}
    (h : Spans (trim cs) rest lexemes) : Spans cs rest lexemes :=
  fun more hmore => cut_of_trim (h more hmore)

theorem spans_mark {c : Char} {lexeme : Lexeme} (h : Punctuation c lexeme) (cs : List Char) :
    Spans (c :: cs) cs [lexeme] :=
  fun _ hmore => .mark h hmore

theorem spans_path {text rest : List Char} (h : IsPath text) (hrest : Stops rest) :
    Spans (text ++ rest) rest [.path (String.ofList text)] :=
  fun _ hmore => .path h (longest_of_stops h hrest) hmore

/-- A rule finds an item at the beginning of the text. -/
def Finds {α : Type} (rule : Rule) (tree : α → ParseTree Rule) (Item : α → List Lexeme → Prop)
    (cs : List Char) : Prop :=
  ∀ trees rest, Run rules (.rule rule) cs (some (trees, rest)) →
    ∃ item lexemes, trees = [tree item] ∧ Item item lexemes ∧ Spans cs rest lexemes

theorem sound_mark {cs rest : List Char} {trees : List (ParseTree Rule)}
    (h : Run rules (.option (.rule .nullable)) cs (some (trees, rest))) :
    ∃ marked, trees = markTrees marked ∧ Spans cs rest (markLexemes marked) := by
  rcases Peg.run_option_some_iff.mp h with h | ⟨-, rfl, rfl⟩
  · obtain ⟨rfl, rfl⟩ := run_nullable_iff.mp h
    exact ⟨true, rfl, spans_mark .question rest⟩
  · exact ⟨false, rfl, .nil _⟩

/-- Items with a comma before each of them. -/
inductive Preceded {α : Type} (Item : α → List Lexeme → Prop) : List α → List Lexeme → Prop
  | nil : Preceded Item [] []
  | cons {item : α} {items : List α} {lexemes others : List Lexeme} :
      Item item lexemes → Preceded Item items others →
      Preceded Item (item :: items) (.comma :: lexemes ++ others)

theorem Preceded.types {type : Written} {types : List Written} {lexemes others : List Lexeme}
    (h : Preceded Derives types others) (htype : Derives type lexemes) :
    DerivesTypes (type :: types) (lexemes ++ others) := by
  induction h generalizing type lexemes with
  | nil => simpa using DerivesTypes.one htype
  | cons hnext _ ih => exact .more htype (ih hnext)

theorem Preceded.elements {element : WrittenElement} {elements : List WrittenElement}
    {lexemes others : List Lexeme} (h : Preceded DerivesElement elements others)
    (helement : DerivesElement element lexemes) :
    DerivesElements (element :: elements) (lexemes ++ others) := by
  induction h generalizing element lexemes with
  | nil => simpa using DerivesElements.one helement
  | cons hnext _ ih => exact .more helement (ih hnext)

section Items

variable {α : Type} {rule : Rule} {tree : α → ParseTree Rule} {Item : α → List Lexeme → Prop}
  {limit : Nat}

theorem sound_commaThen (hitem : ∀ cs, cs.length < limit → Finds rule tree Item cs)
    {cs rest : List Char} {trees : List (ParseTree Rule)} (hcs : cs.length ≤ limit)
    (h : Run rules (commaThen rule) cs (some (trees, rest))) :
    ∃ item lexemes, trees = [tree item] ∧ Item item lexemes ∧
      Spans cs rest (.comma :: lexemes) := by
  obtain ⟨_, mid, _, hcomma, hrun, rfl⟩ := run_andThen_iff.mp h
  obtain ⟨rfl, rfl⟩ := run_literal_some_iff.mp hcomma
  have hmid := (length_trim_lt ',' mid).trans_le hcs
  obtain ⟨item, lexemes, rfl, hderives, hspans⟩ := hitem _ hmid _ _ hrun
  exact ⟨item, lexemes, rfl, hderives, (spans_mark .comma mid).append hspans.of_trim⟩

theorem sound_star (hitem : ∀ cs, cs.length < limit → Finds rule tree Item cs)
    {cs rest : List Char} {trees : List (ParseTree Rule)} (hcs : cs.length ≤ limit)
    (h : Run rules (.star (.seq blanks (commaThen rule))) cs (some (trees, rest))) :
    ∃ items lexemes, trees = items.map tree ∧ Preceded Item items lexemes ∧
      Spans cs rest lexemes := by
  revert hcs
  refine Peg.star_induction (P := fun cs trees rest => cs.length ≤ limit → ∃ items lexemes,
    trees = items.map tree ∧ Preceded Item items lexemes ∧ Spans cs rest lexemes) ?_ ?_ h
  · intro cs _ _
    exact ⟨[], [], rfl, .nil, .nil cs⟩
  · intro cs mid rest front back hround ih hcs
    have hmid := (hround.suffix rfl).length_le.trans hcs
    obtain ⟨_, _, _, hblanks, hround, rfl⟩ := Peg.run_seq_some_iff.mp hround
    obtain ⟨rfl, rfl⟩ := run_blanks_some_iff.mp hblanks
    have htrim := (length_trim_le cs).trans hcs
    obtain ⟨item, lexemes, rfl, hderives, hspans⟩ := sound_commaThen hitem htrim hround
    obtain ⟨items, others, rfl, hitems, hrest⟩ := ih hmid
    exact ⟨item :: items, _, rfl, .cons hderives hitems, hspans.of_trim.append hrest⟩

theorem sound_many (hitem : ∀ cs, cs.length < limit → Finds rule tree Item cs)
    {cs rest : List Char} {trees : List (ParseTree Rule)} (hcs : cs.length ≤ limit)
    (h : Run rules (many (commaThen rule)) cs (some (trees, rest))) :
    ∃ items lexemes, trees = items.map tree ∧ Preceded Item items lexemes ∧
      Spans cs rest lexemes := by
  rcases Peg.run_option_some_iff.mp h with h | ⟨-, rfl, rfl⟩
  · obtain ⟨front, mid, back, hfirst, hstar, rfl⟩ := Peg.run_seq_some_iff.mp h
    have hmid := (hfirst.suffix rfl).length_le.trans hcs
    obtain ⟨item, lexemes, rfl, hderives, hspans⟩ := sound_commaThen hitem hcs hfirst
    obtain ⟨items, others, rfl, hitems, hrest⟩ := sound_star hitem hmid hstar
    exact ⟨item :: items, _, rfl, .cons hderives hitems, hspans.append hrest⟩
  · exact ⟨[], [], rfl, .nil, .nil _⟩

end Items

/-- No lexeme begins with a dot. -/
theorem not_cut_dot {cs : List Char} {lexemes : List Lexeme} : ¬ Cut ('.' :: cs) lexemes := by
  intro h
  generalize htext : '.' :: cs = text at h
  cases h with
  | done => cases htext
  | blank hc _ =>
      obtain ⟨rfl, -⟩ := List.cons.inj htext
      cases hc
  | mark hmark _ =>
      obtain ⟨rfl, -⟩ := List.cons.inj htext
      cases hmark
  | path hpath _ _ =>
      obtain ⟨first, rest, rfl, hfirst, -⟩ := hpath.starts
      obtain ⟨rfl, -⟩ := List.cons.inj htext
      cases hfirst

theorem sound_label {cs rest : List Char} {trees : List (ParseTree Rule)}
    (h : Run rules (.option (.rule .label)) cs (some (trees, rest))) :
    ∃ label, trees = labelTrees label ∧ (∀ text, label = some text → '.' ∉ text.toList) ∧
      Spans cs rest (labelLexemes label) := by
  rcases Peg.run_option_some_iff.mp h with h | ⟨-, rfl, rfl⟩
  · obtain ⟨text, htext, rfl, hrest, rfl⟩ := run_label_iff.mp h
    refine ⟨some (String.ofList text), by simp [labelTrees], ?_, ?_⟩
    · rintro _ ⟨⟩
      simpa using htext.undotted
    · -- the identifier is a whole path, because what comes after it is cut into lexemes
      intro more hmore
      have hstop : Stops rest := by
        cases rest with
        | nil => trivial
        | cons c rest =>
            refine Bool.eq_false_iff.mpr fun hgoes => ?_
            rcases goesOn_iff.mp hgoes with hc | ⟨rfl, -⟩
            · rw [hrest c rfl] at hc
              cases hc
            · exact not_cut_dot hmore
      exact spans_path (.ident htext) hstop more hmore
  · refine ⟨none, rfl, ?_, .nil _⟩
    rintro _ ⟨⟩

theorem sound_element {cs : List Char} (h : Finds .signature Written.tree Derives cs) :
    Finds .element WrittenElement.tree DerivesElement cs := by
  intro trees rest hrun
  obtain ⟨mid, front, back, htype, hlabel, rfl⟩ := run_element_iff.mp hrun
  obtain ⟨type, lexemes, rfl, hderives, hspans⟩ := h _ _ htype
  obtain ⟨label, rfl, hident, hlabel⟩ := sound_label hlabel
  exact ⟨.mk type label, _, rfl, .mk hderives hident, hspans.append hlabel.of_trim⟩

theorem sound_tuple {cs rest : List Char} {trees : List (ParseTree Rule)}
    (ih : ∀ text, text.length < cs.length → Finds .signature Written.tree Derives text)
    (h : Run rules (.rule .tuple) cs (some (trees, rest))) :
    ∃ elements lexemes, trees = [.node .tuple (elements.map WrittenElement.tree)] ∧
      DerivesElements elements lexemes ∧ 2 ≤ elements.length ∧
      Spans cs rest (.leftParen :: lexemes ++ [.rightParen]) := by
  obtain ⟨inside, after, more, last, front, second, others, rfl, hfirst, hsecond, hothers, hclose,
    rfl⟩ := run_tuple_iff.mp h
  have helement : ∀ text, text.length < ('(' :: inside).length →
      Finds .element WrittenElement.tree DerivesElement text :=
    fun text htext => sound_element (ih text htext)
  have hinside := length_trim_lt '(' inside
  have hafter := (length_trim_le after).trans ((hfirst.suffix rfl).length_le.trans hinside.le)
  have hmore := (length_trim_le more).trans ((hsecond.suffix rfl).length_le.trans hafter)
  obtain ⟨first, lexemes₁, rfl, hderives₁, hspans₁⟩ := helement _ hinside _ _ hfirst
  obtain ⟨next, lexemes₂, rfl, hderives₂, hspans₂⟩ := sound_commaThen helement hafter hsecond
  obtain ⟨items, lexemes₃, rfl, hitems, hspans₃⟩ := sound_many helement hmore hothers
  have hspans : Spans ('(' :: inside) rest _ :=
    (spans_mark .leftParen inside).append (hspans₁.of_trim.append (hspans₂.of_trim.append
      (hspans₃.of_trim.append
          (hclose ▸ spans_mark .rightParen rest : Spans (trim last) _ _).of_trim)))
  refine ⟨first :: next :: items, _, rfl, (Preceded.cons hderives₂ hitems).elements hderives₁,
    by simp, ?_⟩
  simpa using hspans

theorem sound_typeArgs {cs rest : List Char} {trees : List (ParseTree Rule)}
    (ih : ∀ text, text.length < cs.length → Finds .signature Written.tree Derives text)
    (h : Run rules (.rule .typeArgs) cs (some (trees, rest))) :
    ∃ types lexemes, trees = [.node .typeArgs (types.map Written.tree)] ∧
      DerivesTypes types lexemes ∧ Spans cs rest (.lessThan :: lexemes ++ [.greaterThan]) := by
  obtain ⟨inside, after, last, front, others, rfl, hfirst, hothers, hclose, rfl⟩ :=
    run_typeArgs_iff.mp h
  have hinside := length_trim_lt '<' inside
  have hafter := (length_trim_le after).trans ((hfirst.suffix rfl).length_le.trans hinside.le)
  obtain ⟨first, lexemes₁, rfl, hderives₁, hspans₁⟩ := ih _ hinside _ _ hfirst
  obtain ⟨items, lexemes₂, rfl, hitems, hspans₂⟩ := sound_many ih hafter hothers
  have hspans : Spans ('<' :: inside) rest _ :=
    (spans_mark .lessThan inside).append (hspans₁.of_trim.append (hspans₂.of_trim.append
      (hclose ▸ spans_mark .greaterThan rest : Spans (trim last) _ _).of_trim))
  refine ⟨first :: items, _, rfl, hitems.types hderives₁, ?_⟩
  simpa using hspans

theorem sound_named {cs rest : List Char} {trees : List (ParseTree Rule)}
    (ih : ∀ text, text.length < cs.length → Finds .signature Written.tree Derives text)
    (h : Run rules (.rule .named) cs (some (trees, rest))) :
    ∃ path args lexemes, trees = [.node .named (.leaf .path path.toList
        :: argsTrees (args.map Written.tree))] ∧
      (∀ marked, Derives (.named path args marked) (lexemes ++ markLexemes marked)) ∧
      Spans cs rest lexemes := by
  obtain ⟨text, after, found, htext, rfl, hstop, hargs, rfl⟩ := run_named_iff.mp h
  have hpath := spans_path htext hstop
  rcases Peg.run_option_some_iff.mp hargs with hargs | ⟨-, rfl, rfl⟩
  · have hafter : (trim after).length ≤ (text ++ after).length := by
      have := length_trim_le after
      rw [List.length_append]
      omega
    obtain ⟨types, lexemes, rfl, hderives, hspans⟩ :=
      sound_typeArgs (fun text htext => ih text (htext.trans_le hafter)) hargs
    refine ⟨String.ofList text, types, _, ?_, fun marked => ?_, hpath.append hspans.of_trim⟩
    · cases hderives <;> simp [argsTrees]
    · simpa using Derives.generic (String.ofList text) marked hderives
  · refine ⟨String.ofList text, [], _, by simp [argsTrees], fun marked => ?_,
      fun more hmore => hpath more (cut_of_trim hmore)⟩
    exact .path (String.ofList text) marked

/-- What the grammar finds as a type is derivable as it. -/
theorem sound_signature (cs : List Char) : Finds .signature Written.tree Derives cs := by
  generalize hn : cs.length = n
  induction n using Nat.strongRecOn generalizing cs with
  | ind n ih =>
      have ih : ∀ text, text.length < cs.length → Finds .signature Written.tree Derives text :=
        fun text htext => ih _ (hn ▸ htext) text rfl
      intro trees rest hrun
      obtain ⟨mid, base, found, hbase, hmark, rfl⟩ := run_signature_iff.mp hrun
      obtain ⟨marked, rfl, hspan⟩ := sound_mark hmark
      rcases hbase with htuple | ⟨-, hnamed⟩
      · obtain ⟨elements, lexemes, rfl, hderives, htwo, hspans⟩ := sound_tuple ih htuple
        refine ⟨.tuple elements marked, _, by simp [Written.tree], .tuple marked hderives htwo, ?_⟩
        simpa using hspans.append hspan.of_trim
      · obtain ⟨path, args, lexemes, rfl, hderives, hspans⟩ := sound_named ih hnamed
        exact ⟨.named path args marked, _, by simp [Written.tree], hderives marked,
          hspans.append hspan.of_trim⟩

/-! ## What the next lexeme says of the next character -/

theorem Cut.trim_cases {cs : List Char} {more : List Lexeme} (h : Cut cs more) :
    (Signature.trim cs = [] ∧ more = []) ∨
      (∃ c lexeme rest others, Punctuation c lexeme ∧ Signature.trim cs = c :: rest ∧
        more = lexeme :: others ∧ Cut rest others) ∨
      ∃ text rest others, IsPath text ∧ Stops rest ∧ Signature.trim cs = text ++ rest ∧
        more = .path (String.ofList text) :: others ∧ Cut rest others := by
  induction h with
  | done => exact Or.inl ⟨rfl, rfl⟩
  | blank hc _ ih => simpa [Signature.trim, hc] using ih
  | mark hmark hrest _ =>
      exact Or.inr (Or.inl ⟨_, _, _, _, hmark, trim_cons (isSpace_of_punctuation hmark) _, rfl,
        hrest⟩)
  | path hpath hlong hrest _ =>
      exact Or.inr (Or.inr ⟨_, _, _, hpath, stops_of_longest hpath hlong, hpath.trim _, rfl,
        hrest⟩)

theorem cut_mark {cs : List Char} {c : Char} {lexeme : Lexeme} {more : List Lexeme}
    (h : Cut cs (lexeme :: more)) (hc : Punctuation c lexeme) :
    ∃ rest, trim cs = c :: rest ∧ Cut rest more := by
  rcases h.trim_cases with ⟨-, h⟩ | ⟨d, _, rest, _, hd, htrim, heq, hrest⟩ |
    ⟨_, _, _, _, _, _, heq, _⟩
  · cases h
  · obtain ⟨rfl, rfl⟩ := List.cons.inj heq
    obtain rfl : c = d := by cases hc <;> cases hd <;> rfl
    exact ⟨rest, htrim, hrest⟩
  · obtain ⟨rfl, -⟩ := List.cons.inj heq
    cases hc

theorem cut_path {cs : List Char} {path : String} {more : List Lexeme}
    (h : Cut cs (.path path :: more)) :
    ∃ rest, trim cs = path.toList ++ rest ∧ IsPath path.toList ∧ Stops rest ∧ Cut rest more := by
  rcases h.trim_cases with ⟨-, h⟩ | ⟨_, _, _, _, hd, _, heq, _⟩ |
    ⟨text, rest, _, htext, hstop, htrim, heq, hrest⟩
  · cases h
  · obtain ⟨rfl, -⟩ := List.cons.inj heq
    cases hd
  · obtain ⟨hpath, rfl⟩ := List.cons.inj heq
    obtain rfl := Lexeme.path.inj hpath
    exact ⟨rest, by simpa using htrim, by simpa using htext, hstop, hrest⟩

theorem literal_fails {cs : List Char} {c : Char} {lexeme : Lexeme} {more : List Lexeme}
    (h : Cut cs more) (hc : Punctuation c lexeme) (hmore : more.head? ≠ some lexeme) :
    Run rules (literal c) (trim cs) none := by
  refine run_literal_none_iff.mpr ?_
  rcases h.trim_cases with ⟨htrim, -⟩ | ⟨d, _, rest, _, hd, htrim, rfl, _⟩ |
    ⟨text, rest, _, htext, _, htrim, _, _⟩
  · simp [htrim]
  · rw [htrim]
    rintro ⟨⟩
    refine hmore ?_
    cases hc <;> cases hd <;> rfl
  · obtain ⟨first, tail, rfl, hfirst, -⟩ := htext.starts
    rw [htrim]
    rintro ⟨⟩
    cases hc <;> cases hfirst

theorem avoids_start {cs : List Char} {more : List Lexeme} (h : Cut cs more)
    (hmore : ∀ path, more.head? ≠ some (.path path)) : Avoids isIdentStart (trim cs) := by
  rcases h.trim_cases with ⟨htrim, -⟩ | ⟨c, _, rest, _, hc, htrim, _, _⟩ |
    ⟨text, rest, _, _, _, _, rfl, _⟩
  · rw [htrim]
    rintro _ ⟨⟩
  · rw [htrim]
    rintro _ ⟨⟩
    cases hc <;> rfl
  · exact absurd rfl (hmore _)

/-! ## Completeness -/

/-- What may follow a type that is complete: no type arguments and no `?`. -/
def Ends (more : List Lexeme) : Prop :=
  more.head? ≠ some .lessThan ∧ more.head? ≠ some .question

/-- What may follow an element that is complete: no label either. -/
def EndsElement (more : List Lexeme) : Prop :=
  Ends more ∧ ∀ path, more.head? ≠ some (.path path)

/-- The rule takes the item, and nothing of what follows it. -/
def Takes {α : Type} (rule : Rule) (tree : α → ParseTree Rule) (Follow : List Lexeme → Prop)
    (item : α) (lexemes : List Lexeme) : Prop :=
  ∀ cs more, Cut cs (lexemes ++ more) → Follow more →
    ∃ rest, Run rules (.rule rule) (trim cs) (some ([tree item], rest)) ∧ Cut rest more

theorem complete_mark {cs : List Char} {marked : Bool} {more : List Lexeme}
    (h : Cut cs (markLexemes marked ++ more)) (hmore : more.head? ≠ some .question) :
    ∃ rest, Run rules (.option (.rule .nullable)) (trim cs) (some (markTrees marked, rest)) ∧
      Cut rest more := by
  cases marked with
  | false => exact ⟨trim cs, .optionNone (.ruleFail (literal_fails h .question hmore)), h.trim⟩
  | true =>
      obtain ⟨rest, htrim, hrest⟩ := cut_mark h .question
      exact ⟨rest, .option (run_nullable_iff.mpr ⟨htrim, rfl⟩), hrest⟩

theorem IsPath.identifier {cs : List Char} (h : IsPath cs) (hdot : '.' ∉ cs) : Identifier cs := by
  cases h with
  | ident h => exact h
  | dotted _ _ => simp at hdot

theorem complete_label {cs : List Char} {label : Option String} {more : List Lexeme}
    (hident : ∀ text, label = some text → '.' ∉ text.toList)
    (h : Cut cs (labelLexemes label ++ more)) (hmore : ∀ path, more.head? ≠ some (.path path)) :
    ∃ rest, Run rules (.option (.rule .label)) (trim cs) (some (labelTrees label, rest)) ∧
      Cut rest more := by
  cases label with
  | none =>
      have hfail := run_ident_none (avoids_start h hmore)
      exact ⟨trim cs, .optionNone (.ruleFail hfail), h.trim⟩
  | some text =>
      obtain ⟨rest, htrim, hpath, hstop, hrest⟩ := cut_path h
      have htext := hpath.identifier (hident text rfl)
      exact ⟨rest, .option (run_label_iff.mpr ⟨_, htext, htrim, hstop.avoids, rfl⟩), hrest⟩

section Items

variable {α : Type} {rule : Rule} {tree : α → ParseTree Rule} {Follow : List Lexeme → Prop}

theorem Preceded.follow {items : List α} {lexemes : List Lexeme}
    (h : Preceded (Takes rule tree Follow) items lexemes) {more : List Lexeme}
    (hcomma : ∀ others, Follow (.comma :: others)) (hmore : Follow more) :
    Follow (lexemes ++ more) := by
  cases h with
  | nil => exact hmore
  | cons _ _ => exact hcomma _

theorem complete_star {items : List α} {lexemes : List Lexeme}
    (h : Preceded (Takes rule tree Follow) items lexemes) :
    ∀ {cs : List Char} {more : List Lexeme}, Cut cs (lexemes ++ more) →
      (∀ others, Follow (.comma :: others)) → Follow more → more.head? ≠ some .comma →
      ∃ rest, Run rules (.star (.seq blanks (commaThen rule))) cs (some (items.map tree, rest)) ∧
        Cut rest more := by
  induction h with
  | nil =>
      intro cs more hcut hcomma hmore hhead
      have hfail : Run rules (commaThen rule) (trim cs) none :=
        .seqFirst (literal_fails hcut .comma hhead)
      exact ⟨cs, .starDone (.seqSecond (run_blanks cs) hfail), hcut⟩
  | @cons item items lexemes others htakes hitems ih =>
      intro cs more hcut hcomma hmore hhead
      have hcut : Cut cs (.comma :: (lexemes ++ (others ++ more))) := by simpa using hcut
      obtain ⟨inside, htrim, hinside⟩ := cut_mark hcut .comma
      obtain ⟨after, hitem, hafter⟩ := htakes inside _ hinside (hitems.follow hcomma hmore)
      obtain ⟨rest, hstar, hrest⟩ := ih hafter hcomma hmore hhead
      have hround : Run rules (commaThen rule) (trim cs) (some ([] ++ [tree item], after)) :=
        run_andThen_iff.mpr ⟨[], inside, _, run_literal_some_iff.mpr ⟨htrim, rfl⟩, hitem, rfl⟩
      exact ⟨rest, .starMore (.seq (run_blanks cs) hround) hstar, hrest⟩

theorem many_of_star {cs rest : List Char} {trees : List (ParseTree Rule)} {e : Expr Rule}
    {more : List Lexeme} (h : Run rules (.star (.seq blanks e)) cs (some (trees, rest)))
    (hrest : Cut rest more) :
    ∃ rest, Run rules (many e) (trim cs) (some (trees, rest)) ∧ Cut rest more := by
  rcases Peg.run_star_some_iff.mp h with ⟨_, mid, back, hround, hstar, rfl⟩ | ⟨hfail, rfl, rfl⟩
  · obtain ⟨_, _, front, hblanks, hround, rfl⟩ := Peg.run_seq_some_iff.mp hround
    obtain ⟨rfl, rfl⟩ := run_blanks_some_iff.mp hblanks
    exact ⟨rest, .option (.seq hround hstar), hrest⟩
  · have hfail : Run rules e (trim rest) none := by
      cases hfail with
      | seqFirst hblanks => cases (run_blanks rest).unique hblanks
      | seqSecond hblanks hfail =>
          obtain ⟨-, rfl⟩ := run_blanks_some_iff.mp hblanks
          exact hfail
    exact ⟨trim rest, .optionNone (.seqFirst hfail), hrest.trim⟩

theorem complete_many {items : List α} {lexemes : List Lexeme}
    (h : Preceded (Takes rule tree Follow) items lexemes) {cs : List Char} {more : List Lexeme}
    (hcut : Cut cs (lexemes ++ more)) (hcomma : ∀ others, Follow (.comma :: others))
    (hmore : Follow more) (hhead : more.head? ≠ some .comma) :
    ∃ rest, Run rules (many (commaThen rule)) (trim cs) (some (items.map tree, rest)) ∧
      Cut rest more := by
  obtain ⟨rest, hstar, hrest⟩ := complete_star h hcut hcomma hmore hhead
  exact many_of_star hstar hrest

end Items

theorem ends_comma (others : List Lexeme) : Ends (.comma :: others) := by
  simp [Ends]

theorem endsElement_comma (others : List Lexeme) : EndsElement (.comma :: others) := by
  simp [EndsElement, Ends]

/-- The rule of a signature takes the type. -/
abbrev TakesType : Written → List Lexeme → Prop := Takes .signature Written.tree Ends

/-- The rule of an element takes the element. -/
abbrev TakesElement : WrittenElement → List Lexeme → Prop :=
  Takes .element WrittenElement.tree EndsElement

theorem complete_args {first : Written} {types : List Written} {own others : List Lexeme}
    (hfirst : TakesType first own) (htypes : Preceded TakesType types others)
    {cs : List Char} {more : List Lexeme}
    (hcut : Cut cs (.lessThan :: (own ++ (others ++ .greaterThan :: more)))) :
    ∃ rest, Run rules (.rule .typeArgs) (trim cs)
        (some ([.node .typeArgs ((first :: types).map Written.tree)], rest)) ∧ Cut rest more := by
  have hends : Ends (.greaterThan :: more) := by simp [Ends]
  obtain ⟨inside, htrim, hinside⟩ := cut_mark hcut .lessThan
  obtain ⟨after, hsignature, hafter⟩ :=
    hfirst inside _ hinside (htypes.follow ends_comma hends)
  obtain ⟨last, hmany, hlast⟩ := complete_many htypes hafter ends_comma hends (by simp)
  obtain ⟨rest, hclose, hrest⟩ := cut_mark hlast .greaterThan
  exact ⟨rest, run_typeArgs_iff.mpr ⟨inside, after, last, _, _, htrim, hsignature, hmany, hclose,
    rfl⟩, hrest⟩

theorem complete_tuple {first second : WrittenElement} {elements : List WrittenElement}
    {own next others : List Lexeme} (hfirst : TakesElement first own)
    (hsecond : TakesElement second next) (helements : Preceded TakesElement elements others)
    {cs : List Char} {more : List Lexeme}
    (hcut : Cut cs (.leftParen :: (own ++ .comma :: (next ++ (others ++ .rightParen :: more))))) :
    ∃ rest, Run rules (.rule .tuple) (trim cs)
        (some ([.node .tuple ((first :: second :: elements).map WrittenElement.tree)], rest)) ∧
      Cut rest more := by
  have hends : EndsElement (.rightParen :: more) := by simp [EndsElement, Ends]
  obtain ⟨inside, htrim, hinside⟩ := cut_mark hcut .leftParen
  obtain ⟨after, hrun, hafter⟩ := hfirst inside _ hinside (endsElement_comma _)
  obtain ⟨between, hcomma, hbetween⟩ := cut_mark hafter .comma
  obtain ⟨beyond, hnext, hbeyond⟩ :=
    hsecond between _ hbetween (helements.follow endsElement_comma hends)
  obtain ⟨last, hmany, hlast⟩ := complete_many helements hbeyond endsElement_comma hends (by simp)
  obtain ⟨rest, hclose, hrest⟩ := cut_mark hlast .rightParen
  have hround : Run rules (commaThen .element) (trim after) (some ([] ++ [second.tree], beyond)) :=
    run_andThen_iff.mpr ⟨[], between, _, run_literal_some_iff.mpr ⟨hcomma, rfl⟩, hnext, rfl⟩
  exact ⟨rest, run_tuple_iff.mpr ⟨inside, after, beyond, last, _, _, _, htrim, hrun, hround, hmany,
    hclose, rfl⟩, hrest⟩

theorem tuple_fails {path : String} (h : IsPath path.toList) (rest : List Char) :
    Run rules (.rule .tuple) (path.toList ++ rest) none := by
  obtain ⟨first, more, hpath, hfirst, -⟩ := h.starts
  refine .ruleFail (.seqFirst (run_literal_none_iff.mpr ?_))
  rw [hpath]
  rintro ⟨⟩
  cases hfirst

theorem takes_named {path : String} {args : List Written} (inside : List Lexeme)
    (marked : Bool)
    (h : ∀ {cs : List Char} {more : List Lexeme}, Cut cs (inside ++ more) →
      more.head? ≠ some .lessThan →
      ∃ rest, Run rules (.option (.rule .typeArgs)) (trim cs)
        (some (argsTrees (args.map Written.tree), rest)) ∧ Cut rest more) :
    TakesType (.named path args marked) (.path path :: inside ++ markLexemes marked) := by
  intro cs more hcut hmore
  have hcut : Cut cs (.path path :: (inside ++ (markLexemes marked ++ more))) := by
    simpa using hcut
  have hhead : (markLexemes marked ++ more).head? ≠ some .lessThan := by
    cases marked with
    | false => exact hmore.1
    | true => simp [markLexemes]
  obtain ⟨after, htrim, hpath, hstop, hafter⟩ := cut_path hcut
  obtain ⟨mid, hargs, hmid⟩ := h hafter hhead
  obtain ⟨rest, hmark, hrest⟩ := complete_mark hmid hmore.2
  have hnamed : Run rules (.rule .named) (path.toList ++ after) (some (_, mid)) :=
    run_named_iff.mpr ⟨path.toList, after, _, hpath, rfl, hstop, hargs, rfl⟩
  refine ⟨rest, ?_, hrest⟩
  rw [htrim]
  exact run_signature_iff.mpr ⟨mid, _, _, Or.inr ⟨tuple_fails hpath after, hnamed⟩, hmark,
    by simp [Written.tree]⟩

theorem takes_generic {first : Written} {types : List Written} {own others : List Lexeme}
    (path : String) (marked : Bool) (hfirst : TakesType first own)
    (htypes : Preceded TakesType types others) :
    TakesType (.named path (first :: types) marked)
      (.path path :: .lessThan :: (own ++ others) ++ .greaterThan :: markLexemes marked) := by
  have h : TakesType (.named path (first :: types) marked)
      (.path path :: (.lessThan :: (own ++ others) ++ [.greaterThan]) ++ markLexemes marked) := by
    refine takes_named _ marked fun {cs more} hcut _ => ?_
    obtain ⟨rest, hargs, hrest⟩ := complete_args hfirst htypes (by simpa using hcut)
    exact ⟨rest, .option hargs, hrest⟩
  simpa using h

theorem takes_tuple {first second : WrittenElement} {elements : List WrittenElement}
    {own next others : List Lexeme} (marked : Bool) (hfirst : TakesElement first own)
    (hsecond : TakesElement second next) (helements : Preceded TakesElement elements others) :
    TakesType (.tuple (first :: second :: elements) marked)
      (.leftParen :: (own ++ (.comma :: next ++ others)) ++ .rightParen :: markLexemes marked) := by
  intro cs more hcut hmore
  have hcut : Cut cs (.leftParen :: (own ++ .comma :: (next ++ (others ++ .rightParen ::
      (markLexemes marked ++ more))))) := by
    simpa using hcut
  obtain ⟨mid, htuple, hmid⟩ := complete_tuple hfirst hsecond helements hcut
  obtain ⟨rest, hmark, hrest⟩ := complete_mark hmid hmore.2
  exact ⟨rest, run_signature_iff.mpr ⟨mid, _, _, Or.inl htuple, hmark, by simp [Written.tree]⟩,
    hrest⟩

mutual

/-- The grammar takes a derivable type. -/
theorem takes_type : ∀ {type : Written} {lexemes : List Lexeme}, Derives type lexemes →
    TakesType type lexemes
  | _, _, .path path marked => by
      refine takes_named [] marked fun {cs more} hcut hmore => ?_
      have hfail : Run rules (.rule .typeArgs) (trim cs) none :=
        .ruleFail (.seqFirst (literal_fails hcut .lessThan hmore))
      exact ⟨trim cs, .optionNone hfail, hcut.trim⟩
  | _, _, .generic path marked hargs => by
      obtain ⟨first, types, own, others, rfl, rfl, hfirst, htypes⟩ := takes_types hargs
      exact takes_generic path marked hfirst htypes
  | _, _, .tuple marked helements htwo => by
      obtain ⟨first, elements, own, others, rfl, rfl, hfirst, hothers⟩ := takes_elements helements
      cases hothers with
      | nil => simp at htwo
      | cons hsecond hothers => exact takes_tuple marked hfirst hsecond hothers

theorem takes_types : ∀ {types : List Written} {lexemes : List Lexeme},
    DerivesTypes types lexemes → ∃ first others own rest, types = first :: others ∧
      lexemes = own ++ rest ∧ TakesType first own ∧ Preceded TakesType others rest
  | _, _, @DerivesTypes.one type lexemes htype =>
      ⟨type, [], lexemes, [], rfl, by simp, takes_type htype, .nil⟩
  | _, _, @DerivesTypes.more type types lexemes others htype htypes => by
      obtain ⟨first, types, own, rest, rfl, rfl, hfirst, htypes⟩ := takes_types htypes
      exact ⟨type, first :: types, lexemes, _, rfl, rfl, takes_type htype, .cons hfirst htypes⟩

theorem takes_element : ∀ {element : WrittenElement} {lexemes : List Lexeme},
    DerivesElement element lexemes → TakesElement element lexemes
  | _, _, @DerivesElement.mk type label lexemes htype hident => by
      intro cs more hcut hmore
      rw [List.append_assoc] at hcut
      have hends : Ends (labelLexemes label ++ more) := by
        cases label with
        | none => exact hmore.1
        | some text => simp [Ends, labelLexemes]
      obtain ⟨mid, hrun, hmid⟩ := takes_type htype cs _ hcut hends
      obtain ⟨rest, hlabel, hrest⟩ := complete_label hident hmid hmore.2
      exact ⟨rest, run_element_iff.mpr ⟨mid, _, _, hrun, hlabel, by simp [WrittenElement.tree]⟩,
        hrest⟩

theorem takes_elements : ∀ {elements : List WrittenElement} {lexemes : List Lexeme},
    DerivesElements elements lexemes → ∃ first others own rest, elements = first :: others ∧
      lexemes = own ++ rest ∧ TakesElement first own ∧ Preceded TakesElement others rest
  | _, _, @DerivesElements.one element lexemes helement =>
      ⟨element, [], lexemes, [], rfl, by simp, takes_element helement, .nil⟩
  | _, _, @DerivesElements.more element elements lexemes others helement helements => by
      obtain ⟨first, elements, own, rest, rfl, rfl, hfirst, helements⟩ := takes_elements helements
      exact ⟨element, first :: elements, lexemes, _, rfl, rfl, takes_element helement,
        .cons hfirst helements⟩

end

/-! ## The whole text -/

theorem cut_nil_iff {cs : List Char} : Cut cs [] ↔ trim cs = [] := by
  constructor
  · intro h
    rcases h.trim_cases with ⟨htrim, -⟩ | ⟨_, _, _, _, _, _, heq, _⟩ | ⟨_, _, _, _, _, _, heq, _⟩
    · exact htrim
    · cases heq
    · cases heq
  · intro h
    exact cut_of_trim (h ▸ .done)

/-- The grammar finds in a text exactly the trees of the types that the lexemes of the
text are derivable as. -/
theorem accepts_iff {text : List Char} {tree : ParseTree Rule} :
    Accepts text tree ↔ ∃ lexemes type, Cut text lexemes ∧ Derives type lexemes ∧
      tree = type.tree := by
  rw [Accepts, run_main_iff]
  constructor
  · rintro ⟨rest, hrun, hrest, -⟩
    obtain ⟨type, lexemes, htree, hderives, hspans⟩ := sound_signature _ _ _ hrun
    obtain rfl : tree = type.tree := by simpa using htree
    have hcut := hspans.of_trim [] (cut_nil_iff.mpr hrest)
    exact ⟨lexemes, type, by simpa using hcut, hderives, rfl⟩
  · rintro ⟨lexemes, type, hcut, hderives, rfl⟩
    have hends : Ends [] := by simp [Ends]
    obtain ⟨rest, hrun, hrest⟩ := takes_type hderives text [] (by simpa using hcut) hends
    exact ⟨rest, hrun, cut_nil_iff.mp hrest, rfl⟩

/-- The grammar fails on every other text. -/
theorem rejects_iff {text : List Char} :
    Run rules main text none ↔ ¬ ∃ tree, Accepts text tree := by
  constructor
  · rintro h ⟨tree, htree⟩
    cases h.unique htree
  · intro h
    obtain ⟨_ | ⟨trees, rest⟩, hrun⟩ := total_main text.length text le_rfl
    · exact hrun
    · obtain ⟨after, hsignature, -, rfl⟩ := run_main_iff.mp hrun
      obtain ⟨type, -, rfl, -, -⟩ := sound_signature _ _ _ hsignature
      exact absurd ⟨type.tree, hrun⟩ h

end TypeNaming.Signature
