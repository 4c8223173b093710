/-
# When the hint tells unions apart

The hint is the key of the unit that is generated for a union, and units with different
alternatives should have different keys.  They do not always: a tuple and a nullable value
give their readable name, which is no key, and inside a declaration a nullable value leaves
out its type arguments (`hint_not_unique`).  This module proves what is left.  Without open
type parameters and without `_` in names, the hint of a union tells its alternatives apart
when none of them is a tuple, none is called `Nullable…`, and no nullable value occurs in
them (`beq_of_hint`).

The hint of an alternative is its short name and, in brackets, the declarations of its
arguments, so the argument goes on from `alike_of_declaration`: each hint is read up to
where it ends, which is at a `_` or at the end of the text.
-/
import TypeNaming.Proofs.Grammar.Labels
import TypeNaming.Proofs.Identity.Declaration

namespace TypeNaming

open Text (lastPart)

namespace NameTree

/-! ## The hint of an alternative -/

/-- The name that the hint begins with, after `Nullable` at a reference under `?` that has
no arguments. -/
def hintLead (info : NodeInfo) : List NameTree → List Char
  | [] =>
    if info.kind.onReference then
      "Nullable".toList ++ (ShortName.qualified info.qualified).toList
    else (ShortName.qualified info.qualified).toList
  | _ :: _ => (ShortName.qualified info.qualified).toList

/-- The arguments in their brackets, as a hint has them. -/
def hintTail : List NameTree → List Char
  | [] => []
  | child :: others =>
    '<' :: child.declaration.toList ++ followText ['_'] (others.map declaration) ++ ['>']

/-- The alternative is no tuple, has no name that could be read as the hint of another one
under `?`, and has no nullable value in it. -/
structure Telling (t : NameTree) : Prop where
  tuple : t.kind ≠ .tuple
  unprefixed : ¬ "Nullable".toList <+: (ShortName.qualified t.qualified).toList
  value : ∀ node ∈ t.nodes, node.kind ≠ .nullableValue

instance (t : NameTree) : Decidable t.Telling :=
  decidable_of_iff (t.kind ≠ .tuple ∧
      ¬ "Nullable".toList <+: (ShortName.qualified t.qualified).toList ∧
      ∀ node ∈ t.nodes, node.kind ≠ .nullableValue)
    ⟨fun h => ⟨h.1, h.2.1, h.2.2⟩, fun h => ⟨h.tuple, h.unprefixed, h.value⟩⟩

theorem toList_hint {info : NodeInfo} {children : List NameTree} (htuple : info.kind ≠ .tuple)
    (hvalue : info.kind ≠ .nullableValue) :
    (hint (.node info children)).toList = hintLead info children ++ hintTail children := by
  obtain ⟨name, qualified, kind, label, marks⟩ := info
  cases children with
  | nil =>
      show (if kind.isNullable then "Nullable" ++ ShortName.qualified qualified
        else ShortName.qualified qualified).toList = _
      have hmark : kind.isNullable = kind.onReference := by
        cases kind with
        | nullableValue => exact absurd rfl hvalue
        | _ => rfl
      rw [hmark, hintLead, hintTail, List.append_nil]
      split
      · exact String.toList_append
      · rfl
  | cons child others =>
      have hbrackets : hint (.node ⟨name, qualified, kind, label, marks⟩ (child :: others))
          = ShortName.qualified qualified ++ "<" ++
            "_".intercalate (child.declaration :: others.map declaration) ++ ">" := by
        cases kind with
        | tuple => exact absurd rfl htuple
        | nullableValue => exact absurd rfl hvalue
        | _ => rfl
      rw [hbrackets]
      simp only [String.toList_append, toList_intercalate_cons]
      simp [hintLead, hintTail]

section

variable {info info' : NodeInfo} {children children' : List NameTree}

theorem Plainly.clean_short (h : Plainly info children) (htuple : info.kind ≠ .tuple) :
    Clean (ShortName.qualified info.qualified).toList :=
  clean_qualified (h.name htuple h.value).2.1

theorem clean_nullable_append {name : List Char} (h : Clean name) :
    Clean ("Nullable".toList ++ name) := by
  have hword : Clean "Nullable".toList := by decide
  intro c hc
  rcases List.mem_append.mp hc with hc | hc
  · exact hword c hc
  · exact h c hc

theorem Plainly.clean_hintLead (h : Plainly info children) (htuple : info.kind ≠ .tuple) :
    Clean (hintLead info children) := by
  cases children with
  | nil =>
      rw [hintLead]
      split
      · exact clean_nullable_append (h.clean_short htuple)
      · exact h.clean_short htuple
  | cons child others => exact h.clean_short htuple

theorem delimited_hintTail (children : List NameTree) {rest : List Char} (hrest : Ended rest) :
    Delimited (hintTail children ++ rest) := by
  cases children with
  | nil => exact hrest.delimited
  | cons child others => exact delimited_cons (by decide)

theorem hintTail_ne {child : NameTree} {others : List NameTree} {rest rest' : List Char}
    (hrest : Ended rest) : hintTail [] ++ rest ≠ hintTail (child :: others) ++ rest' := by
  intro h
  have hhead : rest.head? = some '<' := by
    rw [hintTail, List.nil_append] at h
    rw [h]
    rfl
  exact absurd (hrest '<' hhead) (by decide)

/-- At a leaf, `Nullable` is not part of the name, so the name and the `?` are known. -/
theorem hintLead_leaf_inj
    (h : ¬ "Nullable".toList <+: (ShortName.qualified info.qualified).toList)
    (h' : ¬ "Nullable".toList <+: (ShortName.qualified info'.qualified).toList)
    (heq : hintLead info [] = hintLead info' []) :
    ShortName.qualified info.qualified = ShortName.qualified info'.qualified ∧
      info.kind.onReference = info'.kind.onReference := by
  rw [hintLead, hintLead] at heq
  cases hmark : info.kind.onReference with
  | true =>
      cases hmark' : info'.kind.onReference with
      | true =>
          rw [hmark, hmark'] at heq
          exact ⟨String.toList_inj.mp (List.append_cancel_left heq), rfl⟩
      | false =>
          rw [hmark, hmark'] at heq
          exact absurd ⟨_, heq⟩ h'
  | false =>
      cases hmark' : info'.kind.onReference with
      | true =>
          rw [hmark, hmark'] at heq
          exact absurd ⟨_, heq.symm⟩ h
      | false =>
          rw [hmark, hmark'] at heq
          exact ⟨String.toList_inj.mp heq, rfl⟩

end

/-! ## Reading hints -/

/-- A hint gives away its tree, and where it ends. -/
theorem alike_of_hint {t u : NameTree} (ht : t.Everywhere Plainly) (hu : u.Everywhere Plainly)
    (htelling : t.Telling) (htelling' : u.Telling) {rest rest' : List Char}
    (hrest : Ended rest) (hrest' : Ended rest')
    (heq : t.hint.toList ++ rest = u.hint.toList ++ rest') : Alike t u ∧ rest = rest' := by
  obtain @⟨info, children, h, hchildren⟩ := ht
  obtain @⟨info', children', h', hchildren'⟩ := hu
  have htuple : info.kind ≠ .tuple := htelling.tuple
  have htuple' : info'.kind ≠ .tuple := htelling'.tuple
  rw [toList_hint htuple h.value, toList_hint htuple' h'.value] at heq
  simp only [List.append_assoc] at heq
  obtain ⟨hlead, htail⟩ := (h.clean_hintLead htuple).append_inj (h'.clean_hintLead htuple')
    (delimited_hintTail _ hrest) (delimited_hintTail _ hrest') heq
  have halike {leaf : Prop}
      (hshort : ShortName.qualified info.qualified = ShortName.qualified info'.qualified)
      (hmark : leaf → info.kind.onReference = info'.kind.onReference) :
      info.Alike info' leaf := by
    refine h.alike h' (iff_of_false htuple htuple') ?_ hmark
    have hleads : leadText info = (ShortName.qualified info.qualified).toList := if_neg htuple
    have hleads' : leadText info' = (ShortName.qualified info'.qualified).toList :=
      if_neg htuple'
    rw [hleads, hleads', hshort]
  cases children with
  | nil =>
      cases children' with
      | nil =>
          obtain ⟨hshort, hmark⟩ := hintLead_leaf_inj htelling.unprefixed htelling'.unprefixed hlead
          exact ⟨⟨halike hshort fun _ => hmark, trivial⟩, htail⟩
      | cons child' others' => exact absurd htail (hintTail_ne hrest)
  | cons child others =>
      cases children' with
      | nil => exact absurd htail.symm (hintTail_ne hrest')
      | cons child' others' =>
          obtain ⟨hchild, hothers⟩ := List.forall_mem_cons.mp hchildren
          obtain ⟨hchild', hothers'⟩ := List.forall_mem_cons.mp hchildren'
          have hshort := String.toList_inj.mp hlead
          have hclose : '>' ∈ ['>', ')'] := List.mem_cons_self
          rw [hintTail, hintTail] at htail
          simp only [List.cons_append, List.append_assoc, List.nil_append] at htail
          obtain ⟨hfirst, hfollow⟩ := alike_of_declaration hchild hchild'
            (ended_followText (Or.inr rfl) _ hclose rest)
            (ended_followText (Or.inr rfl) _ hclose rest') (List.cons.inj htail).2
          obtain ⟨hall, hends⟩ :=
            alikeAll_of_followText (Or.inr rfl) hothers hothers' hclose hclose hfollow
          exact ⟨⟨halike hshort (fun hnil => absurd hnil (List.cons_ne_nil _ _)),
            hfirst, hall⟩, hends⟩

theorem ended_follow_hints (hints : List String) : Ended (followText ['_'] hints) := by
  cases hints with
  | nil =>
      intro c hc
      cases hc
  | cons hint hints => exact ended_cons (by decide)

theorem alikeAll_of_follow_hints : ∀ {ts us : List NameTree},
    (∀ t ∈ ts, t.Everywhere Plainly ∧ t.Telling) → (∀ u ∈ us, u.Everywhere Plainly ∧ u.Telling) →
    followText ['_'] (ts.map hint) = followText ['_'] (us.map hint) → AlikeAll ts us
  | [], [], _, _, _ => trivial
  | [], _ :: _, _, _, heq => by cases heq
  | _ :: _, [], _, _, heq => by cases heq
  | t :: ts, u :: us, ht, hu, heq => by
      obtain ⟨hfirst, hothers⟩ := List.forall_mem_cons.mp ht
      obtain ⟨hfirst', hothers'⟩ := List.forall_mem_cons.mp hu
      obtain ⟨halike, hfollow⟩ := alike_of_hint hfirst.1 hfirst'.1 hfirst.2 hfirst'.2
        (ended_follow_hints _) (ended_follow_hints _) (List.cons.inj heq).2
      exact ⟨halike, alikeAll_of_follow_hints hothers hothers' hfollow⟩

theorem hint_ne_empty {t : NameTree} (ht : t.Everywhere Plainly) (htelling : t.Telling) :
    t.hint ≠ "" := by
  cases ht with
  | @node info children h _ =>
      intro hempty
      have htuple : info.kind ≠ .tuple := htelling.tuple
      have hparts : (hint (.node info children)).toList = _ := toList_hint htuple h.value
      rw [hempty] at hparts
      have hlead := (List.append_eq_nil_iff.mp hparts.symm).1
      have hshort := (h.name htuple h.value).2.2
      cases children with
      | nil =>
          rw [hintLead] at hlead
          split at hlead
          · cases hlead
          · exact hshort (String.toList_eq_nil_iff.mp hlead)
      | cons child others => exact hshort (String.toList_eq_nil_iff.mp hlead)

theorem joined_hints_ne_empty {t : NameTree} (ht : t.Everywhere Plainly) (htelling : t.Telling)
    (ts : List NameTree) : "_".intercalate ((t :: ts).map hint) ≠ "" := by
  intro hempty
  have htexts := congrArg String.toList hempty
  rw [List.map_cons, toList_intercalate_cons] at htexts
  have hhint := (List.append_eq_nil_iff.mp htexts).1
  exact hint_ne_empty ht htelling (String.toList_eq_nil_iff.mp hhint)

/-- The joined hints give away the trees. -/
theorem alikeAll_of_hints {ts us : List NameTree}
    (ht : ∀ t ∈ ts, t.Everywhere Plainly ∧ t.Telling)
    (hu : ∀ u ∈ us, u.Everywhere Plainly ∧ u.Telling)
    (heq : "_".intercalate (ts.map hint) = "_".intercalate (us.map hint)) : AlikeAll ts us := by
  cases ts with
  | nil =>
      cases us with
      | nil => trivial
      | cons u us =>
          obtain ⟨hplain, htelling⟩ := hu u List.mem_cons_self
          exact absurd heq.symm (joined_hints_ne_empty hplain htelling us)
  | cons t ts =>
      cases us with
      | nil =>
          obtain ⟨hplain, htelling⟩ := ht t List.mem_cons_self
          exact absurd heq (joined_hints_ne_empty hplain htelling ts)
      | cons u us =>
          have htexts := congrArg String.toList heq
          rw [List.map_cons, List.map_cons, toList_intercalate_cons,
            toList_intercalate_cons] at htexts
          exact alikeAll_of_follow_hints ht hu (congrArg ('_' :: ·) htexts)

end NameTree

/-! ## The names of types that are read -/

namespace Signature

open NameTree (Clean Spelled delimiters)

/-- The simple name goes with the qualified one, and names and labels have no delimiter;
what wraps a nullable value is not asked. -/
def SpelledFacts (facts : Facts) : Prop :=
  (∀ label ∈ facts.labels, Clean label.toList) ∧
    ((facts.annotated && facts.value) = false →
      if facts.tuple then facts.name = "ValueTuple"
      else facts.name = lastPart facts.qualified ∧ Clean facts.qualified.toList ∧
        ShortName.qualified facts.qualified ≠ "")

/-- All parts of the type are spelled so. -/
abbrev Legible : TypeFacts Unit → Prop :=
  TypeFacts.Everywhere fun facts _ => SpelledFacts facts

theorem IsPath.exists_last {cs : List Char} (h : IsPath cs) :
    ∃ c, cs.getLast? = some c ∧ c ≠ '.' := by
  induction h with
  | @ident cs h =>
      have hne : cs ≠ [] := by
        obtain ⟨first, rest, rfl, -⟩ := h
        exact List.cons_ne_nil _ _
      refine ⟨cs.getLast hne, List.getLast?_eq_some_getLast hne, ?_⟩
      intro hdot
      exact h.avoids rfl (hdot ▸ List.getLast_mem hne)
  | @dotted cs rest _ _ ih =>
      obtain ⟨c, hlast, hc⟩ := ih
      refine ⟨c, ?_, hc⟩
      rw [List.getLast?_append, List.getLast?_cons, hlast]
      rfl

/-- A path or label without `_`. -/
def PlainName (name : String) : Prop :=
  IsPath name.toList ∧ '_' ∉ name.toList

theorem PlainName.clean {name : String} (h : PlainName name) : Clean name.toList := by
  intro c hc hmem
  by_cases hbar : c = '_'
  · exact h.2 (hbar ▸ hc)
  · have hstop : isIdentRest c = false := by
      simp [isIdentRest, NameTree.isAlphanum_delimiter hmem, hbar]
    have hdot : c ≠ '.' := by
      rintro rfl
      exact absurd hmem (by decide)
    exact h.1.avoids hstop hdot hc

theorem legible_nominal {qualified : String} (value : Bool) {args : List (TypeFacts Unit)}
    (hclean : Clean qualified.toList) (hne : ShortName.qualified qualified ≠ "")
    (hargs : ∀ arg ∈ args, Legible arg) :
    Legible (nominal (lastPart qualified) qualified value args) :=
  .mk ⟨by simp, fun _ => ⟨rfl, hclean, hne⟩⟩ hargs

theorem legible_nullable {inner : TypeFacts Unit} (h : Legible inner) :
    Legible (nullable inner) := by
  refine .mk ⟨by simp, by simp⟩ fun arg hmem => ?_
  obtain rfl := List.mem_singleton.mp hmem
  exact h

theorem legible_denoteMark {type : TypeFacts Unit} (h : Legible type) :
    Legible (denoteMark type) := by
  unfold denoteMark
  split
  · exact legible_nullable h
  · next hvalue =>
      cases h with
      | @mk facts args _ hown hargs =>
          have hvalue : facts.value = false := Bool.eq_false_iff.mpr hvalue
          refine .mk ⟨hown.1, fun _ => ?_⟩ hargs
          exact hown.2 (by rw [hvalue, Bool.and_false])

theorem legible_denotePath {context : Context} (hparams : context.typeParams = [])
    {path : String} (hpath : PlainName path) {args : List (TypeFacts Unit)}
    (hargs : ∀ arg ∈ args, Legible arg) : Legible (denotePath context path args) := by
  have hshort : ShortName.qualified path ≠ "" := by
    obtain ⟨c, hlast, hc⟩ := hpath.1.exists_last
    exact ShortName.qualified_ne_empty hlast hc
  unfold denotePath
  rw [if_neg (by simp [hparams])]
  split
  · next type htype =>
      have hname : ∀ type ∈ ShortName.builtIns, lastPart ("System." ++ type.name) = type.name ∧
          Clean ("System." ++ type.name).toList ∧
          ShortName.qualified ("System." ++ type.name) ≠ "" := by decide
      obtain ⟨hlast, hclean, hne⟩ := hname type (List.mem_of_find?_eq_some htype)
      have hnominal := legible_nominal type.isValue hclean hne (List.forall_mem_nil _)
      rw [hlast] at hnominal
      exact hnominal
  · next inner _ =>
      split
      · exact legible_nullable (hargs inner List.mem_cons_self)
      · exact legible_nominal _ hpath.clean hshort hargs
  · exact legible_nominal _ hpath.clean hshort hargs

theorem clean_labelsOf {elements : List WrittenElement}
    (h : ∀ element ∈ elements, ∀ label, element.label = some label → PlainName label) :
    ∀ label ∈ labelsOf elements, Clean label.toList := by
  intro label hlabel
  obtain ⟨index, hindex, rfl⟩ := List.mem_mapIdx.mp hlabel
  cases hown : elements[index].label with
  | some own => exact (h _ (List.getElem_mem hindex) own hown).clean
  | none =>
      intro c hc hmem
      have hletter := isAlphanum_of_mem_defaultLabel hc
      rw [NameTree.isAlphanum_delimiter hmem] at hletter
      cases hletter

/-- What a derivable type denotes is legible, without type parameters and `_`. -/
theorem kept_legible {context : Context} (hparams : context.typeParams = []) :
    Kept context PlainName Legible where
  path hpath hargs := legible_denotePath hparams hpath hargs
  mark htype := legible_denoteMark htype
  tuple _ htypes hlabels :=
    .mk ⟨clean_labelsOf hlabels, fun _ => rfl⟩ (List.forall_mem_map.mpr htypes)

theorem SpelledFacts.kindOf {facts : Facts} (h : SpelledFacts facts)
    (args : List (TypeFacts Unit)) (marks : Marks) :
    Spelled ⟨facts.name, facts.qualified, TypeFacts.kindOf facts args, none, marks⟩ := by
  obtain ⟨-, hname⟩ := h
  unfold TypeFacts.kindOf
  cases hnullable : facts.annotated && facts.value with
  | true => exact ⟨by simp, by simp, by simp⟩
  | false =>
      specialize hname hnullable
      cases htuple : facts.tuple with
      | true =>
          rw [htuple] at hname
          exact ⟨by simp, fun _ => hname, by simp⟩
      | false =>
          rw [htuple] at hname
          refine ⟨by simp, ?_, fun _ _ => hname⟩
          cases args.isEmpty <;> simp

theorem spelled_of_legible {type : TypeFacts Unit} (h : Legible type) :
    type.toNameTree.Everywhere fun info _ => Spelled info := by
  refine h.toNameTree ?_ ?_
  · intro facts args marks children hown _
    exact hown.kindOf args marks
  · intro facts args label info children hown hlabel hinfo
    refine ⟨?_, hinfo.tuple, hinfo.name⟩
    intro text htext
    obtain rfl := Option.some.inj htext
    exact hown.1 label hlabel

theorem Cut.called_plainName {text : List Char} (hbar : '_' ∉ text) {lexemes : List Lexeme}
    (h : Cut text lexemes) : Called PlainName lexemes :=
  fun _ hmem => ⟨h.isPath hmem, fun hpath => hbar (h.subset_of_path hmem hpath)⟩

/-- The arguments of a type that is read have trees with plain declarations, where no
nullable value is in them. -/
theorem plainly_of_read {context : Context} (hparams : context.typeParams = [])
    {source : String} (hbar : '_' ∉ source.toList) {signature : Signature}
    (h : read context source = .ok signature) : ∀ arg ∈ signature.args,
      arg.toNameTree.Regular ∧
        (arg.toNameTree.Telling → arg.toNameTree.Everywhere NameTree.Plainly) := by
  have hsettled := (kept_settled hparams).read h Cut.called_isPath
  have hlegible := (kept_legible hparams).read h (Cut.called_plainName hbar)
  intro arg hmem
  have hregular : arg.bare.toNameTree.Regular :=
    TypeFacts.Settled.regular (hsettled.args arg hmem)
  have hspelled := spelled_of_legible (hlegible.args arg hmem)
  rw [TypeFacts.toNameTree_bare] at hregular hspelled
  exact ⟨hregular, fun htelling => NameTree.plainly_of_regular hregular hspelled htelling.value⟩

end Signature

/-! ## Unions that are read -/

/-- Every alternative is one that its hint tells from others. -/
def Alternatives.Telling (a : Alternatives) : Prop :=
  ∀ t ∈ a.toList, t.Telling

instance (a : Alternatives) : Decidable a.Telling :=
  inferInstanceAs (Decidable (∀ t ∈ a.toList, t.Telling))

namespace UnionType

theorem plainly_of_read {context : Context} (hparams : context.typeParams = [])
    {source : String} (hbar : '_' ∉ source.toList) {u : UnionType}
    (h : read context source = .ok u) : ∀ t ∈ u.alternatives.toList,
      t.Regular ∧ (t.Telling → t.Everywhere NameTree.Plainly) := by
  rw [alternatives_of_read h]
  exact List.forall_mem_map.mpr (Signature.plainly_of_read hparams hbar (read_eq_ok h).1)

/-- Two unions with one hint have equal alternatives, when no name has `_` in it, no type
parameter is open, and the alternatives are such that their hints tell them from others. -/
theorem beq_of_hint {context : Context} (hparams : context.typeParams = [])
    {source source' : String} (hbar : '_' ∉ source.toList) (hbar' : '_' ∉ source'.toList)
    {u v : UnionType} (h : read context source = .ok u) (h' : read context source' = .ok v)
    (htelling : u.alternatives.Telling) (htelling' : v.alternatives.Telling)
    (heq : u.alternatives.hint = v.alternatives.hint) :
    (u.alternatives == v.alternatives) = true := by
  have htrees := plainly_of_read hparams hbar h
  have htrees' := plainly_of_read hparams hbar' h'
  have halike : NameTree.AlikeAll u.alternatives.toList v.alternatives.toList :=
    NameTree.alikeAll_of_hints
      (fun t ht => ⟨(htrees t ht).2 (htelling t ht), htelling t ht⟩)
      (fun t ht => ⟨(htrees' t ht).2 (htelling' t ht), htelling' t ht⟩) heq
  exact (NameTree.sameAll_iff_alikeAll (fun t ht => (htrees t ht).1)
    (fun t ht => (htrees' t ht).1)).mpr halike

/-- A keyword and its type in `System` have one hint. -/
theorem beq_of_hint_keyword :
    ∃ u v, read {} "OneOf<List<int>, Map<A, B?>?>" = .ok u ∧
      read {} "OneOf<List<System.Int32>, Map<A, B?>>" = .ok v ∧
      u.alternatives.hint = v.alternatives.hint ∧
      (u.alternatives == v.alternatives) = true := by
  obtain ⟨u, v, hu, hv, h⟩ := exists_of_readBoth
    "OneOf<List<int>, Map<A, B?>?>" "OneOf<List<System.Int32>, Map<A, B?>>"
    (fun u v => decide (u.alternatives.Telling) && decide (v.alternatives.Telling)
      && decide (u.alternatives.hint = v.alternatives.hint))
    (by decide +kernel)
  simp only [Bool.and_eq_true, decide_eq_true_eq] at h
  exact ⟨u, v, hu, hv, h.2,
    beq_of_hint rfl (by decide) (by decide) hu hv h.1.1 h.1.2 h.2⟩

/-- The hint of a tuple runs on into the next alternative. -/
theorem hint_not_unique :
    ∃ u v, read {} "OneOf<(A, B), C>" = .ok u ∧ read {} "OneOf<(A, B, C)>" = .ok v ∧
      u.alternatives.hint = "ValueTupleOfA_B_C" ∧
      v.alternatives.hint = "ValueTupleOfA_B_C" ∧
      (u.alternatives == v.alternatives) = false := by
  obtain ⟨u, v, hu, hv, h⟩ := exists_of_readBoth "OneOf<(A, B), C>" "OneOf<(A, B, C)>"
    (fun u v => decide (u.alternatives.hint = "ValueTupleOfA_B_C")
      && decide (v.alternatives.hint = "ValueTupleOfA_B_C")
      && !(u.alternatives == v.alternatives))
    (by decide +kernel)
  simp only [Bool.and_eq_true, decide_eq_true_eq, Bool.not_eq_true'] at h
  exact ⟨u, v, hu, hv, h.1.1, h.1.2, h.2⟩

end UnionType

end TypeNaming
