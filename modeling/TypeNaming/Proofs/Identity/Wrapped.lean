/-
# Declarations of nullable values

A nullable value is declared by its qualified name, and every other type by its parts.  The
qualified name has less to say: type arguments are not in it, nor is the `?` of a reference,
so two nullable values can share a declaration when the types under the `?` do not
(`declaration_mark_shared`).

What the qualified name leaves out is also all that is lost.  Where it spells the type out
(`TypeFacts.speltOut`), the declaration of the type under `?` tells the declaration of the
type, labels apart (`unlabelled_of_declaration_mark`).  The name is taken apart as the tree
that it is the text of, and the declaration is read off that tree (`Written.shown`).

`System.Object` is excluded as the type under the `?`: it has a keyword, and none under `?`.
-/
import TypeNaming.Proofs.Facts.Losses
import TypeNaming.Proofs.Grammar.Marked
import TypeNaming.Proofs.RoundTrip.Declared

namespace TypeNaming

namespace TypeFacts

variable {α : Type}

mutual

/-- The qualified name spells the type out: no argument has a node, except the elements of a
tuple, which all have one, and no reference is under `?`.  The name of a nullable value is all
that it is declared by, so nothing is asked of what it wraps. -/
def speltOut : TypeFacts α → Bool
  | .mk facts args note =>
    if facts.annotated && facts.value then true
    else if facts.tuple then !(TypeFacts.mk facts args note).drops && speltOutAll args
    else !facts.annotated && (TypeFacts.mk facts args note).kept.isEmpty

/-- The qualified name of each of the types spells it out. -/
def speltOutAll : List (TypeFacts α) → Bool
  | [] => true
  | arg :: args => speltOut arg && speltOutAll args

end

theorem speltOutAll_iff {args : List (TypeFacts α)} :
    speltOutAll args = true ↔ ∀ arg ∈ args, arg.speltOut = true := by
  induction args with
  | nil => simp [speltOutAll]
  | cons arg args ih => rw [speltOutAll, Bool.and_eq_true, ih, List.forall_mem_cons]

/-! ## The declaration of one node -/

/-- What is declared by its qualified name alone. -/
theorem RootOf.unlabelled_of_childless {t : NameTree} {type : TypeFacts α} (h : RootOf t type)
    (hbare : t.kind = .nullableValue ∨ t.kind.onReference = false ∧ type.kept = []) :
    t.unlabelled = ShortName.qualified type.facts.qualified := by
  obtain ⟨info, children⟩ := t
  rw [NameTree.unlabelled_node, ← h.qualified]
  rcases hbare with hkind | ⟨hkind, hkept⟩
  · have hkind : info.kind = .nullableValue := hkind
    rw [hkind]
    rfl
  · have hkind : info.kind.onReference = false := hkind
    have hchildren := h.children
    rw [hkept, List.forall₂_nil_right_iff] at hchildren
    obtain rfl : children = [] := hchildren
    obtain ⟨name, qualified, kind, label, marks⟩ := info
    cases kind <;> simp_all [NameTree.unlabelledOver, NameTree.qualified]

theorem RootOf.unlabelled_tuple {t : NameTree} {type : TypeFacts α} (h : RootOf t type)
    (hkind : t.kind = .tuple) {texts : List String}
    (htexts : t.children.map NameTree.unlabelled = texts) (hne : texts ≠ []) :
    t.unlabelled = "(" ++ ", ".intercalate texts ++ ")" := by
  obtain ⟨info, children⟩ := t
  have hkind : info.kind = .tuple := hkind
  rw [NameTree.unlabelled_node, hkind, ← htexts]
  exact NameTree.unlabelledOver_tuple _ (htexts ▸ hne)

end TypeFacts

namespace Signature

open TypeFacts (Coherent RootOf)

/-! ## The declaration, read off the qualified name -/

mutual

/-- The declaration without labels of a type whose qualified name the tree writes, when the
name spells the type out. -/
def Written.shown : Written → String
  | .named path args marked => ShortName.qualified (Written.named path args marked).text
  | .tuple elements true => ShortName.qualified (Written.tuple elements true).text
  | .tuple elements false => "(" ++ ", ".intercalate (WrittenElement.shownAll elements) ++ ")"

/-- The same for each of the elements. -/
def WrittenElement.shownAll : List WrittenElement → List String
  | [] => []
  | .mk type _ :: elements => type.shown :: WrittenElement.shownAll elements

end

theorem shownAll_map (types : List (TypeFacts Unit)) :
    WrittenElement.shownAll (types.map fun type => .mk (qualifiedForm type) none)
      = types.map fun type => (qualifiedForm type).shown := by
  induction types with
  | nil => rfl
  | cons type types ih => rw [List.map_cons, WrittenElement.shownAll, ih, List.map_cons]

theorem shown_withMark (type : Written) :
    type.withMark.shown = ShortName.qualified type.withMark.text := by
  cases type with
  | named path args marked => rw [Written.withMark, Written.shown]
  | tuple elements marked => rw [Written.withMark, Written.shown]

section

variable {context : Context} {type other : TypeFacts Unit}

/-- Where the qualified name spells the type out, the declaration is read off it. -/
theorem unlabelled_eq_shown (h : type.Everywhere (Coherent context))
    (hspelt : type.speltOut = true) {t : NameTree} (ht : type.IsTree t) :
    t.unlabelled = (qualifiedForm type).shown := by
  have hcoherent := h
  induction h generalizing t with
  | @mk facts args _ hown hargs ih =>
      have hroot := Coherent.rootOf hown ht
      have htext := text_qualifiedForm hcoherent
      have hkind := hroot.kind
      rw [TypeFacts.speltOut] at hspelt
      cases hown.shape with
      | @wrapper inner htuple hnullable =>
          have hkind : t.kind = .nullableValue := hkind.trans (if_pos hnullable)
          rw [hroot.unlabelled_of_childless (Or.inl hkind), ← htext,
            qualifiedForm_wrapper htuple hnullable, shown_withMark]
      | plain htuple hplain =>
          simp only [hplain, htuple, Bool.false_eq_true, if_false, Bool.and_eq_true,
            Bool.not_eq_true', List.isEmpty_iff] at hspelt
          have hreference : t.kind.onReference = false := by
            rw [hkind, TypeFacts.kindOf]
            simp only [TypeFacts.facts, hplain, htuple, Bool.false_eq_true, if_false]
            split <;> exact hspelt.1
          rw [hroot.unlabelled_of_childless (Or.inr ⟨hreference, hspelt.2⟩), ← htext,
            qualifiedForm_plain htuple hplain, Written.shown]
      | tuple htuple hplain helements =>
          simp only [hplain, htuple, Bool.false_eq_true, if_false, if_true, Bool.and_eq_true,
            Bool.not_eq_true', TypeFacts.speltOutAll_iff] at hspelt
          obtain ⟨hdrops, hspelt⟩ := hspelt
          have hkind : t.kind = .tuple := by
            rw [hkind, TypeFacts.kindOf]
            simp only [TypeFacts.facts, hplain, htuple, Bool.false_eq_true, if_false, if_true]
          have hchildren := hroot.children
          rw [TypeFacts.kept_of_not_drops hdrops] at hchildren
          have htexts : t.children.map NameTree.unlabelled
              = args.map fun arg => (qualifiedForm arg).shown := by
            rw [← List.forall₂_eq_eq_eq, List.forall₂_map_left_iff, List.forall₂_map_right_iff,
              List.forall₂_iff_zip]
            refine ⟨hchildren.length_eq, fun {child arg} hmem => ?_⟩
            have harg : arg ∈ args := (List.of_mem_zip hmem).2
            exact ih arg harg (hspelt arg harg) (List.forall₂_zip hchildren hmem) (hargs arg harg)
          have hne : args ≠ [] :=
            List.ne_nil_of_length_pos (Nat.lt_of_lt_of_le Nat.zero_lt_two helements.two)
          rw [hroot.unlabelled_tuple hkind htexts (by simpa using hne),
            qualifiedForm_elements htuple, Written.shown, shownAll_map]

end

/-! ## The declaration under a `?` -/

section

variable {context : Context} {type other : TypeFacts Unit}

theorem head?_of_tuple (h : Coherent context type.facts type.args)
    (htuple : type.facts.tuple = true) : type.facts.qualified.toList.head? = some '(' := by
  rw [(h.tuple htuple).qualified]
  simp

/-- The short name of a type without a `?` tells whether it is a tuple. -/
theorem head?_qualified_iff (h : Coherent context type.facts type.args)
    (hpathed : CalledByPath type.facts) (hannotated : type.facts.annotated = false) :
    (ShortName.qualified type.facts.qualified).toList.head? = some '(' ↔
      type.facts.tuple = true := by
  constructor
  · intro hhead
    refine Bool.of_not_eq_false fun htuple => ?_
    have hpath := hpathed htuple (by rw [hannotated]; rfl)
    have hparen := ShortName.qualified_avoids (c := '(') rfl (hpath.avoids rfl (by decide))
    exact hparen (List.mem_of_mem_head? hhead)
  · intro htuple
    have hparen := head?_of_tuple h htuple
    rw [NameTree.qualified_of_paren hparen]
    exact hparen

/-- The short name of a type without a `?` keeps one that is put after it. -/
theorem qualified_mark (h : Coherent context type.facts type.args)
    (hpathed : CalledByPath type.facts) (hannotated : type.facts.annotated = false)
    (hobject : type.facts.qualified ≠ "System.Object") :
    ShortName.qualified (type.facts.qualified ++ "?")
      = ShortName.qualified type.facts.qualified ++ "?" := by
  cases htuple : type.facts.tuple with
  | false =>
      have hpath := hpathed htuple (by rw [hannotated]; rfl)
      exact ShortName.qualified_append_mark (hpath.avoids rfl (by decide)) hobject
  | true =>
      have hparen := head?_of_tuple h htuple
      have hmarked : (type.facts.qualified ++ "?").toList.head? = some '(' := by simp [hparen]
      rw [NameTree.qualified_of_paren hparen, NameTree.qualified_of_paren hmarked]

theorem shown_of_not_tuple (h : type.Everywhere (Coherent context))
    (hannotated : type.facts.annotated = false) (htuple : type.facts.tuple = false) :
    (qualifiedForm type).shown = ShortName.qualified type.facts.qualified := by
  have htext := text_qualifiedForm h
  obtain ⟨facts, args, _⟩ := type
  have hannotated : facts.annotated = false := hannotated
  have hplain : (facts.annotated && facts.value) = false := by rw [hannotated]; rfl
  have hform : qualifiedForm (.mk facts args ()) = .named facts.qualified [] false :=
    qualifiedForm_plain htuple hplain
  rw [hform, Written.shown, ← hform, htext]

/-- Types without a `?` that have one short name have one declaration, as far as their
qualified names tell. -/
theorem shown_eq_of_qualified (h : type.Everywhere (Coherent context)) (hpathed : Pathed type)
    (h' : other.Everywhere (Coherent context)) (hpathed' : Pathed other)
    (hannotated : type.facts.annotated = false) (hannotated' : other.facts.annotated = false)
    (hshort : ShortName.qualified type.facts.qualified
      = ShortName.qualified other.facts.qualified) :
    (qualifiedForm type).shown = (qualifiedForm other).shown := by
  have hiff := head?_qualified_iff h.own hpathed.own hannotated
  rw [hshort, head?_qualified_iff h'.own hpathed'.own hannotated'] at hiff
  cases htuple : type.facts.tuple with
  | false =>
      have htuple' : other.facts.tuple = false :=
        Bool.eq_false_iff.mpr fun hyes => by rw [hiff.mp hyes] at htuple; cases htuple
      rw [shown_of_not_tuple h hannotated htuple, shown_of_not_tuple h' hannotated' htuple',
        hshort]
  | true =>
      rw [NameTree.qualified_of_paren (head?_of_tuple h.own htuple),
        NameTree.qualified_of_paren (head?_of_tuple h'.own (hiff.mpr htuple))] at hshort
      rw [qualifiedForm_eq_of_qualified h hpathed h' hpathed' hshort]

end

/-- The text is read as a value type that is not itself under `?`. -/
structure Wrappable (context : Context) (source : String) (signature : Signature) : Prop where
  read : read context source = .ok signature
  value : signature.facts.value = true
  annotated : signature.facts.annotated = false

/-- A text that is read as a type with these facts can be put under `?`. -/
theorem Wrappable.exists_of_readsAs {context : Context} {source : String}
    {test : Signature → Bool}
    (h : readsAs context source (fun signature =>
      signature.facts.value && !signature.facts.annotated && test signature) = true) :
    ∃ signature, Wrappable context source signature ∧ test signature = true := by
  obtain ⟨signature, hread, hfacts⟩ := Signature.exists_of_readsAs h
  simp only [Bool.and_eq_true, Bool.not_eq_true'] at hfacts
  obtain ⟨⟨hvalue, hannotated⟩, htest⟩ := hfacts
  exact ⟨signature, ⟨hread, hvalue, hannotated⟩, htest⟩

/-- A value type is declared under a `?` by its qualified name. -/
theorem Wrappable.declaration {context : Context} {source : String} {signature : Signature}
    (h : Wrappable context source signature) :
    ∃ marked, Signature.read context (source ++ "?") = .ok marked ∧
      marked.toNameTree.declaration
        = ShortName.qualified (signature.facts.qualified ++ "?") := by
  obtain ⟨marked, hread, hbare⟩ := read_append_mark h.read h.annotated
  have hvalue : signature.bare.facts.value = true := by rw [TypeFacts.facts_bare, h.value]
  rw [denoteMark, if_pos hvalue] at hbare
  refine ⟨marked, hread, ?_⟩
  rw [← TypeFacts.toNameTree_bare, hbare, declaration_nullable, TypeFacts.facts_bare]

/-- Nullable values that are declared alike wrap types that are declared alike, labels apart,
when the qualified names spell these types out. -/
theorem unlabelled_of_declaration_mark {context : Context} {source source' : String}
    {signature signature' : Signature} (h : Wrappable context source signature)
    (h' : Wrappable context source' signature')
    (hspelt : signature.bare.speltOut = true) (hspelt' : signature'.bare.speltOut = true)
    (hobject : signature.facts.qualified ≠ "System.Object")
    (hobject' : signature'.facts.qualified ≠ "System.Object") :
    ∃ marked marked', read context (source ++ "?") = .ok marked ∧
      read context (source' ++ "?") = .ok marked' ∧
      (marked.toNameTree.declaration = marked'.toNameTree.declaration →
        signature.toNameTree.unlabelled = signature'.toNameTree.unlabelled) := by
  obtain ⟨marked, hread, hdeclared⟩ := h.declaration
  obtain ⟨marked', hread', hdeclared'⟩ := h'.declaration
  refine ⟨marked, marked', hread, hread', fun heq => ?_⟩
  have hcoherent := (preserved_coherent context).read h.read
  have hcoherent' := (preserved_coherent context).read h'.read
  have hpathed := (kept_pathed context).read h.read Cut.called_isPath
  have hpathed' := (kept_pathed context).read h'.read Cut.called_isPath
  have hmark := qualified_mark hcoherent.own hpathed.own
  have hmark' := qualified_mark hcoherent'.own hpathed'.own
  rw [TypeFacts.facts_bare] at hmark hmark'
  rw [hdeclared, hdeclared', hmark h.annotated hobject, hmark' h'.annotated hobject',
    String.append_left_inj] at heq
  rw [← TypeFacts.toNameTree_bare, ← TypeFacts.toNameTree_bare signature',
    unlabelled_eq_shown hcoherent hspelt (Or.inl rfl),
    unlabelled_eq_shown hcoherent' hspelt' (Or.inl rfl)]
  refine shown_eq_of_qualified hcoherent hpathed hcoherent' hpathed' ?_ ?_ ?_
  · rw [TypeFacts.facts_bare, h.annotated]
  · rw [TypeFacts.facts_bare, h'.annotated]
  · rw [TypeFacts.facts_bare, TypeFacts.facts_bare, heq]

/-- Labels apart: the two tuples are told from their common declaration under a `?`. -/
theorem unlabelled_of_declaration_mark_labels :
    ∃ signature signature' marked marked' : Signature,
      Wrappable {} "(int id, string)" signature ∧ Wrappable {} "(int, string name)" signature' ∧
      read {} "(int id, string)?" = .ok marked ∧ read {} "(int, string name)?" = .ok marked' ∧
      marked.toNameTree.declaration = marked'.toNameTree.declaration ∧
      signature.toNameTree.unlabelled = signature'.toNameTree.unlabelled := by
  let test (signature : Signature) : Bool :=
    signature.bare.speltOut && signature.facts.qualified == "(System.Int32, System.String)"
  obtain ⟨signature, h, htest⟩ : ∃ signature, Wrappable {} "(int id, string)" signature ∧
      test signature = true := Wrappable.exists_of_readsAs (by decide +kernel)
  obtain ⟨signature', h', htest'⟩ : ∃ signature, Wrappable {} "(int, string name)" signature ∧
      test signature = true := Wrappable.exists_of_readsAs (by decide +kernel)
  simp only [test, Bool.and_eq_true, beq_iff_eq] at htest htest'
  obtain ⟨hspelt, hname⟩ := htest
  obtain ⟨hspelt', hname'⟩ := htest'
  obtain ⟨marked, marked', hmarked, hmarked', htell⟩ :=
    unlabelled_of_declaration_mark h h' hspelt hspelt'
      (by rw [hname]; decide) (by rw [hname']; decide)
  obtain ⟨_, hsame, hdeclared⟩ := h.declaration
  obtain ⟨_, hsame', hdeclared'⟩ := h'.declaration
  obtain rfl := Except.ok.inj (hmarked.symm.trans hsame)
  obtain rfl := Except.ok.inj (hmarked'.symm.trans hsame')
  have heq : marked.toNameTree.declaration = marked'.toNameTree.declaration := by
    rw [hdeclared, hdeclared', hname, hname']
  exact ⟨signature, signature', marked, marked', h, h', hmarked, hmarked', heq,
    htell heq⟩

/-- Type arguments are not told: two nullable values with one declaration, over types with
two. -/
theorem declaration_mark_shared :
    let context : Context := { valueTypes := ["Pair"] }
    ∃ signature signature' marked marked' : Signature,
      Wrappable context "Pair<int>" signature ∧ Wrappable context "Pair<string>" signature' ∧
      read context "Pair<int>?" = .ok marked ∧ read context "Pair<string>?" = .ok marked' ∧
      marked.toNameTree.declaration = marked'.toNameTree.declaration ∧
      signature.toNameTree.unlabelled ≠ signature'.toNameTree.unlabelled := by
  intro context
  let test (unlabelled : String) (signature : Signature) : Bool :=
    signature.facts.qualified == "Pair" && signature.toNameTree.unlabelled == unlabelled
  obtain ⟨signature, h, htest⟩ : ∃ signature, Wrappable context "Pair<int>" signature ∧
      test "Pair<int>" signature = true := Wrappable.exists_of_readsAs (by decide +kernel)
  obtain ⟨signature', h', htest'⟩ : ∃ signature, Wrappable context "Pair<string>" signature ∧
      test "Pair<string>" signature = true := Wrappable.exists_of_readsAs (by decide +kernel)
  simp only [test, Bool.and_eq_true, beq_iff_eq] at htest htest'
  obtain ⟨hname, hunlabelled⟩ := htest
  obtain ⟨hname', hunlabelled'⟩ := htest'
  obtain ⟨marked, hmarked, hdeclared⟩ := h.declaration
  obtain ⟨marked', hmarked', hdeclared'⟩ := h'.declaration
  refine ⟨signature, signature', marked, marked', h, h', hmarked, hmarked', ?_, ?_⟩
  · rw [hdeclared, hdeclared', hname, hname']
  · rw [hunlabelled, hunlabelled']
    decide

end Signature

end TypeNaming
