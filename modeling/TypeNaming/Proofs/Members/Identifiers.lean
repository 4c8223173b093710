/-
# Names of members are identifiers

The name of a member is generated into code, so it has to be an identifier: a letter or `_`,
and letters, digits and `_` after it.

Readable names are put together from words with `Nullable`, `Of` and `_` between them, and a
word is the name of a type in its short form, with a capital.  So it is enough that every type
is *called by an identifier*.  A path is called by its last part, which is one; a keyword, the
wrapper and a tuple have names of their own, which are; and an open type parameter is called
by the whole name that was declared, which is where the condition on the declared names comes
from.  Qualified names, labels and `?` do not get into a readable name.
-/
import TypeNaming.Proofs.Identity.Readable
import TypeNaming.Proofs.Identity.Reuse
import TypeNaming.Proofs.Members.Resolution
import TypeNaming.Proofs.Members.Warnings

namespace TypeNaming

open Signature (Identifier isIdentStart isIdentRest)
open Text (capitalize)

/-! ## Words -/

namespace Signature

theorem Identifier.chars {cs : List Char} (h : Identifier cs) :
    ∀ c ∈ cs, isIdentRest c = true := by
  obtain ⟨first, rest, rfl, hfirst, hrest⟩ := h
  exact List.forall_mem_cons.mpr ⟨isIdentRest_of_start hfirst, hrest⟩

theorem Identifier.append {cs more : List Char} (h : Identifier cs)
    (hmore : ∀ c ∈ more, isIdentRest c = true) : Identifier (cs ++ more) := by
  obtain ⟨first, rest, rfl, hfirst, hrest⟩ := h
  exact ⟨first, rest ++ more, rfl, hfirst, List.forall_mem_append.mpr ⟨hrest, hmore⟩⟩

theorem isIdentStart_ascii {c : Char} (h : isIdentStart c = true) : c.toNat < 128 := by
  rcases Bool.or_eq_true_iff.mp h with hletter | hbar
  · exact isAlpha_ascii hletter
  · rw [of_decide_eq_true hbar]
    decide

theorem isIdentStart_toUpper {c : Char} (h : isIdentStart c = true) :
    isIdentStart c.toUpper = true := by
  have hascii : ∀ code < 128, isIdentStart (Char.ofNat code) = true →
      isIdentStart (Char.ofNat code).toUpper = true := by decide
  simpa using hascii c.toNat (isIdentStart_ascii h) (by simpa using h)

/-- A capital at the front keeps an identifier one. -/
theorem Identifier.capitalize {text : String} (h : Identifier text.toList) :
    Identifier (capitalize text).toList := by
  obtain ⟨first, rest, hcs, hfirst, hrest⟩ := h
  refine ⟨first.toUpper, rest, ?_, isIdentStart_toUpper hfirst, hrest⟩
  rw [← String.ofList_toList (s := text), hcs, Text.toList_capitalize_cons,
    Text.upperCase_ascii (isIdentStart_ascii hfirst), List.singleton_append]

/-- The short form of an identifier is one. -/
theorem Identifier.simple {name : String} (h : Identifier name.toList) :
    Identifier (ShortName.simple name).toList := by
  unfold ShortName.simple
  cases hbuiltIn : ShortName.named? name with
  | none => exact h
  | some type =>
      exact identifier_of_isWord (builtIn_isWord type (List.mem_of_find?_eq_some hbuiltIn)).2

end Signature

/-! ## Readable names -/

namespace NameTree

/-- Every node is called by an identifier. -/
abbrev Called : NameTree → Prop := Everywhere fun info _ => Identifier info.name.toList

theorem chars_joined {names : List String} (h : ∀ name ∈ names, Identifier name.toList) :
    ∀ c ∈ ("_".intercalate names).toList, isIdentRest c = true := by
  induction names with
  | nil => simp
  | cons name names ih =>
      obtain ⟨hname, hnames⟩ := List.forall_mem_cons.mp h
      cases names with
      | nil => simpa using hname.chars
      | cons next names =>
          rw [String.intercalate_cons_cons, String.toList_append, String.toList_append]
          have hbar : "_".toList.all isIdentRest = true := by decide
          exact List.forall_mem_append.mpr ⟨List.forall_mem_append.mpr
            ⟨hname.chars, List.all_eq_true.mp hbar⟩, ih hnames⟩

theorem chars_linkWord (kind : Kind) : (linkWord kind).toList.all isIdentRest = true := by
  unfold linkWord
  split <;> decide

/-- A word over identifiers is an identifier. -/
theorem identifier_readableOver (kind : Kind) {word : String} {names : List String}
    (hword : Identifier word.toList) (hnames : ∀ name ∈ names, Identifier name.toList) :
    Identifier (readableOver kind word names).toList := by
  cases names with
  | nil => exact hword
  | cons name names =>
      rw [readableOver.eq_def, String.toList_append, String.toList_append]
      have hlink := List.all_eq_true.mp (chars_linkWord kind)
      exact (hword.append hlink).append (chars_joined hnames)

/-- A tree whose nodes are called by identifiers has a readable name that is one. -/
theorem Called.readable {t : NameTree} (h : t.Called) : Identifier t.readable.toList := by
  induction h with
  | @node info children hown _ ih =>
      rw [readable_node]
      exact identifier_readableOver _ hown.simple.capitalize (List.forall_mem_map.mpr ih)

end NameTree

/-- What a member does reads like the beginning of an identifier. -/
theorem Accessor.identifier_nameFor (accessor : Accessor) {t : NameTree}
    (h : Identifier t.readable.toList) : Identifier (accessor.nameFor t).toList := by
  have hlead : Identifier accessor.lead.toList := by
    cases accessor <;> exact Signature.identifier_of_isWord (by decide)
  rw [Accessor.nameFor, String.toList_append]
  exact hlead.append h.chars

/-! ## Types that are read -/

namespace Signature

/-- Every part of the type is called by an identifier. -/
abbrev CalledFacts : TypeFacts Unit → Prop :=
  TypeFacts.Everywhere fun facts _ => Identifier facts.name.toList

theorem identifier_nullable : Identifier "Nullable".toList := identifier_of_isWord (by decide)

theorem identifier_valueTuple : Identifier "ValueTuple".toList := identifier_of_isWord (by decide)

variable {context : Context}

theorem calledFacts_denotePath (hparams : ∀ name ∈ context.typeParams, Identifier name.toList)
    {path : String} (hpath : IsPath path.toList) {args : List (TypeFacts Unit)}
    (hargs : ∀ arg ∈ args, CalledFacts arg) : CalledFacts (denotePath context path args) := by
  unfold denotePath
  split
  · next hparam => exact .mk (hparams path hparam) (by simp)
  · split
    · next type htype =>
        have hmem := List.mem_of_find?_eq_some htype
        exact .mk (identifier_of_isWord (builtIn_isWord type hmem).1) (by simp)
    · split
      · exact .mk identifier_nullable hargs
      · exact .mk hpath.lastPart hargs
    · exact .mk hpath.lastPart hargs

/-- What a derivable type denotes is called by identifiers, with all its parts. -/
theorem kept_calledFacts (hparams : ∀ name ∈ context.typeParams, Identifier name.toList) :
    Kept context (fun name => IsPath name.toList) CalledFacts where
  path hpath hargs := calledFacts_denotePath hparams hpath hargs
  mark htype := by
    unfold denoteMark
    split
    · exact .mk identifier_nullable (List.forall_mem_singleton.mpr htype)
    · cases htype with
      | mk hname hargs => exact .mk hname hargs
  tuple _ htypes _ := .mk identifier_valueTuple (List.forall_mem_map.mpr htypes)

theorem called_toNameTree {type : TypeFacts Unit} (h : CalledFacts type) :
    type.toNameTree.Called :=
  h.toNameTree (fun hname _ => hname) (fun _ _ hname => hname)

/-- The arguments of a type that is read are called by identifiers, those that its own tree
leaves out, too. -/
theorem called_of_read (hparams : ∀ name ∈ context.typeParams, Identifier name.toList)
    {source : String} {signature : Signature} (h : read context source = .ok signature) :
    ∀ arg ∈ signature.args, arg.toNameTree.Called := by
  have hcalled := (kept_calledFacts hparams).read h Cut.called_isPath
  intro arg hmem
  rw [← TypeFacts.toNameTree_bare]
  exact called_toNameTree (hcalled.args arg hmem)

end Signature

/-! ## Unions that are read -/

namespace UnionType

/-- When the open type parameters are declared by identifiers, all readable names of the
alternatives of a union are identifiers, and so are the names of its members. -/
theorem identifiers_of_read {context : Context}
    (hparams : ∀ name ∈ context.typeParams, Identifier name.toList)
    {source : String} {u : UnionType} (h : read context source = .ok u) :
    (∀ t ∈ u.alternatives.toList, Identifier t.readable.toList) ∧
      ∀ member ∈ u.alternatives.members, Identifier member.name.toList := by
  have hreadable : ∀ t ∈ u.alternatives.toList, Identifier t.readable.toList := by
    have hcalled := Signature.called_of_read hparams (read_eq_ok h).1
    rw [alternatives_of_read h]
    exact List.forall_mem_map.mpr fun arg harg => (hcalled arg harg).readable
  refine ⟨hreadable, fun member hmember => ?_⟩
  obtain ⟨t, hget, heq⟩ := Alternatives.mem_members_iff.mp hmember
  have hname := member.accessor.identifier_nameFor (hreadable t (List.mem_of_getElem? hget))
  rw [heq]
  exact hname

/-- A parameter, a tuple, an argument that is left out, and a nullable value type that was
declared. -/
theorem identifiers_of_read_nested :
    let context : Context := { typeParams := ["t"], valueTypes := ["N._v2"] }
    let source := "OneOf<t, (t, A.Map<t, string?> First), Nullable<N._v2>, List<int?, byte>>"
    let readable := ["T", "ValueTupleOfT_MapOfString", "Nullable_v2", "ListOfNullableInt_Byte"]
    ∃ u, read context source = .ok u ∧ u.alternatives.toList.map NameTree.readable = readable ∧
      ∀ member ∈ u.alternatives.members, Identifier member.name.toList := by
  intro context source readable
  have hreads : readsAs context source (fun u =>
      decide (u.alternatives.toList.map NameTree.readable = readable)) = true := by
    decide +kernel
  obtain ⟨u, hread, hreadable⟩ := exists_of_readsAs hreads
  have hparams : ∀ name ∈ context.typeParams, Identifier name.toList :=
    List.forall_mem_singleton.mpr (Signature.identifier_of_isWord (by decide))
  exact ⟨u, hread, of_decide_eq_true hreadable, (identifiers_of_read hparams hread).2⟩

/-- A parameter that is declared by a path keeps its dot. -/
example : readsAs { typeParams := ["A.T"] } "OneOf<A.T>" (fun u =>
    decide (u.alternatives.toList.map NameTree.readable = ["A.T"])) = true := by decide +kernel

end UnionType

end TypeNaming
