/-
# When a named form is positional

`IsT1` is a positional member, and it is also the named member of a type that is called
`T1`.  A name is never both for another reason: `Positional.ofText?` finds a position in
the name of a member exactly when the alternative has a number of its own
(`ofText?_nameFor`), that is, when it is shown without children and is called `T` or `t`
and then decimal digits that a word holds.

Three things stand between the name of a type and the digits after `T`:

  * the name of a built-in type goes to its keyword, and neither has digits;
  * the first letter is capitalized, and only `t` and `T` become `T`, apart from one
    letter whose upper case is `T` with an accent after it;
  * the names of children come after `Of`, or after `Nullable`, which begins with `N`.
-/
import TypeNaming.Proofs.Grammar.Exact
import TypeNaming.Proofs.Identity.Parsed
import TypeNaming.Proofs.Identity.Reuse
import TypeNaming.Proofs.Members.Resolution

namespace TypeNaming

/-! ## Capitalized numbers -/

namespace Text

theorem word?_eq_none {digits : List Char} {c : Char} (hmem : c ∈ digits)
    (hc : c.isDigit = false) : word? digits = none := by
  refine if_neg fun h => ?_
  rw [List.all_eq_true.mp h.2.1 c hmem] at hc
  cases hc

/-- The number after an initial `T`. -/
def numberAfterT? (text : String) : Option Nat :=
  (after? "T" text).bind fun digits => word? digits.toList

/-- The number after an initial `T` or `t`. -/
def tNumber? (text : String) : Option Nat :=
  match text.toList with
  | [] => none
  | c :: digits => if c = 'T' ∨ c = 't' then word? digits else none

theorem numberAfterT?_cons (digits : List Char) :
    numberAfterT? (String.ofList ('T' :: digits)) = word? digits := by
  have hlead : after? "T" (String.ofList ('T' :: digits)) = some (String.ofList digits) := by
    refine after?_eq_some_iff.mpr (String.toList_inj.mp ?_)
    simp
  rw [numberAfterT?, hlead]
  simp

theorem numberAfterT?_eq_none {text : String} (h : text.toList.head? ≠ some 'T') :
    numberAfterT? text = none := by
  cases hlead : after? "T" text with
  | none => rw [numberAfterT?, hlead, Option.bind_none]
  | some digits =>
      obtain rfl := after?_eq_some_iff.mp hlead
      exact absurd (by simp) h

theorem numberAfterT?_of_mem {text : String} {c : Char} (hmem : c ∈ text.toList)
    (hT : c ≠ 'T') (hc : c.isDigit = false) : numberAfterT? text = none := by
  rw [numberAfterT?]
  cases hlead : after? "T" text with
  | none => rfl
  | some digits =>
      obtain rfl := after?_eq_some_iff.mp hlead
      have hdigits : c ∈ digits.toList := by simpa [hT] using hmem
      exact word?_eq_none hdigits hc

theorem toUpper_eq_T {c : Char} (h : c.toNat < 128) : c.toUpper = 'T' ↔ c = 'T' ∨ c = 't' := by
  have hascii : ∀ code < 128, (Char.ofNat code).toUpper = 'T' ↔
      Char.ofNat code = 'T' ∨ Char.ofNat code = 't' := by decide
  simpa using hascii c.toNat h

theorem eq_of_ofNat_eq_T {code : Nat} (h : Char.ofNat code = 'T') : code = 'T'.toNat := by
  by_cases hvalid : code.isValidChar
  · have hcode : (Char.ofNat code).toNat = code := by
      rw [Char.ofNat, dif_pos hvalid]
      rfl
    rw [← hcode, h]
  · have hzero : Char.ofNat code = Char.ofNat 0 := dif_neg hvalid
    rw [h] at hzero
    exact absurd hzero (by decide)

/-- An upper case of several characters has one that is neither `T` nor a digit. -/
theorem expandingCases_unnumbered : ∀ entry ∈ expandingCases, ∃ code ∈ entry.2,
    Char.ofNat code ≠ 'T' ∧ (Char.ofNat code).isDigit = false := by
  decide

/-- No run goes through the code of `T`. -/
theorem caseRuns_avoid_T : ∀ run ∈ caseRuns,
    run.upper + (run.last - run.first) < 'T'.toNat ∨ 'T'.toNat < run.upper := by
  decide +kernel

theorem CaseRun.upperOf?_ne_T {run : CaseRun} (hrun : run ∈ caseRuns) {code upper : Nat}
    (h : run.upperOf? code = some upper) : Char.ofNat upper ≠ 'T' := by
  obtain ⟨⟨hfirst, hlast, -⟩, hupper⟩ := Option.ite_none_right_eq_some.mp h
  have hupper : run.upper + (code - run.first) = upper := Option.some.inj hupper
  intro hT
  have hcode := eq_of_ofNat_eq_T hT
  rcases caseRuns_avoid_T run hrun with h | h <;> omega

theorem numberAfterT?_upperCase (c : Char) (rest : List Char) :
    numberAfterT? (String.ofList (upperCase c ++ rest))
      = if c = 'T' ∨ c = 't' then word? rest else none := by
  by_cases hascii : c.toNat < 128
  · rw [upperCase_ascii hascii]
    split
    · next hT =>
        rw [(toUpper_eq_T hascii).mpr hT]
        exact numberAfterT?_cons rest
    · next hT =>
        refine numberAfterT?_eq_none ?_
        simpa [toUpper_eq_T hascii] using hT
  · have hT : ¬ (c = 'T' ∨ c = 't') := by
      rintro (rfl | rfl) <;> exact hascii (by decide)
    rw [if_neg hT, upperCase, if_neg hascii]
    split
    · next codes hcodes =>
        obtain ⟨front, back, hentry, -⟩ := List.lookup_eq_some_iff.mp hcodes
        have hmem : (c.toNat, codes) ∈ expandingCases := by simp [hentry]
        obtain ⟨code, hcode, hother, hdigit⟩ := expandingCases_unnumbered _ hmem
        refine numberAfterT?_of_mem ?_ hother hdigit
        rw [String.toList_ofList]
        exact List.mem_append_left _ (List.mem_map_of_mem hcode)
    · split
      · next code hcode =>
          obtain ⟨run, hrun, hupper⟩ := List.exists_of_findSome?_eq_some hcode
          refine numberAfterT?_eq_none ?_
          simpa using run.upperOf?_ne_T hrun hupper
      · refine numberAfterT?_eq_none ?_
        simpa using fun h => hT (Or.inl h)

theorem numberAfterT?_capitalize (text : String) :
    numberAfterT? (capitalize text) = tNumber? text := by
  unfold capitalize tNumber?
  cases text.toList with
  | nil => exact numberAfterT?_eq_none (by simp)
  | cons c rest => exact numberAfterT?_upperCase c rest

end Text

open Text (numberAfterT? tNumber?)

/-! ## Names without a number -/

namespace ShortName

theorem builtIn_noNumber :
    ∀ type ∈ builtIns, tNumber? type.keyword = none ∧ tNumber? type.name = none := by
  decide

theorem tNumber?_simple (name : String) : tNumber? (simple name) = tNumber? name := by
  unfold simple
  cases h : named? name with
  | none => rfl
  | some type =>
      obtain ⟨hmem, rfl⟩ := named?_eq_some h
      obtain ⟨hkeyword, hname⟩ := builtIn_noNumber type hmem
      rw [hname]
      exact hkeyword

end ShortName

/-! ## The number of a type -/

namespace NameTree

/-- The number of a type that is shown without children and called `T1`, `t1` and so
on. -/
def number? (t : NameTree) : Option Nat :=
  if t.children.isEmpty then tNumber? t.name else none

/-- A nullable value is called `Nullable`. -/
def Wraps (t : NameTree) : Prop :=
  t.kind = .nullableValue → t.name = "Nullable"

theorem numberAfterT?_readable {t : NameTree} (h : t.Wraps) :
    numberAfterT? t.readable = t.number? := by
  obtain ⟨info, children⟩ := t
  rw [readable_node, number?]
  cases children with
  | nil =>
      show numberAfterT? (Text.capitalize (ShortName.simple info.name)) = tNumber? info.name
      rw [Text.numberAfterT?_capitalize, ShortName.tNumber?_simple]
  | cons child others =>
      show numberAfterT? (Text.capitalize (ShortName.simple info.name) ++ linkWord info.kind
        ++ _) = none
      by_cases hkind : info.kind = .nullableValue
      · have hname : info.name = "Nullable" := h hkind
        refine Text.numberAfterT?_eq_none ?_
        rw [hname, String.append_assoc, String.toList_append]
        have hown : (Text.capitalize (ShortName.simple "Nullable")).toList.head? = some 'N' := by
          decide
        rw [List.head?_append, hown, Option.some_or]
        decide
      · have hlink : linkWord info.kind = "Of" := by
          unfold linkWord
          split
          · next heq => exact absurd heq hkind
          · rfl
        refine Text.numberAfterT?_of_mem (c := 'O') ?_ (by decide) (by decide)
        simp [hlink]

end NameTree

/-! ## Positions in the names of members -/

namespace Positional

theorem indexAfter?_lead (accessor other : Accessor) (rest : String) :
    indexAfter? other (accessor.lead ++ rest)
      = if other = accessor then numberAfterT? rest else none := by
  rw [indexAfter?]
  split
  · next heq =>
      have hafter : Text.after? (accessor.lead ++ "T") (accessor.lead ++ rest)
          = Text.after? "T" rest := by
        ext digits
        rw [Text.after?_eq_some_iff, Text.after?_eq_some_iff, String.append_assoc,
          String.append_right_inj]
      rw [heq, hafter, numberAfterT?]
  · next hne =>
      cases hlead : Text.after? (other.lead ++ "T") (accessor.lead ++ rest) with
      | none => rfl
      | some digits =>
          have htext := Text.after?_eq_some_iff.mp hlead
          rw [String.append_assoc] at htext
          exact absurd (Accessor.lead_append_inj.mp htext).1.symm hne

theorem ofText?_lead (accessor : Accessor) (rest : String) :
    ofText? (accessor.lead ++ rest) = (numberAfterT? rest).map (Positional.mk accessor) := by
  unfold ofText?
  simp only [indexAfter?_lead]
  cases accessor <;> cases numberAfterT? rest <;> rfl

/-- The name of a member is positional exactly where its alternative has a number. -/
theorem ofText?_nameFor (accessor : Accessor) {t : NameTree} (h : t.Wraps) :
    ofText? (accessor.nameFor t) = t.number?.map (Positional.mk accessor) := by
  rw [Accessor.nameFor, ofText?_lead, NameTree.numberAfterT?_readable h]

end Positional

/-! ## Unions that are read -/

namespace Signature

/-- Every part of the type that is a nullable value is called `Nullable`. -/
abbrev Wrapping : TypeFacts Unit → Prop :=
  TypeFacts.Everywhere fun facts _ =>
    facts.annotated = true → facts.value = true → facts.name = "Nullable"

theorem wrapping_plain {facts : Facts} {args : List (TypeFacts Unit)}
    (h : facts.annotated = false) (hargs : ∀ arg ∈ args, Wrapping arg) :
    Wrapping (.mk facts args ()) :=
  .mk (fun hannotated => by simp [h] at hannotated) hargs

theorem wrapping_nullable {inner : TypeFacts Unit} (h : Wrapping inner) :
    Wrapping (nullable inner) :=
  .mk (fun _ _ => rfl) (List.forall_mem_singleton.mpr h)

theorem kept_wrapping (context : Context) :
    Kept context (fun name => IsPath name.toList) Wrapping where
  path {path args} _ hargs := by
    unfold denotePath
    split
    · exact wrapping_plain rfl (List.forall_mem_nil _)
    · split
      · exact wrapping_plain rfl (List.forall_mem_nil _)
      · next inner _ =>
          split
          · exact wrapping_nullable (hargs inner List.mem_cons_self)
          · exact wrapping_plain rfl hargs
      · exact wrapping_plain rfl hargs
  mark {type} htype := by
    unfold denoteMark
    split
    · exact wrapping_nullable htype
    · next hvalue =>
        cases htype with
        | mk _ hargs => exact .mk (fun _ h => absurd h hvalue) hargs
  tuple _ htypes _ := wrapping_plain rfl (List.forall_mem_map.mpr htypes)

end Signature

theorem TypeFacts.Everywhere.wraps {type : TypeFacts Unit} (h : Signature.Wrapping type) :
    type.toNameTree.Wraps := by
  cases h with
  | @mk facts args _ hown _ =>
      obtain ⟨marks, children, heq, -⟩ := TypeFacts.toNameTree_eq_node facts args ()
      rw [heq]
      intro hkind
      have hnullable := TypeFacts.kindOf_eq_nullableValue_iff.mp hkind
      rw [Bool.and_eq_true] at hnullable
      exact hown hnullable.1 hnullable.2

namespace UnionType

theorem wraps_of_read {context : Context} {source : String} {u : UnionType}
    (h : read context source = .ok u) : ∀ t ∈ u.alternatives.toList, t.Wraps := by
  have hwrapping := (Signature.kept_wrapping context).read (read_eq_ok h).1
    Signature.Cut.called_isPath
  rw [alternatives_of_read h]
  refine List.forall_mem_map.mpr fun arg hmem => ?_
  rw [← TypeFacts.toNameTree_bare]
  exact (hwrapping.args arg hmem).wraps

/-- The named form of a positional member is no positional member again, unless its
alternative has a number; then it is the positional member of that number, with the same
accessor. -/
theorem ofText?_namedForm? {context : Context} {source : String} {u : UnionType}
    (h : read context source = .ok u) {p : Positional} (hp : p.index < u.alternatives.size) :
    ∃ t form, u.alternatives.get? p.index = some t ∧ u.alternatives.namedForm? p = some form ∧
      Positional.ofText? form.name = t.number?.map (Positional.mk p.accessor) := by
  obtain ⟨t, hget⟩ : ∃ t, u.alternatives.get? p.index = some t :=
    ⟨_, List.getElem?_eq_getElem hp⟩
  refine ⟨t, _, hget, congrArg (Option.map _) hget, ?_⟩
  exact Positional.ofText?_nameFor _ (wraps_of_read h t (List.mem_of_getElem? hget))

/-- The number comes from the name of the alternative itself, not from a name inside. -/
theorem ofText?_namedForm?_inside :
    ∃ u, read {} "OneOf<t12, List<T0>>" = .ok u ∧ 1 < u.alternatives.size ∧
      ∃ form, u.alternatives.namedForm? ⟨.map, 1⟩ = some form ∧
        Positional.ofText? form.name = none := by
  obtain ⟨u, -, hread, -, h⟩ := exists_of_readBoth "OneOf<t12, List<T0>>" "OneOf<t12, List<T0>>"
    (fun u _ => decide (u.alternatives.toList.map NameTree.number? = [some 12, none]))
    (by decide +kernel)
  have hnumbers := of_decide_eq_true h
  have hsize : u.alternatives.size = 2 := by
    simpa [Alternatives.size] using congrArg List.length hnumbers
  have hinside : 1 < u.alternatives.size := by omega
  obtain ⟨t, form, hget, hform, hpositional⟩ :=
    ofText?_namedForm? hread (p := ⟨.map, 1⟩) hinside
  have hnumber : (u.alternatives.toList.map NameTree.number?)[1]? = some t.number? := by
    rw [List.getElem?_map]
    exact congrArg (Option.map NameTree.number?) hget
  rw [hnumbers] at hnumber
  refine ⟨u, hread, hinside, form, hform, ?_⟩
  rw [hpositional, ← Option.some.inj hnumber]
  rfl

/-- The named form of the second alternative is the positional member of the first. -/
theorem namedForm?_positional :
    ∃ u, read {} "OneOf<string, T0>" = .ok u ∧
      u.alternatives.namedForm? ⟨.test, 1⟩ = some ⟨"IsT0", true⟩ ∧
      Positional.ofText? "IsT0" = some ⟨.test, 0⟩ := by
  obtain ⟨u, -, hread, -, h⟩ := exists_of_readBoth "OneOf<string, T0>" "OneOf<string, T0>"
    (fun u _ => decide (u.alternatives.namedForm? ⟨.test, 1⟩ = some ⟨"IsT0", true⟩))
    (by decide +kernel)
  exact ⟨u, hread, of_decide_eq_true h, by decide⟩

end UnionType

end TypeNaming
