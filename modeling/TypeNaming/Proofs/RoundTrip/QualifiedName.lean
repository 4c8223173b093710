/-
# What a qualified name writes

The qualified name of a type is the text of a tree, `qualifiedForm`: a path for a type with a
name of its own, the same tree under `?` for a nullable value, and the trees of the elements
for a tuple.  Type arguments, labels, and the `?` of a reference are not in it.

A text is derivable as one tree only, so types that have one qualified name have one such
tree (`qualifiedForm_eq_of_qualified`).  That is how a name that was put together from parts
is taken apart again: no reader of such names is needed.
-/
import TypeNaming.Proofs.Facts.Coherent
import TypeNaming.Proofs.RoundTrip.Lawful

namespace TypeNaming.Signature

open Text (lastPart)
open TypeFacts (Coherent Shape)

mutual

/-- The tree that the qualified name of a type writes. -/
def qualifiedForm : TypeFacts Unit → Written
  | .mk facts args _ =>
    if facts.tuple then .tuple (qualifiedElements args) false
    else
      match facts.annotated && facts.value, args with
      | true, inner :: _ => (qualifiedForm inner).withMark
      | _, _ => .named facts.qualified [] false

/-- The elements that the qualified name of a tuple writes. -/
def qualifiedElements : List (TypeFacts Unit) → List WrittenElement
  | [] => []
  | type :: types => .mk (qualifiedForm type) none :: qualifiedElements types

end

@[simp] theorem qualifiedElements_eq_map (types : List (TypeFacts Unit)) :
    qualifiedElements types = types.map fun type => .mk (qualifiedForm type) none := by
  induction types with
  | nil => rfl
  | cons type types ih => simp [qualifiedElements, ih]

/-! ## Types that are called by paths -/

/-- A type with a name of its own is called by a path. -/
def CalledByPath (facts : Facts) : Prop :=
  facts.tuple = false → (facts.annotated && facts.value) = false → IsPath facts.qualified.toList

/-- All parts of the type that have a name of their own are called by paths. -/
abbrev Pathed : TypeFacts Unit → Prop :=
  TypeFacts.Everywhere fun facts _ => CalledByPath facts

theorem pathed_denoteMark {type : TypeFacts Unit} (h : Pathed type) : Pathed (denoteMark type) := by
  unfold denoteMark
  split
  · exact .mk (by rintro - ⟨⟩) (List.forall_mem_singleton.mpr h)
  · next hvalue =>
      cases h with
      | @mk facts args _ hown hargs =>
          have hvalue : facts.value = false := Bool.eq_false_iff.mpr hvalue
          refine .mk (fun htuple _ => hown htuple ?_) hargs
          rw [hvalue, Bool.and_false]

theorem pathed_denotePath {context : Context} {path : String} (hpath : IsPath path.toList)
    {args : List (TypeFacts Unit)} (hargs : ∀ arg ∈ args, Pathed arg) :
    Pathed (denotePath context path args) := by
  unfold denotePath
  split
  · exact .mk (fun _ _ => hpath) (List.forall_mem_nil _)
  · split
    · next type htype =>
        exact .mk (fun _ _ => builtIn_isPath (List.mem_of_find?_eq_some htype))
          (List.forall_mem_nil _)
    · split
      · exact .mk (by rintro - ⟨⟩) hargs
      · exact .mk (fun _ _ => hpath) hargs
    · exact .mk (fun _ _ => hpath) hargs

theorem kept_pathed (context : Context) :
    Kept context (fun name => IsPath name.toList) Pathed where
  path hpath hargs := pathed_denotePath hpath hargs
  mark htype := pathed_denoteMark htype
  tuple _ htypes _ := .mk (by rintro ⟨⟩) (List.forall_mem_map.mpr htypes)

/-! ## The tree of the name -/

section

variable {context : Context} {facts : Facts} {args : List (TypeFacts Unit)}

theorem qualifiedForm_plain (htuple : facts.tuple = false)
    (hplain : (facts.annotated && facts.value) = false) :
    qualifiedForm (.mk facts args ()) = .named facts.qualified [] false := by
  simp [qualifiedForm, htuple, hplain]

theorem qualifiedForm_wrapper {inner : TypeFacts Unit} (htuple : facts.tuple = false)
    (hnullable : (facts.annotated && facts.value) = true) :
    qualifiedForm (.mk facts [inner] ()) = (qualifiedForm inner).withMark := by
  simp [qualifiedForm, htuple, hnullable]

theorem qualifiedForm_elements (htuple : facts.tuple = true) :
    qualifiedForm (.mk facts args ())
      = .tuple (args.map fun arg => .mk (qualifiedForm arg) none) false := by
  rw [qualifiedForm.eq_def]
  show (if facts.tuple then _ else _) = _
  rw [if_pos htuple, qualifiedElements_eq_map]

end

section

variable {context : Context} {type : TypeFacts Unit}

theorem isMarked_qualifiedForm (h : Coherent context type.facts type.args)
    (hannotated : type.facts.annotated = false) : (qualifiedForm type).isMarked = false := by
  obtain ⟨facts, args, _⟩ := type
  have hshape : Shape facts args := h.shape
  cases hshape with
  | plain htuple hplain => rw [qualifiedForm_plain htuple hplain]; rfl
  | wrapper _ hnullable =>
      have hyes : facts.annotated = true := (Bool.and_eq_true_iff.mp hnullable).1
      exact absurd (hannotated.symm.trans hyes) Bool.false_ne_true
  | tuple htuple => rw [qualifiedForm_elements htuple]; rfl

theorem called_withMark {Name : String → Prop} {type : Written} :
    Called Name type.withMark.row ↔ Called Name type.row := by
  cases type with
  | named path args marked => rw [Written.withMark, called_named_iff, called_named_iff]
  | tuple elements marked => rw [Written.withMark, called_tuple_iff, called_tuple_iff]

theorem text_withMark {type : Written} (h : type.isMarked = false) :
    type.withMark.text = type.text ++ "?" := by
  cases type with
  | named path args marked =>
      obtain rfl : marked = false := h
      cases args <;> simp [Written.withMark, Written.text, markText]
  | tuple elements marked =>
      obtain rfl : marked = false := h
      simp [Written.withMark, Written.text, markText]

theorem text_qualifiedForm (h : type.Everywhere (Coherent context)) :
    (qualifiedForm type).text = type.facts.qualified := by
  induction h with
  | @mk facts args _ hown hargs ih =>
      cases hown.shape with
      | plain htuple hplain =>
          rw [qualifiedForm_plain htuple hplain, Written.text]
          exact String.append_empty
      | @wrapper inner htuple hnullable hinner hqualified =>
          have hmarked := isMarked_qualifiedForm (hargs inner List.mem_cons_self).own hinner
          rw [qualifiedForm_wrapper htuple hnullable, text_withMark hmarked,
            ih inner List.mem_cons_self]
          exact hqualified.symm
      | tuple htuple _ helements =>
          have htexts : (args.map fun arg => WrittenElement.mk (qualifiedForm arg) none).map
              WrittenElement.text = args.map (·.facts.qualified) := by
            rw [List.map_map]
            refine List.map_congr_left fun arg hmem => ?_
            show (qualifiedForm arg).text ++ "" = _
            rw [String.append_empty, ih arg hmem]
          rw [qualifiedForm_elements htuple, Written.text, WrittenElement.texts_eq_map, htexts]
          exact String.append_empty.trans helements.qualified.symm

theorem derivable_qualifiedForm (h : type.Everywhere (Coherent context)) :
    Derivable (qualifiedForm type) := by
  induction h with
  | @mk facts args _ hown hargs ih =>
      cases hown.shape with
      | plain htuple hplain =>
          rw [qualifiedForm_plain htuple hplain, derivable_named_iff]
          exact List.forall_mem_nil _
      | @wrapper inner htuple hnullable =>
          rw [qualifiedForm_wrapper htuple hnullable, derivable_withMark]
          exact ih inner List.mem_cons_self
      | tuple htuple _ helements =>
          rw [qualifiedForm_elements htuple, derivable_tuple_iff]
          refine ⟨by simpa using helements.two, List.forall_mem_map.mpr fun arg hmem => ?_⟩
          exact ⟨ih arg hmem, by rintro _ ⟨⟩⟩

theorem called_qualifiedForm (h : type.Everywhere (Coherent context)) (hpathed : Pathed type) :
    Called (fun name => IsPath name.toList) (qualifiedForm type).row := by
  induction h with
  | @mk facts args _ hown hargs ih =>
      cases hown.shape with
      | plain htuple hplain =>
          rw [qualifiedForm_plain htuple hplain, called_named_iff]
          exact ⟨hpathed.own htuple hplain, List.forall_mem_nil _⟩
      | @wrapper inner htuple hnullable =>
          rw [qualifiedForm_wrapper htuple hnullable, called_withMark]
          exact ih inner List.mem_cons_self (hpathed.arg List.mem_cons_self)
      | tuple htuple =>
          rw [qualifiedForm_elements htuple, called_tuple_iff]
          refine List.forall_mem_map.mpr fun arg hmem => called_element_iff.mpr ?_
          exact ⟨ih arg hmem (hpathed.arg hmem), by rintro _ ⟨⟩⟩

/-- The qualified name is cut into the row of its tree. -/
theorem cut_qualified (h : type.Everywhere (Coherent context)) (hpathed : Pathed type) :
    Cut type.facts.qualified.toList (qualifiedForm type).row := by
  have hcut : Cut ((qualifiedForm type).text.toList ++ []) ((qualifiedForm type).row ++ []) :=
    cut_text (called_qualifiedForm h hpathed) trivial .done
  rwa [List.append_nil, List.append_nil, text_qualifiedForm h] at hcut

/-- Types that have one qualified name have one tree of it. -/
theorem qualifiedForm_eq_of_qualified {other : TypeFacts Unit}
    (h : type.Everywhere (Coherent context)) (hpathed : Pathed type)
    (h' : other.Everywhere (Coherent context)) (hpathed' : Pathed other)
    (hname : type.facts.qualified = other.facts.qualified) :
    qualifiedForm type = qualifiedForm other := by
  have hcut := cut_qualified h hpathed
  rw [hname] at hcut
  exact derives_unique hcut (derivable_qualifiedForm h).row (cut_qualified h' hpathed')
    (derivable_qualifiedForm h').row

end

/-! ## Types that are read when nothing is declared -/

theorem Lawful.coherent {type : TypeFacts Unit} (h : Lawful type) :
    type.Everywhere (Coherent {}) := by
  induction h with
  | @named path args annotated hpath _ _ hvalue _ ih =>
      have hmark : '?' ∉ path.toList := hpath.avoids rfl (by decide)
      have hown : Coherent {} (ownFacts path false) args :=
        coherent_nominal (lastPart path) (namesValue {} path) args hmark
      refine .mk ?_ ih
      cases annotated with
      | false => exact hown
      | true => exact coherent_annotate hown (hvalue rfl)
  | nullable hvalue hannotated _ ih =>
      exact .mk (coherent_nullable hvalue hannotated) (List.forall_mem_singleton.mpr ih)
  | tuple htwo hlength _ _ _ ih =>
      exact .mk (coherent_labelledTuple htwo (by simpa using hlength)) ih

end TypeNaming.Signature
