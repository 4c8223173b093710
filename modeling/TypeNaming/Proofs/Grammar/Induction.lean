/-
# Properties of what is denoted

A property of types holds of everything that is denoted when each way of denoting keeps
it: a path over its arguments, a `?`, and a tuple over its elements.  `Kept` lists the
three, and `Kept.denote` is the induction over the derivation, done once.  What is known
of the paths and labels that were written comes in through `Name`.
-/
import TypeNaming.Proofs.Grammar.Denotation

namespace TypeNaming

/-! ## All parts of a type -/

/-- The facts go with the arguments in every part of the type. -/
inductive TypeFacts.Everywhere {α : Type} (P : Facts → List (TypeFacts α) → Prop) :
    TypeFacts α → Prop
  | mk {facts : Facts} {args : List (TypeFacts α)} {note : α} :
      P facts args → (∀ arg ∈ args, Everywhere P arg) → Everywhere P (.mk facts args note)

namespace Signature

/-- Every path among the lexemes is such a name. -/
def Called (Name : String → Prop) (lexemes : List Lexeme) : Prop :=
  ∀ path, .path path ∈ lexemes → Name path

theorem Called.mono {Name : String → Prop} {lexemes others : List Lexeme}
    (h : Called Name lexemes) (hsub : others ⊆ lexemes) : Called Name others :=
  fun path hmem => h path (hsub hmem)

/-- Each way of denoting keeps the property, when paths and labels are such names. -/
structure Kept (context : Context) (Name : String → Prop) (P : TypeFacts Unit → Prop) :
    Prop where
  path : ∀ {path : String} {args : List (TypeFacts Unit)}, Name path → (∀ arg ∈ args, P arg) →
    P (denotePath context path args)
  mark : ∀ {type : TypeFacts Unit}, P type → P (denoteMark type)
  tuple : ∀ {elements : List WrittenElement}, elements ≠ [] →
    (∀ element ∈ elements, P (denote context element.type)) →
    (∀ element ∈ elements, ∀ label, element.label = some label → Name label) →
    P (labelledTuple (labelsOf elements) (elements.map (denote context ·.type)))

section

variable {context : Context} {Name : String → Prop} {P : TypeFacts Unit → Prop}

theorem Kept.marked (h : Kept context Name P) {type : TypeFacts Unit} (htype : P type)
    (marked : Bool) : P (if marked then denoteMark type else type) := by
  cases marked with
  | false => exact htype
  | true => exact h.mark htype

theorem DerivesElements.ne_nil {elements : List WrittenElement} {lexemes : List Lexeme}
    (h : DerivesElements elements lexemes) : elements ≠ [] := by
  cases h <;> simp

theorem DerivesElement.label {element : WrittenElement} {lexemes : List Lexeme}
    (h : DerivesElement element lexemes) (hcalled : Called Name lexemes) :
    ∀ label, element.label = some label → Name label := by
  cases h with
  | mk _ _ =>
      intro label hlabel
      obtain rfl : _ = some label := hlabel
      exact hcalled label (by simp [labelLexemes])

theorem DerivesElements.labels : ∀ {elements : List WrittenElement} {lexemes : List Lexeme},
    DerivesElements elements lexemes → Called Name lexemes →
      ∀ element ∈ elements, ∀ label, element.label = some label → Name label
  | _, _, .one helement, h => by
      simpa using helement.label h
  | _, _, .more helement helements, h => by
      have hfirst := helement.label (h.mono fun _ hl => by simp [hl])
      have hothers := helements.labels (h.mono fun _ hl => by simp [hl])
      exact List.forall_mem_cons.mpr ⟨hfirst, hothers⟩

mutual

/-- A property that each way of denoting keeps holds of what is denoted. -/
theorem Kept.denote (hkept : Kept context Name P) :
    ∀ {type : Written} {lexemes : List Lexeme}, Derives type lexemes → Called Name lexemes →
      P (Signature.denote context type)
  | _, _, .path path marked, h => by
      have hbase := hkept.path (h path List.mem_cons_self)
        (List.forall_mem_nil (fun arg => P arg))
      rw [Signature.denote, denoteAll_eq_map]
      exact hkept.marked hbase marked
  | _, _, .generic path marked hargs, h => by
      have hargs := hkept.denoteAll hargs (h.mono fun _ hl => by simp [hl])
      rw [Signature.denote, denoteAll_eq_map]
      exact hkept.marked (hkept.path (h path List.mem_cons_self) hargs) marked
  | _, _, @Derives.tuple elements inside marked helements _, h => by
      have hinside : Called Name inside := h.mono fun _ hl => by simp [hl]
      have htypes := hkept.denoteElements helements hinside
      have hlabels := helements.labels hinside
      rw [Signature.denote, denoteElements_eq_map]
      exact hkept.marked (hkept.tuple helements.ne_nil htypes hlabels) marked

theorem Kept.denoteAll (hkept : Kept context Name P) :
    ∀ {types : List Written} {lexemes : List Lexeme}, DerivesTypes types lexemes →
      Called Name lexemes → ∀ type ∈ types.map (Signature.denote context), P type
  | _, _, .one htype, h => by
      simpa using hkept.denote htype h
  | _, _, .more htype htypes, h => by
      rw [List.map_cons]
      have hfirst := hkept.denote htype (h.mono fun _ hl => by simp [hl])
      have hothers := hkept.denoteAll htypes (h.mono fun _ hl => by simp [hl])
      exact List.forall_mem_cons.mpr ⟨hfirst, hothers⟩

theorem Kept.denoteElement (hkept : Kept context Name P) :
    ∀ {element : WrittenElement} {lexemes : List Lexeme}, DerivesElement element lexemes →
      Called Name lexemes → P (Signature.denote context element.type)
  | _, _, .mk htype _, h => hkept.denote htype (h.mono fun _ hl => by simp [hl])

theorem Kept.denoteElements (hkept : Kept context Name P) :
    ∀ {elements : List WrittenElement} {lexemes : List Lexeme}, DerivesElements elements lexemes →
      Called Name lexemes → ∀ element ∈ elements, P (Signature.denote context element.type)
  | _, _, .one helement, h => by
      simpa using hkept.denoteElement helement h
  | _, _, .more helement helements, h => by
      have hfirst := hkept.denoteElement helement (h.mono fun _ hl => by simp [hl])
      have hothers := hkept.denoteElements helements (h.mono fun _ hl => by simp [hl])
      exact List.forall_mem_cons.mpr ⟨hfirst, hothers⟩

end

end

end Signature

end TypeNaming
