/-
# Where a type can be wrong

Several things can be wrong with one type, at many places of it.  The places are its `Site`s:
a path with its type arguments, a `?` on a type, and a label of a tuple element.  They are
looked at in one order, `TypeExpr.sites`: arguments from left to right and before the path,
an element before its label, a type before its `?`.  What is wrong at a site, under which
code, and what part of the text is pointed at for it, is the table `Faulty`.  It speaks of
what the parts denote, which they do whether or not they are faulty themselves.

The reader reports the fault of the first site that has one (`meaning_checks`), and a site is
faulty in one way only (`Faulty.unique`), so the table leaves nothing open.
-/
import Mathlib.Data.List.Forall2
import TypeNaming.Proofs.Grammar.Locality

namespace TypeNaming.Signature

/-! ## Sites -/

/-- A place where a type can be wrong. -/
inductive Site where
  /-- A path, with its type arguments. -/
  | path (path : String) (args : List TypeExpr) (span : Span)
  /-- A `?` on a type. -/
  | mark (base : TypeExpr) (mark : Span)
  /-- The label of the element that comes after others. -/
  | label (before : List Element) (label : Label)

/-- The site of the `?`, if there is one. -/
def markSites (base : TypeExpr) : Option Span → List Site
  | none => []
  | some mark => [.mark base mark]

/-- The site of the label, if there is one. -/
def labelSites (before : List Element) : Option Label → List Site
  | none => []
  | some label => [.label before label]

mutual

/-- The sites of the type, in the order in which they are looked at. -/
def TypeExpr.sites : TypeExpr → List Site
  | .named path args span mark =>
    TypeExpr.sitesOf args ++ (.path path args span :: markSites (.named path args span none) mark)
  | .tuple elements span mark =>
    Element.sitesOf [] elements ++ markSites (.tuple elements span none) mark

/-- The sites of the types. -/
def TypeExpr.sitesOf : List TypeExpr → List Site
  | [] => []
  | type :: types => type.sites ++ TypeExpr.sitesOf types

/-- The sites of the elements, which come after others. -/
def Element.sitesOf (before : List Element) : List Element → List Site
  | [] => []
  | .mk type label :: elements =>
    type.sites ++ (labelSites before label ++
      Element.sitesOf (before ++ [.mk type label]) elements)

end

/-- The part of the text that a fault points at. -/
inductive Subject where
  | type (expr : TypeExpr)
  | mark (place : Span)
  | label (label : Label)

/-- Where the part stands. -/
def Subject.span : Subject → Span
  | .type expr => expr.place
  | .mark place => place
  | .label own => own.span

/-- What is wrong at a site: the code, the cause, and the part that is pointed at. -/
inductive Faulty (context : Context) (source : List Char) :
    Site → String → Cause → Subject → Prop
  | parameter {path : String} {args : List TypeExpr} {span : Span} :
      path ∈ context.typeParams → args ≠ [] →
      Faulty context source (.path path args span) "P001" (.argumentsOn path)
        (.type (.named path args span none))
  | keyword {path : String} {type : ShortName.BuiltIn} {args : List TypeExpr} {span : Span} :
      ShortName.ofKeyword? path = some type → args ≠ [] →
      Faulty context source (.path path args span) "P001" (.argumentsOn path)
        (.type (.named path args span none))
  | arity {path : String} {args : List TypeExpr} {span : Span} :
      path ∉ context.typeParams → IsWrapper path → args.length ≠ 1 →
      Faulty context source (.path path args span) "P003" .nullableArity
        (.type (.named path args span none))
  | argument {path : String} {arg : TypeExpr} {span : Span} :
      path ∉ context.typeParams → IsWrapper path →
      ((denote context arg.written).facts.value = false ∨
        (denote context arg.written).facts.annotated = true) →
      Faulty context source (.path path [arg] span) "P003"
        (.nullableOver (String.ofList (Text.slice source arg.place.start arg.place.stop)))
        (.type arg)
  | mark {base : TypeExpr} {mark : Span} :
      (denote context base.written).facts.annotated = true →
      Faulty context source (.mark base mark) "P003" .alreadyNullable (.mark mark)
  | repeated {before : List Element} {label : Label} :
      label.text ∈ labelsOf (before.map Element.written) →
      Faulty context source (.label before label) "P004" (.repeatedLabel label.text)
        (.label label)
  | misplaced {before : List Element} {label : Label} {position : Nat} :
      label.text ∉ labelsOf (before.map Element.written) → NamesPosition label.text position →
      position ≠ before.length + 1 →
      Faulty context source (.label before label) "P004" (.misplacedLabel label.text position)
        (.label label)

section

variable {context : Context} {source : List Char}

/-- Nothing is wrong at the site. -/
def Site.Sound (context : Context) (source : List Char) (site : Site) : Prop :=
  ∀ code cause subject, ¬ Faulty context source site code cause subject

theorem Faulty.code_eq {site : Site} {code : String} {cause : Cause} {subject : Subject}
    (h : Faulty context source site code cause subject) : cause.code = code := by
  cases h <;> rfl

/-! ## Looking at sites in order -/

/-- One of the sites is faulty in this way, and those before it are sound. -/
def FirstFaulty (context : Context) (source : List Char) (sites : List Site) (code : String)
    (cause : Cause) (subject : Subject) : Prop :=
  ∃ before site after, sites = before ++ site :: after ∧
    (∀ other ∈ before, other.Sound context source) ∧
    Faulty context source site code cause subject

/-- A site is faulty in one way only. -/
theorem Faulty.unique {site : Site} {code code' : String} {cause cause' : Cause}
    {subject subject' : Subject} (h : Faulty context source site code cause subject)
    (h' : Faulty context source site code' cause' subject') :
    code' = code ∧ cause' = cause ∧ subject' = subject := by
  cases h with
  | parameter hparam hargs =>
      cases h' with
      | parameter | keyword => exact ⟨rfl, rfl, rfl⟩
      | arity hother | argument hother => exact absurd hparam hother
  | keyword hkeyword hargs =>
      cases h' with
      | parameter | keyword => exact ⟨rfl, rfl, rfl⟩
      | arity _ hpath | argument _ hpath => simp [ofKeyword?_wrapper hpath] at hkeyword
  | arity hparam hpath harity =>
      cases h' with
      | parameter hother => exact absurd hother hparam
      | keyword hkeyword => simp [ofKeyword?_wrapper hpath] at hkeyword
      | arity => exact ⟨rfl, rfl, rfl⟩
      | argument => exact absurd rfl harity
  | argument hparam hpath hfacts =>
      cases h' with
      | parameter hother => exact absurd hother hparam
      | keyword hkeyword => simp [ofKeyword?_wrapper hpath] at hkeyword
      | arity _ _ harity => exact absurd rfl harity
      | argument => exact ⟨rfl, rfl, rfl⟩
  | mark => cases h' with | mark => exact ⟨rfl, rfl, rfl⟩
  | repeated hmem =>
      cases h' with
      | repeated => exact ⟨rfl, rfl, rfl⟩
      | misplaced hother => exact absurd hmem hother
  | misplaced hmem hnames =>
      cases h' with
      | repeated hother => exact absurd hother hmem
      | misplaced _ hother =>
          rw [← labelPosition?_eq_some_iff] at hnames hother
          obtain rfl := Option.some.inj (hnames.symm.trans hother)
          exact ⟨rfl, rfl, rfl⟩

theorem FirstFaulty.unique {sites : List Site} {code code' : String} {cause cause' : Cause}
    {subject subject' : Subject} (h : FirstFaulty context source sites code cause subject)
    (h' : FirstFaulty context source sites code' cause' subject') :
    code' = code ∧ cause' = cause ∧ subject' = subject := by
  obtain ⟨before, site, after, rfl, hbefore, hfaulty⟩ := h
  obtain ⟨before', site', after', hsites, hbefore', hfaulty'⟩ := h'
  -- Neither of the two sites comes before the other.
  rcases List.append_eq_append_iff.mp hsites with ⟨middle, rfl, hmiddle⟩ | ⟨middle, rfl, hmiddle⟩
  · cases middle with
    | nil =>
        obtain ⟨rfl, -⟩ := List.cons.inj hmiddle
        exact hfaulty.unique hfaulty'
    | cons first middle =>
        obtain ⟨rfl, -⟩ := List.cons.inj hmiddle
        exact absurd hfaulty (hbefore' _ (by simp) _ _ _)
  · cases middle with
    | nil =>
        obtain ⟨rfl, -⟩ := List.cons.inj hmiddle
        exact hfaulty.unique hfaulty'
    | cons first middle =>
        obtain ⟨rfl, -⟩ := List.cons.inj hmiddle
        exact absurd hfaulty' (hbefore _ (by simp) _ _ _)

/-- An answer means that no site is faulty, a fault that it is that of the first which is. -/
def Checks {α : Type} (context : Context) (source : List Char) (sites : List Site) :
    Except Fault α → Prop
  | .ok _ => ∀ site ∈ sites, site.Sound context source
  | .error fault => ∃ code subject,
      FirstFaulty context source sites code fault.cause subject ∧ fault.span = subject.span

theorem Checks.nil {α : Type} (a : α) : Checks context source [] (.ok a) :=
  fun _ hmem => absurd hmem List.not_mem_nil

theorem Checks.fault {α : Type} {site : Site} {fault : Fault} {code : String} {subject : Subject}
    (h : Faulty context source site code fault.cause subject) (hspan : fault.span = subject.span) :
    Checks context source [site] (.error fault : Except Fault α) :=
  ⟨code, subject, ⟨[], site, [], rfl, List.forall_mem_nil _, h⟩, hspan⟩

theorem Checks.ok {α : Type} {site : Site} {a : α}
    (h : ∀ {code cause subject}, ¬ Faulty context source site code cause subject) :
    Checks context source [site] (.ok a) :=
  List.forall_mem_singleton.mpr fun _ _ _ => h

/-- Sites that are looked at one after the other. -/
theorem Checks.bind {α β : Type} {sites others : List Site} {x : Except Fault α}
    {f : α → Except Fault β} (h : Checks context source sites x)
    (hothers : ∀ a, x = .ok a → Checks context source others (f a)) :
    Checks context source (sites ++ others) (x >>= f) := by
  cases x with
  | error fault =>
      obtain ⟨code, subject, ⟨before, site, after, rfl, hbefore, hfaulty⟩, hspan⟩ := h
      exact ⟨code, subject, ⟨before, site, after ++ others, by simp, hbefore, hfaulty⟩, hspan⟩
  | ok a =>
      have hnext := hothers a rfl
      show Checks context source (sites ++ others) (f a)
      cases hf : f a with
      | ok b =>
          rw [hf] at hnext
          exact List.forall_mem_append.mpr ⟨h, hnext⟩
      | error fault =>
          rw [hf] at hnext
          obtain ⟨code, subject, ⟨before, site, after, rfl, hbefore, hfaulty⟩, hspan⟩ := hnext
          exact ⟨code, subject, ⟨sites ++ before, site, after, by simp,
            List.forall_mem_append.mpr ⟨h, hbefore⟩, hfaulty⟩, hspan⟩

/-- What is done with the answer does not matter. -/
theorem Checks.map {α β : Type} {sites : List Site} {x : Except Fault α} (f : α → β)
    (h : Checks context source sites x) :
    Checks context source sites (x >>= fun a => pure (f a)) := by
  rw [← List.append_nil sites]
  exact h.bind fun a _ => .nil (f a)

/-! ## One site -/

theorem checks_nullableOf {path : String} {exprs : List TypeExpr} {span : Span}
    {args : List Signature} (hparam : path ∉ context.typeParams) (hpath : IsWrapper path)
    (hargs : List.Forall₂ (fun expr arg => meaning context source expr = .ok arg) exprs args) :
    Checks context source [.path path exprs span] (nullableOf source args span) := by
  have hkeyword := ofKeyword?_wrapper hpath
  cases hargs with
  | nil => exact .fault (.arity hparam hpath (by decide)) rfl
  | @cons expr arg exprs args hfirst hothers =>
      cases hothers with
      | cons => exact .fault (.arity hparam hpath (by simp)) rfl
      | nil =>
          have hfacts := ((meaning_eq_ok_iff context source expr _).mp ⟨arg, hfirst, rfl⟩).2
          replace hfacts := congrArg TypeFacts.facts hfacts
          rw [TypeFacts.facts_bare] at hfacts
          have hspan := (meaning_node hfirst).1
          simp only [nullableOf, Bool.and_eq_true, Bool.not_eq_true']
          split
          · next hinner =>
              rw [hfacts] at hinner
              refine .ok fun h => ?_
              cases h <;> simp_all
          · next hinner =>
              rw [hspan]
              refine .fault (.argument hparam hpath ?_) rfl
              rw [← hfacts]
              rcases not_and_or.mp hinner with hvalue | hannotated
              · exact .inl ((Bool.not_eq_true _).mp hvalue)
              · exact .inr ((Bool.not_eq_false _).mp hannotated)

theorem checks_namedOf {path : String} {exprs : List TypeExpr} {span : Span}
    {args : List Signature}
    (hargs : List.Forall₂ (fun expr arg => meaning context source expr = .ok arg) exprs args) :
    Checks context source [.path path exprs span] (namedOf context source path args span) := by
  have hempty : args.isEmpty = true ↔ exprs = [] := by
    rw [List.isEmpty_iff, ← List.length_eq_zero_iff, ← hargs.length_eq, List.length_eq_zero_iff]
  unfold namedOf
  split
  · next hparam =>
      rw [List.contains_iff_mem] at hparam
      split
      · next hnil =>
          obtain rfl := hempty.mp hnil
          refine .ok fun h => ?_
          cases h <;> contradiction
      · next hsome => exact .fault (.parameter hparam (mt hempty.mpr hsome)) rfl
  · next hparam =>
      rw [List.contains_iff_mem] at hparam
      cases hkeyword : ShortName.ofKeyword? path with
      | some type =>
          dsimp only
          split
          · next hnil =>
              obtain rfl := hempty.mp hnil
              refine .ok fun h => ?_
              cases h with
              | parameter _ h => exact h rfl
              | keyword _ h => exact h rfl
              | arity _ hpath _ => simp [ofKeyword?_wrapper hpath] at hkeyword
          · next hsome => exact .fault (.keyword hkeyword (mt hempty.mpr hsome)) rfl
      | none =>
          dsimp only
          split
          · next hpath =>
              rw [List.contains_iff_mem, mem_wrapperPaths] at hpath
              exact checks_nullableOf hparam hpath hargs
          · next hpath =>
              rw [List.contains_iff_mem, mem_wrapperPaths] at hpath
              refine .ok fun h => ?_
              cases h <;> simp_all

theorem checks_underMark {base : TypeExpr} {type : Signature}
    (hbare : type.bare = denote context base.written) (start : Nat) (mark : Option Span) :
    Checks context source (markSites base mark) (underMark type start mark) := by
  cases mark with
  | none => exact .nil type
  | some mark =>
      have hfacts := congrArg TypeFacts.facts hbare
      rw [TypeFacts.facts_bare] at hfacts
      unfold underMark
      dsimp only
      split
      · next hannotated => exact .fault (.mark (hfacts ▸ hannotated)) rfl
      · next hannotated =>
          rw [hfacts] at hannotated
          have hsound {code cause subject} :
              ¬ Faulty context source (.mark base mark) code cause subject := by
            rintro ⟨⟩
            contradiction
          split
          · exact .ok hsound
          · exact .ok hsound

theorem checks_labelOf (before : List Element) (label : Option Label) :
    Checks context source (labelSites before label)
      (labelOf (labelsOf (before.map Element.written)) label) := by
  cases label with
  | none => exact .nil _
  | some label =>
      unfold labelOf
      dsimp only
      rw [length_labelsOf, List.length_map]
      split
      · next hmem => exact .fault (.repeated (List.contains_iff_mem.mp hmem)) rfl
      · next hmem =>
          rw [List.contains_iff_mem] at hmem
          cases hposition : labelPosition? label.text with
          | none =>
              refine .ok fun h => ?_
              cases h with
              | repeated h => exact hmem h
              | misplaced _ hnames _ =>
                  rw [← labelPosition?_eq_some_iff, hposition] at hnames
                  cases hnames
          | some position =>
              have hnames := labelPosition?_eq_some_iff.mp hposition
              dsimp only
              split
              · next hhere =>
                  refine .ok fun h => ?_
                  cases h with
                  | repeated h => exact hmem h
                  | misplaced _ hother hne =>
                      rw [← labelPosition?_eq_some_iff, hposition] at hother
                      exact hne (Option.some.inj hother ▸ hhere)
              · next hhere => exact .fault (.misplaced hmem hnames hhere) rfl

/-! ## The whole tree -/

mutual

/-- The reader looks at the sites of a type in their order. -/
theorem meaning_checks (context : Context) (source : List Char) : ∀ expr : TypeExpr,
    Checks context source expr.sites (meaning context source expr)
  | .named path args span mark => by
      rw [meaning, TypeExpr.sites]
      refine (meanings_checks context source args).bind fun types htypes => ?_
      refine (checks_namedOf (forall₂_meanings htypes)).bind fun type htype => ?_
      have hbare := (meaning_eq_ok_iff context source (.named path args span none) _).mp
        ⟨type, meaning_named_eq_ok_iff.mpr ⟨types, htypes, type, htype, rfl⟩, rfl⟩
      exact checks_underMark hbare.2 span.start mark
  | .tuple elements span mark => by
      rw [meaning, TypeExpr.sites]
      refine (elementMeanings_checks context source [] elements).bind fun pairs hpairs => ?_
      have hbare := (meaning_eq_ok_iff context source (.tuple elements span none) _).mp
        ⟨tupleOf pairs span, meaning_tuple_eq_ok_iff.mpr ⟨pairs, hpairs, rfl⟩, rfl⟩
      exact checks_underMark hbare.2 span.start mark

theorem meanings_checks (context : Context) (source : List Char) : ∀ exprs : List TypeExpr,
    Checks context source (TypeExpr.sitesOf exprs) (meanings context source exprs)
  | [] => .nil []
  | expr :: exprs => by
      rw [meanings, TypeExpr.sitesOf]
      refine (meaning_checks context source expr).bind fun type _ => ?_
      exact (meanings_checks context source exprs).map (type :: ·)

theorem elementMeanings_checks (context : Context) (source : List Char) (before : List Element) :
    ∀ elements : List Element, Checks context source (Element.sitesOf before elements)
      (elementMeanings context source (labelsOf (before.map Element.written)) elements)
  | [] => .nil []
  | .mk expr label :: elements => by
      rw [elementMeanings, Element.sitesOf]
      refine (meaning_checks context source expr).bind fun type _ => ?_
      refine (checks_labelOf before label).bind fun text htext => ?_
      have hagrees := labelOf_agrees (before.map Element.written) label
      rw [htext] at hagrees
      have hseen : labelsOf (before.map Element.written) ++ [text]
          = labelsOf ((before ++ [Element.mk expr label]).map Element.written) := by
        rw [List.map_append, List.map_singleton, labelsOf_snoc, hagrees.2]
        rfl
      rw [hseen]
      exact (elementMeanings_checks context source (before ++ [.mk expr label]) elements).map
        ((type, text) :: ·)

end

/-- A tree is refused exactly when one of its sites is faulty. -/
theorem violation_iff_faulty (expr : TypeExpr) :
    Violation context expr.written ↔ ∃ site ∈ expr.sites, ¬ site.Sound context source := by
  have hagrees := meaning_agrees context source expr
  have hchecks := meaning_checks context source expr
  cases hm : meaning context source expr with
  | ok signature =>
      rw [hm] at hagrees hchecks
      refine iff_of_false hagrees.1 ?_
      rintro ⟨site, hsite, hfaulty⟩
      exact hfaulty (hchecks site hsite)
  | error fault =>
      rw [hm] at hagrees hchecks
      obtain ⟨code, subject, ⟨before, site, after, hsites, -, hfaulty⟩, -⟩ := hchecks
      refine iff_of_true hagrees ⟨site, by simp [hsites], fun hsound => ?_⟩
      exact hsound code fault.cause subject hfaulty

end

end TypeNaming.Signature
