/-
# Types that are read when nothing is declared

With the default options a path means one thing: a keyword or its type in `System`, the
wrapper, or a type of that name.  So everything that is read has one of three shapes, and
`Lawful` lists them:

  * a type with a path of its own, and perhaps type arguments; the path says whether it is
    a value type, and then no `?` is left on it;
  * a nullable value over a value type that is not annotated;
  * a tuple with labels that can stand where they are.

What the name tree of each shape is, is said once for each (`toNameTree_own`,
`toNameTree_nullable`, `toNameTree_labelledTuple`).

Each way of denoting without a violation keeps to these shapes (`preserved_lawful`); the
violations matter, since they are what rules the other shapes out.
-/
import TypeNaming.Proofs.Grammar.Accepted
import TypeNaming.Proofs.Grammar.Labels
import TypeNaming.Proofs.Grammar.Respelling

namespace TypeNaming.Signature

open Text (lastPart)

/-! ## The shapes -/

/-- A type of its own, with the path it is called by. -/
def ownFacts (path : String) (annotated : Bool) : Facts where
  name := lastPart path
  qualified := path
  named := true
  value := namesValue {} path
  annotated := annotated
  tuple := false
  labels := []

/-- The types that are read when nothing is declared. -/
inductive Lawful : TypeFacts Unit → Prop
  | named {path : String} {args : List (TypeFacts Unit)} {annotated : Bool} :
      IsPath path.toList → ShortName.ofKeyword? path = none → ¬ IsWrapper path →
      (annotated = true → namesValue {} path = false) → (∀ arg ∈ args, Lawful arg) →
      Lawful (.mk (ownFacts path annotated) args ())
  | nullable {inner : TypeFacts Unit} :
      inner.facts.value = true → inner.facts.annotated = false → Lawful inner →
      Lawful (nullable inner)
  | tuple {elements : List WrittenElement} {types : List (TypeFacts Unit)} :
      2 ≤ types.length → elements.length = types.length → ¬ RejectsLabel [] elements →
      (∀ element ∈ elements, ∀ label, element.label = some label →
        IsPath label.toList ∧ '.' ∉ label.toList) →
      (∀ type ∈ types, Lawful type) → Lawful (labelledTuple (labelsOf elements) types)

theorem lawful_nominal {path : String} {args : List (TypeFacts Unit)} (hpath : IsPath path.toList)
    (hkeyword : ShortName.ofKeyword? path = none) (hwrapper : ¬ IsWrapper path)
    (hargs : ∀ arg ∈ args, Lawful arg) :
    Lawful (nominal (lastPart path) path (namesValue {} path) args) := by
  have hvalue : false = true → namesValue {} path = false := by simp
  exact .named hpath hkeyword hwrapper hvalue hargs

theorem Lawful.named_eq {type : TypeFacts Unit} (h : Lawful type) : type.facts.named = true := by
  cases h <;> rfl

theorem Lawful.args {type : TypeFacts Unit} (h : Lawful type) : ∀ arg ∈ type.args, Lawful arg := by
  cases h with
  | named _ _ _ _ hargs => exact hargs
  | nullable _ _ hinner => exact List.forall_mem_singleton.mpr hinner
  | tuple _ _ _ _ htypes => exact htypes

/-! ## What is read -/

theorem plain_default : Context.Plain {} :=
  ⟨fun _ _ => List.not_mem_nil, fun _ _ => List.not_mem_nil⟩

/-- A letter, and after it letters and digits. -/
def isWord : List Char → Bool
  | [] => false
  | c :: cs => c.isAlpha && cs.all Char.isAlphanum

theorem identifier_of_isWord {cs : List Char} (h : isWord cs = true) : Identifier cs := by
  cases cs with
  | nil => cases h
  | cons c cs =>
      obtain ⟨hc, hcs⟩ := Bool.and_eq_true_iff.mp h
      refine ⟨c, cs, rfl, by simp [isIdentStart, hc], fun d hd => ?_⟩
      simp [isIdentRest, List.all_eq_true.mp hcs d hd]

theorem builtIn_isWord :
    ∀ type ∈ ShortName.builtIns, isWord type.name.toList ∧ isWord type.keyword.toList := by
  decide

theorem builtIn_isPath {type : ShortName.BuiltIn} (h : type ∈ ShortName.builtIns) :
    IsPath ("System." ++ type.name).toList := by
  have hname := identifier_of_isWord (builtIn_isWord type h).1
  have hroot : Identifier "System".toList := identifier_of_isWord (by decide)
  simpa using IsPath.dotted hroot (.ident hname)

theorem lawful_denotePath {path : String} {args : List (TypeFacts Unit)}
    (hpath : IsPath path.toList) (happlied : ¬ Misapplied {} path args)
    (hargs : ∀ arg ∈ args, Lawful arg) : Lawful (denotePath {} path args) := by
  have hparam : path ∉ Context.typeParams {} := List.not_mem_nil
  cases hkeyword : ShortName.ofKeyword? path with
  | some type =>
      have hmem := List.mem_of_find?_eq_some hkeyword
      have hdenotes : denotePath {} path args
          = nominal type.name ("System." ++ type.name) type.isValue [] := by
        simp only [denotePath, if_neg hparam, hkeyword]
      have hlawful := lawful_nominal (builtIn_isPath hmem)
        (ShortName.builtIn_noKeyword type hmem) (builtIn_notWrapper type hmem)
        (List.forall_mem_nil Lawful)
      rw [ShortName.builtIn_lastPart type hmem, namesValue_system plain_default hmem] at hlawful
      rw [hdenotes]
      exact hlawful
  | none =>
      by_cases hwrapper : IsWrapper path
      · rw [misapplied_wrapper_iff hparam hwrapper, not_not] at happlied
        obtain ⟨inner, rfl, hvalue, hannotated⟩ := happlied
        rw [denotePath_wrapper plain_default hwrapper]
        exact .nullable hvalue hannotated (hargs inner List.mem_cons_self)
      · have hdenotes : denotePath {} path args
            = nominal (lastPart path) path (namesValue {} path) args := by
          simp only [denotePath, if_neg hparam, hkeyword]
          split <;> simp_all
        rw [hdenotes]
        exact lawful_nominal hpath hkeyword hwrapper hargs

theorem lawful_denoteMark {type : TypeFacts Unit} (h : Lawful type)
    (hannotated : type.facts.annotated = false) : Lawful (denoteMark type) := by
  unfold denoteMark
  split
  · next hvalue => exact .nullable hvalue hannotated h
  · next hvalue =>
      cases h with
      | named hpath hkeyword hwrapper _ hargs =>
          exact .named hpath hkeyword hwrapper (fun _ => Bool.eq_false_iff.mpr hvalue) hargs
      | nullable => cases hannotated
      | tuple => exact absurd rfl hvalue

theorem preserved_lawful : Preserved {} (fun name => IsPath name.toList) Lawful where
  path hpath happlied hargs := lawful_denotePath hpath happlied hargs
  mark htype hannotated := lawful_denoteMark htype hannotated
  tuple htwo hlength hlabels hnames htypes := .tuple htwo hlength hlabels hnames htypes

/-- What is read is lawful. -/
theorem lawful_denote {type : Written} (hderivable : Derivable type)
    (hcalled : Called (fun name => IsPath name.toList) type.row)
    (hsound : ¬ Violation {} type) : Lawful (denote {} type) :=
  preserved_lawful.denote hderivable hcalled hsound

/-! ## The trees of these types -/

/-- A type with a path of its own has the trees of its arguments below it. -/
theorem toNameTree_own {path : String} {args : List (TypeFacts Unit)} {annotated : Bool}
    (hvalue : annotated = true → namesValue {} path = false)
    (hargs : ∀ arg ∈ args, arg.facts.named = true) :
    ∃ marks, (TypeFacts.mk (ownFacts path annotated) args ()).toNameTree
      = .node ⟨lastPart path, path, if args.isEmpty then .plain annotated else .generic annotated,
          none, marks⟩ (args.map TypeFacts.toNameTree) := by
  have hplain : (annotated && namesValue {} path) = false := by
    cases annotated with
    | false => rfl
    | true => exact hvalue rfl
  simp only [TypeFacts.toNameTree, ownFacts, TypeFacts.namedTrees_of_named hargs, hplain,
    Bool.false_eq_true, if_false]
  cases args with
  | nil => exact ⟨_, rfl⟩
  | cons arg args => exact ⟨_, rfl⟩

/-- A nullable value has the tree of the type that it wraps below it. -/
theorem toNameTree_nullable {inner : TypeFacts Unit} (h : inner.facts.named = true) :
    ∃ marks, (nullable inner).toNameTree
      = .node ⟨"Nullable", inner.facts.qualified ++ "?", .nullableValue, none, marks⟩
          [inner.toNameTree] := by
  have htrees : TypeFacts.namedTrees [inner] = [inner.toNameTree] :=
    TypeFacts.namedTrees_of_named (List.forall_mem_singleton.mpr h)
  simp only [nullable, TypeFacts.toNameTree, htrees, Bool.and_self, if_true]
  exact ⟨_, rfl⟩

/-- A tuple has the trees of its elements below it, with labels when some label is not the
default one. -/
theorem toNameTree_labelledTuple (labels : List String) {types : List (TypeFacts Unit)}
    (h : ∀ type ∈ types, type.facts.named = true) :
    ∃ marks, (labelledTuple labels types).toNameTree
      = .node ⟨"ValueTuple", (labelledTuple labels types).facts.qualified, .tuple, none, marks⟩
          (if TypeFacts.hasOwnLabels (labelledTuple labels types).facts types then
            TypeFacts.elementTrees labels types
          else types.map TypeFacts.toNameTree) := by
  by_cases hown : TypeFacts.hasOwnLabels (labelledTuple labels types).facts types
  · rw [if_pos hown]
    exact ⟨_, if_pos hown⟩
  · rw [if_neg hown, ← TypeFacts.namedTrees_of_named h]
    exact ⟨_, if_neg hown⟩

end TypeNaming.Signature
