/-
# What is reported of a type agrees with itself

The facts about a type and its arguments could contradict each other: a type under `?` with
two arguments, a tuple with three elements and two labels, a type parameter with arguments.
The name tree would be made all the same, and what does not fit would be left out without a
word.  `Coherent` lists what has to go together for that not to happen, and everything that
is read has it in all its parts (`preserved_coherent`).

Two places need more than one part at a time.  A type that is called `Nullable` and has one
argument is only the wrapper when its qualified name ends in `?`, which no path does.  And a
`?` on a reference changes `annotated` alone; that it is no wrapper is known from what the
type was before.
-/
import TypeNaming.Proofs.Grammar.Accepted
import TypeNaming.Proofs.Grammar.Locality

namespace TypeNaming

namespace TypeFacts

variable {α : Type}

/-! ## Facts that go together -/

/-- The type is the wrapper of a nullable value: its one argument is a value type that is not
itself under `?`, and its name is that of the argument with `?` after it. -/
structure WrapsValue (facts : Facts) (args : List (TypeFacts α)) : Prop where
  name : facts.name = "Nullable"
  named : facts.named = true
  tuple : facts.tuple = false
  labels : facts.labels = []
  inner : ∃ inner, args = [inner] ∧ inner.facts.value = true ∧ inner.facts.annotated = false ∧
    facts.qualified = inner.facts.qualified ++ "?"

/-- The type is a tuple of its arguments, with a label for each. -/
structure TuplesElements (facts : Facts) (args : List (TypeFacts α)) : Prop where
  name : facts.name = "ValueTuple"
  value : facts.value = true
  annotated : facts.annotated = false
  two : 2 ≤ args.length
  labels : facts.labels.length = args.length
  qualified :
    facts.qualified = "(" ++ ", ".intercalate (args.map (·.facts.qualified)) ++ ")"

/-- The facts agree with each other and with the arguments. -/
structure Coherent (context : Context) (facts : Facts) (args : List (TypeFacts α)) : Prop where
  wrapper : facts.value = true ∧ facts.annotated = true ↔ WrapsValue facts args
  tuple : facts.tuple = true → TuplesElements facts args
  labels : facts.tuple = false → facts.labels = []
  unnamed : facts.named = false → args = [] ∧ facts.name ∈ context.typeParams

/-- The three shapes of a type that agrees with itself: one with a name of its own, a wrapper
over its argument, and a tuple. -/
inductive Shape (facts : Facts) : List (TypeFacts α) → Prop
  | plain {args : List (TypeFacts α)} : facts.tuple = false →
      (facts.annotated && facts.value) = false → Shape facts args
  | wrapper {inner : TypeFacts α} : facts.tuple = false →
      (facts.annotated && facts.value) = true → inner.facts.annotated = false →
      facts.qualified = inner.facts.qualified ++ "?" → Shape facts [inner]
  | tuple {args : List (TypeFacts α)} : facts.tuple = true →
      (facts.annotated && facts.value) = false → TuplesElements facts args → Shape facts args

theorem Coherent.shape {context : Context} {facts : Facts} {args : List (TypeFacts α)}
    (h : Coherent context facts args) : Shape facts args := by
  cases htuple : facts.tuple with
  | true =>
      have helements := h.tuple htuple
      exact .tuple htuple (by rw [helements.annotated]; rfl) helements
  | false =>
      cases hnullable : facts.annotated && facts.value with
      | false => exact .plain htuple hnullable
      | true =>
          obtain ⟨hannotated, hvalue⟩ := Bool.and_eq_true_iff.mp hnullable
          obtain ⟨inner, rfl, -, hinner, hqualified⟩ :=
            (h.wrapper.mp ⟨hvalue, hannotated⟩).inner
          exact .wrapper htuple hnullable hinner hqualified

/-- Notes do not matter. -/
theorem coherent_bare_iff {context : Context} {facts : Facts} {args : List (TypeFacts α)} :
    Coherent context facts (args.map bare) ↔ Coherent context facts args := by
  have hwraps : WrapsValue facts (args.map bare) ↔ WrapsValue facts args := by
    constructor
    · rintro ⟨hname, hnamed, htuple, hlabels, inner, hargs, hinner⟩
      obtain ⟨inner, rfl, rfl⟩ := List.map_eq_singleton_iff.mp hargs
      rw [facts_bare] at hinner
      exact ⟨hname, hnamed, htuple, hlabels, inner, rfl, hinner⟩
    · rintro ⟨hname, hnamed, htuple, hlabels, inner, rfl, hinner⟩
      exact ⟨hname, hnamed, htuple, hlabels, inner.bare, rfl, by simpa using hinner⟩
  have htuple : TuplesElements facts (args.map bare) ↔ TuplesElements facts args := by
    have hnames : (args.map bare).map (·.facts.qualified) = args.map (·.facts.qualified) := by
      simp
    constructor
    · rintro ⟨hname, hvalue, hannotated, htwo, hlabels, hqualified⟩
      rw [List.length_map] at htwo hlabels
      exact ⟨hname, hvalue, hannotated, htwo, hlabels, hnames ▸ hqualified⟩
    · rintro ⟨hname, hvalue, hannotated, htwo, hlabels, hqualified⟩
      rw [← List.length_map (f := bare)] at htwo hlabels
      exact ⟨hname, hvalue, hannotated, htwo, hlabels, hnames.symm ▸ hqualified⟩
  constructor
  · rintro ⟨hwrapper, htuples, hlabels, hunnamed⟩
    exact ⟨hwrapper.trans hwraps, fun h => htuple.mp (htuples h), hlabels,
      by simpa using hunnamed⟩
  · rintro ⟨hwrapper, htuples, hlabels, hunnamed⟩
    exact ⟨hwrapper.trans hwraps.symm, fun h => htuple.mpr (htuples h), hlabels,
      by simpa using hunnamed⟩

/-- What holds of all parts of a type without notes holds of them with notes. -/
theorem Everywhere.of_bare {P : Facts → List (TypeFacts Unit) → Prop}
    {Q : Facts → List (TypeFacts α) → Prop}
    (hown : ∀ {facts args}, P facts (args.map bare) → Q facts args) :
    ∀ {type : TypeFacts α}, type.bare.Everywhere P → type.Everywhere Q
  | .mk facts args note, h => by
      rw [bare_mk] at h
      cases h with
      | mk hbare hargs =>
          refine .mk (hown hbare) fun arg hmem => ?_
          exact Everywhere.of_bare hown (hargs arg.bare (List.mem_map_of_mem hmem))

theorem Everywhere.own {P : Facts → List (TypeFacts α) → Prop} {type : TypeFacts α}
    (h : type.Everywhere P) : P type.facts type.args := by
  cases h with
  | mk hown _ => exact hown

theorem Everywhere.arg {P : Facts → List (TypeFacts α) → Prop} {type arg : TypeFacts α}
    (h : type.Everywhere P) (hmem : arg ∈ type.args) : arg.Everywhere P := by
  cases h with
  | mk _ hargs => exact hargs arg hmem

/-- What holds of all parts of a type holds of each of its nodes. -/
theorem Everywhere.node {P : Facts → List (TypeFacts α) → Prop} {type node : TypeFacts α}
    (h : type.Everywhere P) (hnode : type.HasNode node) : node.Everywhere P := by
  induction hnode with
  | root => exact h
  | arg harg _ ih => exact ih (h.arg harg)

/-! ## Nothing is lost on the way to the tree -/

/-- The one argument of a wrapper is all that there is to take. -/
theorem head?_namedTrees (inner : TypeFacts α) :
    (namedTrees [inner]).head?.toList = namedTrees [inner] := by
  rw [namedTrees]
  split <;> rfl

theorem elementTrees_eq_map (labels : List String) (args : List (TypeFacts α)) :
    elementTrees labels args
      = (labels.zip args).map fun element => element.2.toNameTree.withLabel element.1 := by
  induction labels generalizing args with
  | nil => simp [elementTrees]
  | cons label labels ih =>
      cases args with
      | nil => simp [elementTrees]
      | cons arg args => rw [elementTrees, List.zip_cons_cons, List.map_cons, ih]

/-- The tree has all that it has a place for: of a nullable value the wrapped type, unless
that is an open type parameter, and of a tuple with labels of its own every element with its
label. -/
structure Undiminished (type : TypeFacts α) : Prop where
  wrapper : type.facts.value = true → type.facts.annotated = true →
    type.args.length = 1 ∧ type.toNameTree.children = namedTrees type.args
  tuple : type.facts.tuple = true → hasOwnLabels type.facts type.args = true →
    type.elements.map (·.2) = type.args ∧ type.toNameTree.children
      = type.elements.map fun element => element.2.toNameTree.withLabel element.1

theorem Coherent.undiminished {context : Context} {type : TypeFacts α}
    (h : Coherent context type.facts type.args) : type.Undiminished := by
  cases type with
  | mk facts args note =>
      constructor
      · intro (hvalue : facts.value = true) (hannotated : facts.annotated = true)
        obtain ⟨inner, hargs, -⟩ := (h.wrapper.mp ⟨hvalue, hannotated⟩).inner
        obtain rfl : args = [inner] := hargs
        refine ⟨rfl, ?_⟩
        simp [toNameTree, args, hvalue, hannotated, head?_namedTrees]
      · intro (htuple : facts.tuple = true) (hown : hasOwnLabels facts args = true)
        have helements := h.tuple htuple
        have hplain : (facts.annotated && facts.value) = false := by
          simp [show facts.annotated = false from helements.annotated]
        have hlength : args.length ≤ facts.labels.length := Nat.le_of_eq helements.labels.symm
        refine ⟨List.map_snd_zip hlength, ?_⟩
        simp [toNameTree, elements, TypeFacts.args, TypeFacts.facts, hplain, htuple, hown,
          elementTrees_eq_map]

end TypeFacts

/-! ## What is read -/

namespace Signature

open TypeFacts (Coherent WrapsValue)

theorem not_wrapsValue {facts : Facts} {args : List (TypeFacts Unit)}
    (h : '?' ∉ facts.qualified.toList) : ¬ WrapsValue facts args := by
  intro hwraps
  obtain ⟨inner, -, -, -, hqualified⟩ := hwraps.inner
  rw [hqualified] at h
  exact h (by simp)

theorem coherent_nominal {context : Context} (name : String) {qualified : String} (value : Bool)
    (args : List (TypeFacts Unit)) (h : '?' ∉ qualified.toList) :
    Coherent context (nominal name qualified value args).facts args where
  wrapper := ⟨fun hboth => absurd hboth.2 Bool.false_ne_true, fun hwraps =>
    absurd hwraps (not_wrapsValue h)⟩
  tuple := by rintro ⟨⟩
  labels _ := rfl
  unnamed := by rintro ⟨⟩

theorem coherent_parameter {context : Context} {path : String} (hparam : path ∈ context.typeParams)
    (h : '?' ∉ path.toList) :
    Coherent context (parameter context path).facts ([] : List (TypeFacts Unit)) where
  wrapper := ⟨fun hboth => absurd hboth.2 Bool.false_ne_true, fun hwraps =>
    absurd hwraps (not_wrapsValue h)⟩
  tuple := by rintro ⟨⟩
  labels _ := rfl
  unnamed _ := ⟨rfl, hparam⟩

theorem coherent_nullable {context : Context} {inner : TypeFacts Unit}
    (hvalue : inner.facts.value = true) (hannotated : inner.facts.annotated = false) :
    Coherent context (nullable inner).facts [inner] where
  wrapper := ⟨fun _ => ⟨rfl, rfl, rfl, rfl, inner, rfl, hvalue, hannotated, rfl⟩,
    fun _ => ⟨rfl, rfl⟩⟩
  tuple := by rintro ⟨⟩
  labels _ := rfl
  unnamed := by rintro ⟨⟩

theorem coherent_labelledTuple {context : Context} {labels : List String}
    {types : List (TypeFacts Unit)} (htwo : 2 ≤ types.length)
    (hlabels : labels.length = types.length) :
    Coherent context (labelledTuple labels types).facts types where
  wrapper := ⟨fun hboth => absurd hboth.2 Bool.false_ne_true, fun hwraps =>
    absurd hwraps.tuple.symm Bool.false_ne_true⟩
  tuple _ := ⟨rfl, rfl, rfl, htwo, hlabels, rfl⟩
  labels := by rintro ⟨⟩
  unnamed := by rintro ⟨⟩

/-- A `?` on a reference makes no wrapper of it. -/
theorem coherent_annotate {context : Context} {facts : Facts} {args : List (TypeFacts Unit)}
    (h : Coherent context facts args) (hvalue : facts.value = false) :
    Coherent context { facts with annotated := true } args where
  wrapper := by
    constructor
    · rintro ⟨hyes, -⟩
      exact absurd (hvalue.symm.trans hyes) Bool.false_ne_true
    · intro hwraps
      have hbefore : WrapsValue facts args :=
        ⟨hwraps.name, hwraps.named, hwraps.tuple, hwraps.labels, hwraps.inner⟩
      exact absurd (hvalue.symm.trans (h.wrapper.mpr hbefore).1) Bool.false_ne_true
  tuple htuple := absurd (hvalue.symm.trans (h.tuple htuple).value) Bool.false_ne_true
  labels := h.labels
  unnamed := h.unnamed

theorem coherent_denoteMark {context : Context} {type : TypeFacts Unit}
    (h : type.Everywhere (Coherent context)) (hannotated : type.facts.annotated = false) :
    (denoteMark type).Everywhere (Coherent context) := by
  unfold denoteMark
  split
  · next hvalue =>
      exact .mk (coherent_nullable hvalue hannotated) (List.forall_mem_singleton.mpr h)
  · next hvalue =>
      cases h with
      | mk hown hargs =>
          exact .mk (coherent_annotate hown (Bool.eq_false_iff.mpr hvalue)) hargs

theorem coherent_denotePath {context : Context} {path : String} (hpath : IsPath path.toList)
    {args : List (TypeFacts Unit)} (happlied : ¬ Misapplied context path args)
    (hargs : ∀ arg ∈ args, arg.Everywhere (Coherent context)) :
    (denotePath context path args).Everywhere (Coherent context) := by
  have hmark : '?' ∉ path.toList := hpath.avoids rfl (by decide)
  unfold denotePath
  split
  · next hparam => exact .mk (coherent_parameter hparam hmark) (List.forall_mem_nil _)
  · next hparam =>
      split
      · next type htype =>
          have hname := ShortName.builtIn_unmarked type (List.mem_of_find?_eq_some htype)
          exact .mk (coherent_nominal _ _ [] (by simp [hname])) (List.forall_mem_nil _)
      · next inner _ =>
          split
          · next hwrapper =>
              rw [misapplied_wrapper_iff hparam hwrapper, not_not] at happlied
              obtain ⟨_, heq, hvalue, hannotated⟩ := happlied
              obtain rfl := List.singleton_inj.mp heq
              exact .mk (coherent_nullable hvalue hannotated) hargs
          · exact .mk (coherent_nominal _ _ _ hmark) hargs
      · exact .mk (coherent_nominal _ _ _ hmark) hargs

theorem preserved_coherent (context : Context) :
    Preserved context (fun name => IsPath name.toList)
      (TypeFacts.Everywhere (Coherent context)) where
  path hpath happlied hargs := coherent_denotePath hpath happlied hargs
  mark htype hannotated := coherent_denoteMark htype hannotated
  tuple htwo hlength _ _ htypes :=
    .mk (coherent_labelledTuple htwo (by simpa using hlength)) htypes

/-- What is read agrees with itself in all its parts. -/
theorem everywhere_coherent_of_read {context : Context} {source : String} {signature : Signature}
    (h : read context source = .ok signature) : signature.Everywhere (Coherent context) :=
  TypeFacts.Everywhere.of_bare TypeFacts.coherent_bare_iff.mp ((preserved_coherent context).read h)

/-- Every node of what is read agrees with itself, and its tree has all its arguments that
it has a place for. -/
theorem coherent_of_read {context : Context} {source : String} {signature node : Signature}
    (h : read context source = .ok signature) (hnode : signature.HasNode node) :
    Coherent context node.facts node.args ∧ node.Undiminished := by
  have hcoherent := ((everywhere_coherent_of_read h).node hnode).own
  exact ⟨hcoherent, hcoherent.undiminished⟩

/-- A tuple under `?` whose first element is the wrapper, spelled out, of a type parameter. -/
theorem coherent_of_read_spelledOut :
    let context : Context := { valueTypes := ["T"], typeParams := ["T"] }
    ∃ signature node : Signature,
      read context "(System.Nullable<T> id, string?)?" = .ok signature ∧
      signature.HasNode node ∧ node.facts.qualified = "T?" ∧
      Coherent context node.facts node.args ∧ node.Undiminished := by
  intro context
  have hreads : readsAs context "(System.Nullable<T> id, string?)?" (fun signature =>
      (signature.args.flatMap TypeFacts.args).map (·.facts.qualified)
        = ["T?", "System.String"]) = true := by
    decide +kernel
  obtain ⟨signature, hread, hnames⟩ := exists_of_readsAs hreads
  obtain ⟨node, _, hnodes, hname, -⟩ := List.map_eq_cons_iff.mp (of_decide_eq_true hnames)
  obtain ⟨arg, harg, hmem⟩ : ∃ arg ∈ signature.args, node ∈ arg.args :=
    List.mem_flatMap.mp (hnodes ▸ List.mem_cons_self)
  have hnode : signature.HasNode node := .arg harg (.arg hmem (.root node))
  exact ⟨signature, node, hread, hnode, hname, coherent_of_read hread hnode⟩

end Signature

end TypeNaming
