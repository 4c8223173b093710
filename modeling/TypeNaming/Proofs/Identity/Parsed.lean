/-
# The trees of types that are read

Without open type parameters, every type that is read is one of its own, and its name
tree is regular: a leaf is called by a path, which has no `?`; a type with arguments
keeps them all; a tuple has elements; and a nullable value has the type that it wraps
below it, whose qualified name its own repeats with `?` after it.

So equality of the trees of two such types is agreement node by node.
-/
import TypeNaming.Proofs.Grammar.Exact
import TypeNaming.Proofs.Grammar.Induction
import TypeNaming.Proofs.Identity.Alike
import TypeNaming.Proofs.Text.ShortName

namespace TypeNaming

namespace NameTree

theorem regular_make {name qualified : String} {kind : Kind} {children : List NameTree}
    (h : Fits qualified children kind) (hchildren : ∀ t ∈ children, Regular t) :
    Regular (make name qualified kind children) :=
  .node h hchildren

theorem Regular.withLabel {t : NameTree} (h : Regular t) (label : String) :
    Regular (t.withLabel label) := by
  cases h with
  | node h hchildren => exact .node h hchildren

theorem Regular.markDropped {t : NameTree} (h : Regular t) (dropped : Bool) :
    Regular (t.markDropped dropped) := by
  cases h with
  | node h hchildren => exact .node h hchildren

end NameTree

namespace TypeFacts

variable {α : Type}

/-! ## Notes and names -/

theorem hasUnnamed_bare (args : List (TypeFacts α)) :
    hasUnnamed (args.map bare) = hasUnnamed args := by
  simp [hasUnnamed, List.any_map, Function.comp_def]

theorem hasOwnLabels_bare (facts : Facts) (args : List (TypeFacts α)) :
    hasOwnLabels facts (args.map bare) = hasOwnLabels facts args := by
  simp [hasOwnLabels, List.zip_map_right, List.any_map, Function.comp_def]

mutual

/-- The notes do not matter for the name tree. -/
theorem toNameTree_bare : ∀ type : TypeFacts α, type.bare.toNameTree = type.toNameTree
  | .mk facts args note => by
      have hnamed := namedTrees_bare args
      have helements := elementTrees_bare facts.labels args
      rw [bare_mk, toNameTree, toNameTree, hnamed, helements, hasUnnamed_bare, hasOwnLabels_bare,
        List.isEmpty_map]

theorem namedTrees_bare : ∀ args : List (TypeFacts α),
    namedTrees (args.map bare) = namedTrees args
  | [] => rfl
  | arg :: args => by
      rw [List.map_cons, namedTrees, namedTrees, facts_bare, toNameTree_bare arg,
        namedTrees_bare args]

theorem elementTrees_bare : ∀ (labels : List String) (args : List (TypeFacts α)),
    elementTrees labels (args.map bare) = elementTrees labels args
  | [], _ => by simp [elementTrees]
  | _ :: _, [] => by simp [elementTrees]
  | label :: labels, arg :: args => by
      rw [List.map_cons, elementTrees, elementTrees, toNameTree_bare arg,
        elementTrees_bare labels args]

end

theorem namedTrees_of_named {args : List (TypeFacts α)}
    (h : ∀ arg ∈ args, arg.facts.named = true) : namedTrees args = args.map toNameTree := by
  induction args with
  | nil => rfl
  | cons arg args ih =>
      obtain ⟨harg, hargs⟩ := List.forall_mem_cons.mp h
      rw [namedTrees, if_pos harg, ih hargs, List.map_cons]

theorem elementTrees_ne_nil {labels : List String} {args : List (TypeFacts α)}
    (h : labels.length = args.length) (hne : args ≠ []) : elementTrees labels args ≠ [] := by
  obtain ⟨arg, args, rfl⟩ := List.exists_cons_of_ne_nil hne
  cases labels with
  | nil => cases h
  | cons label labels => simp [elementTrees]

theorem regular_elementTrees : ∀ (labels : List String) {args : List (TypeFacts α)},
    (∀ arg ∈ args, arg.toNameTree.Regular) → ∀ t ∈ elementTrees labels args, t.Regular
  | [], _, _ => by simp [elementTrees]
  | _ :: _, [], _ => by simp [elementTrees]
  | label :: labels, arg :: args, h => by
      obtain ⟨harg, hargs⟩ := List.forall_mem_cons.mp h
      rw [elementTrees]
      exact List.forall_mem_cons.mpr ⟨harg.withLabel label, regular_elementTrees labels hargs⟩

/-! ## The tree of a type, node by node -/

theorem mem_namedTrees {args : List (TypeFacts α)} {t : NameTree} (h : t ∈ namedTrees args) :
    ∃ arg ∈ args, t = arg.toNameTree := by
  induction args with
  | nil => cases h
  | cons arg args ih =>
      rw [namedTrees] at h
      split at h
      · rcases List.mem_cons.mp h with rfl | h
        · exact ⟨arg, List.mem_cons_self, rfl⟩
        · obtain ⟨other, hmem, rfl⟩ := ih h
          exact ⟨other, List.mem_cons_of_mem _ hmem, rfl⟩
      · obtain ⟨other, hmem, rfl⟩ := ih h
        exact ⟨other, List.mem_cons_of_mem _ hmem, rfl⟩

theorem mem_elementTrees : ∀ {labels : List String} {args : List (TypeFacts α)} {t : NameTree},
    t ∈ elementTrees labels args →
      ∃ arg ∈ args, ∃ label ∈ labels, t = arg.toNameTree.withLabel label
  | [], _, _, h => by simp [elementTrees] at h
  | _ :: _, [], _, h => by simp [elementTrees] at h
  | label :: labels, arg :: args, t, h => by
      rw [elementTrees] at h
      rcases List.mem_cons.mp h with rfl | h
      · exact ⟨arg, List.mem_cons_self, label, List.mem_cons_self, rfl⟩
      · obtain ⟨other, hother, own, hown, rfl⟩ := mem_elementTrees h
        exact ⟨other, List.mem_cons_of_mem _ hother, own, List.mem_cons_of_mem _ hown, rfl⟩

/-- The kind of the node that a type becomes. -/
def kindOf (facts : Facts) (args : List (TypeFacts α)) : Kind :=
  if facts.annotated && facts.value then .nullableValue
  else if facts.tuple then .tuple
  else if args.isEmpty then .plain facts.annotated
  else .generic facts.annotated

theorem kindOf_eq_nullableValue_iff {facts : Facts} {args : List (TypeFacts α)} :
    kindOf facts args = .nullableValue ↔ (facts.annotated && facts.value) = true := by
  unfold kindOf
  split
  · next h => exact iff_of_true rfl h
  · next h =>
      refine iff_of_false ?_ h
      split
      · simp
      · split <;> simp

theorem tuple_of_kindOf {facts : Facts} {args : List (TypeFacts α)}
    (h : kindOf facts args = .tuple) : facts.tuple = true := by
  unfold kindOf at h
  split at h
  · cases h
  · split at h
    · next htuple => exact htuple
    · split at h <;> cases h

/-- The tree is that of the part of a type, as an argument or as an element. -/
def IsPart (facts : Facts) (args : List (TypeFacts α)) (t : NameTree) : Prop :=
  ∃ arg ∈ args, t = arg.toNameTree ∨ ∃ label ∈ facts.labels, t = arg.toNameTree.withLabel label

theorem isPart_of_namedTrees (facts : Facts) {args : List (TypeFacts α)} {t : NameTree}
    (h : t ∈ namedTrees args) : IsPart facts args t := by
  obtain ⟨arg, hmem, heq⟩ := mem_namedTrees h
  exact ⟨arg, hmem, Or.inl heq⟩

/-- What the root of the tree says of itself, and what stands below it. -/
theorem toNameTree_eq_node (facts : Facts) (args : List (TypeFacts α)) (note : α) :
    ∃ marks children, (TypeFacts.mk facts args note).toNameTree =
        .node ⟨facts.name, facts.qualified, kindOf facts args, none, marks⟩ children ∧
      ∀ t ∈ children, IsPart facts args t := by
  rw [toNameTree, kindOf]
  split
  · refine ⟨_, _, rfl, fun t ht => isPart_of_namedTrees facts ?_⟩
    exact List.mem_of_mem_head? (by simpa using ht)
  · split
    · split
      · refine ⟨_, _, rfl, fun t ht => ?_⟩
        obtain ⟨arg, hmem, label, hlabel, heq⟩ := mem_elementTrees ht
        exact ⟨arg, hmem, Or.inr ⟨label, hlabel, heq⟩⟩
      · exact ⟨_, _, rfl, fun t ht => isPart_of_namedTrees facts ht⟩
    · split
      · exact ⟨_, _, rfl, by simp⟩
      · exact ⟨_, _, rfl, fun t ht => isPart_of_namedTrees facts ht⟩

/-- What holds of all parts of a type carries over to the nodes of its tree, when it does
so at one node, and when a label of the type does not matter. -/
theorem Everywhere.toNameTree {P : Facts → List (TypeFacts α) → Prop}
    {Q : NodeInfo → List NameTree → Prop}
    (hnode : ∀ {facts args marks children}, P facts args →
      (∀ t ∈ children, IsPart facts args t) →
      Q ⟨facts.name, facts.qualified, kindOf facts args, none, marks⟩ children)
    (hlabel : ∀ {facts args label info children}, P facts args → label ∈ facts.labels →
      Q info children → Q { info with label := some label } children)
    {type : TypeFacts α} (h : type.Everywhere P) : type.toNameTree.Everywhere Q := by
  induction h with
  | @mk facts args note hown _ ih =>
      obtain ⟨marks, children, heq, hchildren⟩ := toNameTree_eq_node facts args note
      rw [heq]
      refine .node (hnode hown hchildren) fun t ht => ?_
      obtain ⟨arg, hmem, rfl | ⟨label, hmemlabel, rfl⟩⟩ := hchildren t ht
      · exact ih arg hmem
      · cases harg : arg.toNameTree with
        | node info below =>
            have htree := ih arg hmem
            rw [harg] at htree
            cases htree with
            | node hinfo hbelow => exact .node (hlabel hown hmemlabel hinfo) hbelow

/-- What holds of all parts of a type holds of all parts of its arguments. -/
theorem Everywhere.args {P : Facts → List (TypeFacts Unit) → Prop} {type : TypeFacts α}
    (h : type.bare.Everywhere P) : ∀ arg ∈ type.args, arg.bare.Everywhere P := by
  cases type with
  | mk facts args note =>
      rw [bare_mk] at h
      cases h with
      | mk _ hargs => exact List.forall_mem_map.mp hargs

/-! ## Types with regular trees -/

/-- The facts go with the arguments: a nullable value wraps one and is called by a name
that ends in `?`, a tuple has labelled elements, and a type without arguments is called
by a name without `?`. -/
def Formed (facts : Facts) (args : List (TypeFacts α)) : Prop :=
  if facts.annotated && facts.value then
    args ≠ [] ∧ facts.qualified.toList.getLast? = some '?'
  else if facts.tuple then args ≠ [] ∧ facts.labels.length = args.length
  else args = [] → '?' ∉ facts.qualified.toList

theorem Formed.annotate {facts : Facts} {args : List (TypeFacts α)} (h : Formed facts args)
    (hvalue : facts.value = false) : Formed { facts with annotated := true } args := by
  simpa [Formed, hvalue] using h

/-- All parts of the type are types of their own, and formed. -/
abbrev Settled : TypeFacts α → Prop :=
  Everywhere fun facts args => facts.named = true ∧ Formed facts args

theorem Settled.named {type : TypeFacts α} (h : type.Settled) : type.facts.named = true := by
  cases h with
  | mk hown _ => exact hown.1

theorem regular_of_formed {facts : Facts} {args : List (TypeFacts α)} (note : α)
    (hnamed : ∀ arg ∈ args, arg.facts.named = true)
    (hargs : ∀ arg ∈ args, arg.toNameTree.Regular) (h : Formed facts args) :
    (TypeFacts.mk facts args note).toNameTree.Regular := by
  have hregular : ∀ t ∈ args.map toNameTree, t.Regular := by
    intro t ht
    obtain ⟨arg, hmem, rfl⟩ := List.mem_map.mp ht
    exact hargs arg hmem
  rw [toNameTree, namedTrees_of_named hnamed]
  rw [Formed] at h
  split at h
  · next hnullable =>
      rw [if_pos hnullable]
      obtain ⟨arg, others, rfl⟩ := List.exists_cons_of_ne_nil h.1
      have hfits : NameTree.Fits facts.qualified [arg.toNameTree] .nullableValue :=
        ⟨by simp, ShortName.qualified_marked h.2⟩
      refine (NameTree.regular_make hfits fun t ht => ?_).markDropped _
      exact hregular t (List.mem_cons.mpr (Or.inl (List.mem_singleton.mp ht)))
  · next hnullable =>
      rw [if_neg hnullable]
      split at h
      · next htuple =>
          rw [if_pos htuple]
          split
          · have hne := elementTrees_ne_nil h.2 h.1
            exact NameTree.regular_make hne (regular_elementTrees facts.labels hargs)
          · have hfits : NameTree.Fits facts.qualified (args.map toNameTree) .tuple := by
              simpa [NameTree.Fits] using h.1
            exact (NameTree.regular_make hfits hregular).markDropped _
      · next htuple =>
          rw [if_neg htuple]
          split
          · next hempty =>
              have hempty := List.isEmpty_iff.mp hempty
              have hfits : NameTree.Fits facts.qualified [] (.plain facts.annotated) :=
                ⟨rfl, ShortName.qualified_avoids (by decide) (h hempty)⟩
              exact NameTree.regular_make hfits (by simp)
          · next hempty =>
              have hfits : NameTree.Fits facts.qualified (args.map toNameTree)
                  (.generic facts.annotated) := by
                simpa [NameTree.Fits] using hempty
              exact (NameTree.regular_make hfits hregular).markDropped _

theorem Settled.regular {type : TypeFacts α} (h : type.Settled) : type.toNameTree.Regular := by
  induction h with
  | @mk facts args note hown hargs ih =>
      exact regular_of_formed note (fun arg hmem => Settled.named (hargs arg hmem)) ih hown.2

end TypeFacts

/-! ## Types that are read -/

namespace Signature

open Text (lastPart)

theorem settled_nominal (name : String) {qualified : String} (value : Bool)
    {args : List (TypeFacts Unit)} (h : '?' ∉ qualified.toList)
    (hargs : ∀ arg ∈ args, arg.Settled) : (nominal name qualified value args).Settled :=
  .mk ⟨rfl, fun _ => h⟩ hargs

theorem settled_nullable {inner : TypeFacts Unit} (h : inner.Settled) :
    (nullable inner).Settled := by
  refine .mk ⟨rfl, by simp, by simp⟩ fun arg hmem => ?_
  obtain rfl := List.mem_singleton.mp hmem
  exact h

theorem settled_labelledTuple {labels : List String} {elements : List (TypeFacts Unit)}
    (hne : elements ≠ []) (hlength : labels.length = elements.length)
    (helements : ∀ element ∈ elements, element.Settled) :
    (labelledTuple labels elements).Settled :=
  .mk ⟨rfl, hne, hlength⟩ helements

theorem settled_denoteMark {type : TypeFacts Unit} (h : type.Settled) :
    (denoteMark type).Settled := by
  unfold denoteMark
  split
  · exact settled_nullable h
  · next hvalue =>
      cases h with
      | mk hown hargs =>
          exact .mk ⟨hown.1, hown.2.annotate (Bool.eq_false_iff.mpr hvalue)⟩ hargs

theorem settled_denotePath {context : Context} (hparams : context.typeParams = [])
    {path : String} (hpath : '?' ∉ path.toList) {args : List (TypeFacts Unit)}
    (hargs : ∀ arg ∈ args, arg.Settled) : (denotePath context path args).Settled := by
  unfold denotePath
  rw [if_neg (by simp [hparams])]
  split
  · next type htype =>
      have hname := ShortName.builtIn_unmarked type (List.mem_of_find?_eq_some htype)
      exact settled_nominal _ _ (by simp [hname]) (by simp)
  · next inner _ =>
      split
      · exact settled_nullable (hargs inner List.mem_cons_self)
      · exact settled_nominal _ _ hpath hargs
  · exact settled_nominal _ _ hpath hargs

theorem Identifier.avoids {cs : List Char} (h : Identifier cs) {c : Char}
    (hc : isIdentRest c = false) : c ∉ cs := by
  obtain ⟨first, rest, rfl, hfirst, hrest⟩ := h
  intro hmem
  have hgoes : isIdentRest c = true := by
    rcases List.mem_cons.mp hmem with rfl | hmem
    · exact isIdentRest_of_start hfirst
    · exact hrest c hmem
  rw [hgoes] at hc
  cases hc

theorem IsPath.avoids {cs : List Char} (h : IsPath cs) {c : Char} (hc : isIdentRest c = false)
    (hdot : c ≠ '.') : c ∉ cs := by
  induction h with
  | ident h => exact h.avoids hc
  | dotted h _ ih => simp [h.avoids hc, ih, hdot]

/-- What a derivable type denotes is settled, without type parameters. -/
theorem kept_settled {context : Context} (hparams : context.typeParams = []) :
    Kept context (fun name => IsPath name.toList) TypeFacts.Settled where
  path hpath hargs := settled_denotePath hparams (hpath.avoids rfl (by decide)) hargs
  mark htype := settled_denoteMark htype
  tuple hne htypes _ :=
    settled_labelledTuple (by simpa using hne) (by simp) (List.forall_mem_map.mpr htypes)

/-- A property that each way of denoting keeps holds of a type that is read. -/
theorem Kept.read {context : Context} {Name : String → Prop} {P : TypeFacts Unit → Prop}
    (hkept : Kept context Name P) {source : String} {signature : Signature}
    (h : Signature.read context source = .ok signature)
    (hname : ∀ {lexemes : List Lexeme}, Cut source.toList lexemes → Called Name lexemes) :
    P signature.bare := by
  obtain ⟨-, lexemes, written, hcut, hderives, -, htype⟩ := denotes_of_read h
  rw [htype]
  exact hkept.denote hderives (hname hcut)

theorem Cut.called_isPath {text : List Char} {lexemes : List Lexeme} (h : Cut text lexemes) :
    Called (fun name => IsPath name.toList) lexemes :=
  fun _ hmem => h.isPath hmem

theorem regular_of_read {context : Context} (hparams : context.typeParams = [])
    {source : String} {signature : Signature} (h : read context source = .ok signature) :
    signature.toNameTree.Regular := by
  rw [← TypeFacts.toNameTree_bare]
  exact ((kept_settled hparams).read h Cut.called_isPath).regular

/-- The trees of two types that are read without type parameters are equal exactly when
they agree node by node. -/
theorem beq_iff_alike_of_read {context : Context} (hparams : context.typeParams = [])
    {source source' : String} {signature signature' : Signature}
    (h : read context source = .ok signature) (h' : read context source' = .ok signature') :
    (signature.toNameTree == signature'.toNameTree) = true ↔
      signature.toNameTree.Alike signature'.toNameTree :=
  NameTree.same_iff_alike (regular_of_read hparams h) (regular_of_read hparams h')

/-- A keyword or its name in `System`, the namespace, the labels and the `?` of a type with
arguments make no difference; the `?` of a reference without arguments makes one, in the
elements of a tuple too. -/
theorem beq_iff_alike_of_read_nested :
    let source := "Map<System.Collections.Generic.List<int>?, (int? Count, string? Name)>"
    let respelled := "Map<List<System.Int32>, (System.Nullable<System.Int32>, System.String ?)>"
    let unmarked := "Map<List<int>, (int?, string)>"
    ∃ signature signature' signature'', read {} source = .ok signature ∧
      read {} respelled = .ok signature' ∧ read {} unmarked = .ok signature'' ∧
      signature.toNameTree.Alike signature'.toNameTree ∧
      ¬ signature.toNameTree.Alike signature''.toNameTree := by
  intro source respelled unmarked
  have hreads : readsAs {} source (fun signature =>
      readsAs {} respelled (fun signature' => signature.toNameTree == signature'.toNameTree)
        && readsAs {} unmarked (fun signature' =>
          signature.toNameTree != signature'.toNameTree)) = true := by
    decide +kernel
  obtain ⟨signature, hread, hothers⟩ := exists_of_readsAs hreads
  obtain ⟨hrespelled, hunmarked⟩ := Bool.and_eq_true_iff.mp hothers
  obtain ⟨signature', hread', hsame⟩ := exists_of_readsAs hrespelled
  obtain ⟨signature'', hread'', hother⟩ := exists_of_readsAs hunmarked
  refine ⟨signature, signature', signature'', hread, hread', hread'', ?_, fun halike => ?_⟩
  · exact (beq_iff_alike_of_read rfl hread hread').mp hsame
  · have hequal := (beq_iff_alike_of_read rfl hread hread'').mpr halike
    rw [bne, hequal] at hother
    cases hother

end Signature

end TypeNaming
