/-
# What equal unions share

A union whose alternatives are equal to those of an earlier one is not generated again.
What was generated for the earlier one then serves it: the members have the same names,
the same alternatives collide, and the declarations agree once their labels are dropped.

The namespaces to import are another matter.  Equality looks at the declared names only,
so `List` and `System.Collections.Generic.List` are one type to it, and their namespaces
are not.  What can be said is where the two lists of namespaces drift apart: go through
the nodes of both lists of trees in order; two nodes at one position are both tuples, which
have no namespace, or they have the same `declaredName` (`sameNames_of_same`).  So the
namespaces can differ only where that name leaves out two different ones.

Open type parameters are allowed here: their nodes are left out of some trees, and a type
can lose all its arguments that way, so the trees need not be `Regular`.  `Titled` is the
part of that condition which is left.
-/
import TypeNaming.Proofs.Identity.Parsed
import TypeNaming.UnionType

namespace TypeNaming

/-! ## Sorted lists of names -/

namespace Text.Sorted

/-- A sorted list is known by the names that are in it. -/
theorem eq_of_mem_iff {names others : List String} (h : names.Pairwise (· < ·))
    (h' : others.Pairwise (· < ·)) (hmem : ∀ name, name ∈ names ↔ name ∈ others) :
    names = others := by
  have hperm : names.Perm others :=
    (List.perm_ext_iff_of_nodup (h.imp String.ne_of_lt) (h'.imp String.ne_of_lt)).mpr hmem
  refine hperm.eq_of_pairwise ?_ h h'
  intro a b _ _ hlt hgt
  exact absurd (String.lt_trans hlt hgt) (String.lt_irrefl a)

end Text.Sorted

namespace NameTree

/-! ## The nodes of a tree -/

mutual

/-- The nodes of the tree, each with what is below it: a node before its children. -/
def nodes : NameTree → List NameTree
  | .node info children => .node info children :: nodesOf children

/-- The nodes of a list of trees. -/
def nodesOf : List NameTree → List NameTree
  | [] => []
  | t :: ts => nodes t ++ nodesOf ts

end

theorem nodesOf_eq_flatMap (ts : List NameTree) : nodesOf ts = ts.flatMap nodes := by
  induction ts with
  | nil => rfl
  | cons t ts ih => simp [nodesOf, ih]

/-- The namespace that the declaration of the node leaves out. -/
def ownNamespace? (t : NameTree) : Option String :=
  droppedNamespace? t.qualified

mutual

theorem allNamespaces_eq_flatMap : ∀ t : NameTree,
    t.allNamespaces = t.nodes.flatMap fun node => node.ownNamespace?.toList
  | .node info children => by
      rw [allNamespaces, nodes, List.flatMap_cons, allNamespacesOf_eq_nodes]
      rfl

theorem allNamespacesOf_eq_nodes : ∀ ts : List NameTree,
    allNamespacesOf ts = (nodesOf ts).flatMap fun node => node.ownNamespace?.toList
  | [] => rfl
  | t :: ts => by
      rw [allNamespacesOf, nodesOf, List.flatMap_append, allNamespaces_eq_flatMap t,
        allNamespacesOf_eq_nodes ts]

end

/-! ## Names that go with the kind -/

/-- The name goes with the kind: that of a tuple stands in parentheses, that of a nullable
value ends in `?`, and any other has neither of these characters. -/
def TitledAs (name : List Char) : Kind → Prop
  | .plain _ => '?' ∉ name ∧ ')' ∉ name
  | .generic _ => '?' ∉ name ∧ ')' ∉ name
  | .tuple => name.head? = some '(' ∧ name.getLast? = some ')'
  | .nullableValue => name.getLast? = some '?'

/-- The name of the node goes with its kind, and a type without arguments has none. -/
def Titled (info : NodeInfo) (children : List NameTree) : Prop :=
  TitledAs info.qualified.toList info.kind ∧ ∀ nullable, info.kind = .plain nullable → children = []

theorem Titled.fits {info : NodeInfo} {children : List NameTree} (h : Titled info children)
    (hne : children ≠ []) : Fits info.qualified children info.kind := by
  obtain ⟨hname, hplain⟩ := h
  cases hkind : info.kind with
  | plain nullable => exact absurd (hplain nullable hkind) hne
  | generic nullable => exact hne
  | tuple => exact hne
  | nullableValue =>
      rw [hkind] at hname
      exact ⟨hne, ShortName.qualified_marked hname⟩

/-! ## The name in a declaration -/

/-- The text without the `?` at its end. -/
def unmark (text : List Char) : List Char :=
  if text.getLast? = some '?' then text.dropLast else text

@[simp] theorem unmark_snoc (text : List Char) : unmark (text ++ ['?']) = text := by
  simp [unmark]

theorem unmark_of_not_mem {text : List Char} (h : '?' ∉ text) : unmark text = text :=
  if_neg fun hlast => h (List.mem_of_getLast? hlast)

/-- The name that the node is declared by: the short form, and not the `?` that a nullable
value has at its end. -/
def declaredName (t : NameTree) : String :=
  String.ofList (unmark (ShortName.qualified t.qualified).toList)

/-- Nodes that are declared by one name, or tuples, which have none. -/
def SameName (t u : NameTree) : Prop :=
  t.kind = .tuple ∧ u.kind = .tuple ∨ t.declaredName = u.declaredName

theorem qualified_of_paren {name : String} (h : name.toList.head? = some '(') :
    ShortName.qualified name = name := by
  unfold ShortName.qualified
  split
  · next rest hrest =>
      obtain rfl := Text.after?_eq_some_iff.mp hrest
      simp [ShortName.rootLead] at h
  · rfl

/-- The declaration of a node without children is its name, marked or not; only that of a
tuple ends in a parenthesis. -/
theorem childless_declaration {info : NodeInfo} (h : TitledAs info.qualified.toList info.kind) :
    info.kind = .tuple ∧ (unlabelled (.node info [])).toList.getLast? = some ')' ∨
      (unlabelled (.node info [])).toList.getLast? ≠ some ')' ∧
        declaredName (.node info []) = String.ofList (unmark (unlabelled (.node info [])).toList) := by
  obtain ⟨name, qualified, kind, label, marks⟩ := info
  rw [unlabelled_node]
  cases kind with
  | tuple =>
      refine Or.inl ⟨rfl, ?_⟩
      show (ShortName.qualified qualified).toList.getLast? = _
      rw [qualified_of_paren h.1]
      exact h.2
  | nullableValue =>
      have hlast : (ShortName.qualified qualified).toList.getLast? = some '?' :=
        ShortName.qualified_marked h
      refine Or.inr ⟨?_, rfl⟩
      show (ShortName.qualified qualified).toList.getLast? ≠ _
      simp [hlast]
  | plain nullable => exact Or.inr (bare_declaration h.1 h.2 nullable)
  | generic nullable => exact Or.inr (bare_declaration h.1 h.2 nullable)
where
  bare_declaration {qualified : String} (hmark : '?' ∉ qualified.toList)
      (hparen : ')' ∉ qualified.toList) (nullable : Bool) :
      let short := ShortName.qualified qualified
      let shown := if nullable then short ++ "?" else short
      shown.toList.getLast? ≠ some ')' ∧
        String.ofList (unmark short.toList) = String.ofList (unmark shown.toList) := by
    intro short shown
    have hmark : '?' ∉ short.toList := ShortName.qualified_avoids (by decide) hmark
    have hparen : ')' ∉ short.toList := ShortName.qualified_avoids (by decide) hparen
    cases nullable with
    | false => exact ⟨fun hlast => hparen (List.mem_of_getLast? hlast), rfl⟩
    | true =>
        have hshown : shown.toList = short.toList ++ ['?'] := by simp [shown]
        rw [hshown, unmark_snoc, unmark_of_not_mem hmark]
        exact ⟨by simp, rfl⟩

/-! ## Equal trees, node by node -/

theorem sameName_of_same {info info' : NodeInfo} {children children' : List NameTree}
    (h : Titled info children) (h' : Titled info' children')
    (hsame : (NameTree.node info children).same (.node info' children') = true) :
    SameName (.node info children) (.node info' children') := by
  obtain ⟨hreadable, hunlabelled, hall⟩ := same_iff.mp hsame
  rw [children_node, children_node, sameAll_iff_map_skeleton] at hall
  by_cases hne : children = []
  · obtain rfl := hne
    obtain rfl : children' = [] := by simpa using (map_unlabelled_of_skeleton hall).symm
    rcases childless_declaration h.1 with ⟨htuple, hparen⟩ | ⟨hparen, hname⟩
    · rcases childless_declaration h'.1 with ⟨htuple', -⟩ | ⟨hparen', -⟩
      · exact Or.inl ⟨htuple, htuple'⟩
      · rw [← hunlabelled] at hparen'
        exact absurd hparen hparen'
    · rcases childless_declaration h'.1 with ⟨-, hparen'⟩ | ⟨-, hname'⟩
      · rw [← hunlabelled] at hparen'
        exact absurd hparen' hparen
      · refine Or.inr ?_
        rw [hname, hname', hunlabelled]
  · have hne' : children' ≠ [] := by
      rintro rfl
      exact hne (by simpa using map_unlabelled_of_skeleton hall)
    have halike := (branch_texts_iff (h.fits hne) (h'.fits hne') hne
      (map_readable_of_skeleton hall) (map_unlabelled_of_skeleton hall)).mp
      ⟨hreadable, hunlabelled⟩
    by_cases htuple : info.kind = .tuple
    · exact Or.inl ⟨htuple, halike.sort.tuple.mp htuple⟩
    · have hshort := halike.short htuple
      refine Or.inr ?_
      show String.ofList (unmark (ShortName.qualified info.qualified).toList) = _
      rw [hshort]
      rfl

mutual

/-- Equal trees have the same names, node by node. -/
theorem sameNames_of_same : ∀ {t u : NameTree}, t.Everywhere Titled → u.Everywhere Titled →
    t.same u = true → List.Forall₂ SameName t.nodes u.nodes
  | .node info children, .node info' children', .node h hchildren, .node h' hchildren', hsame => by
      rw [nodes, nodes]
      exact .cons (sameName_of_same h h' hsame)
        (sameNamesOf_of_sameAll hchildren hchildren' (same_iff.mp hsame).2.2)

theorem sameNamesOf_of_sameAll : ∀ {ts us : List NameTree}, (∀ t ∈ ts, t.Everywhere Titled) →
    (∀ u ∈ us, u.Everywhere Titled) → sameAll ts us = true →
      List.Forall₂ SameName (nodesOf ts) (nodesOf us)
  | [], [], _, _, _ => .nil
  | [], u :: us, _, _, h => by simp [sameAll] at h
  | t :: ts, [], _, _, h => by simp [sameAll] at h
  | t :: ts, u :: us, ht, hu, h => by
      rw [sameAll, Bool.and_eq_true] at h
      obtain ⟨htitled, htitleds⟩ := List.forall_mem_cons.mp ht
      obtain ⟨htitled', htitleds'⟩ := List.forall_mem_cons.mp hu
      rw [nodesOf, nodesOf]
      exact List.rel_append (sameNames_of_same htitled htitled' h.1)
        (sameNamesOf_of_sameAll htitleds htitleds' h.2)

end

end NameTree

/-! ## The trees of types that are read -/

namespace Signature

/-- The qualified name goes with what else is known of the type. -/
def TitledFacts (facts : Facts) : Prop :=
  let name := facts.qualified.toList
  if facts.annotated && facts.value then name.getLast? = some '?'
  else if facts.tuple then name.head? = some '(' ∧ name.getLast? = some ')'
  else '?' ∉ name ∧ ')' ∉ name

theorem TitledFacts.kindOf {facts : Facts} (h : TitledFacts facts)
    (args : List (TypeFacts Unit)) :
    NameTree.TitledAs facts.qualified.toList (TypeFacts.kindOf facts args) := by
  unfold TitledFacts at h
  unfold TypeFacts.kindOf
  split
  · next hnullable =>
      rw [if_pos hnullable] at h
      exact h
  · next hnullable =>
      rw [if_neg hnullable] at h
      split
      · next htuple =>
          rw [if_pos htuple] at h
          exact h
      · next htuple =>
          rw [if_neg htuple] at h
          split <;> exact h

/-- The names of all parts of the type go with what else is known of them. -/
abbrev Entitled : TypeFacts Unit → Prop :=
  TypeFacts.Everywhere fun facts _ => TitledFacts facts

theorem TitledFacts.annotate {facts : Facts} (h : TitledFacts facts)
    (hvalue : facts.value = false) : TitledFacts { facts with annotated := true } := by
  simpa [TitledFacts, hvalue] using h

theorem entitled_unnamed {facts : Facts} {args : List (TypeFacts Unit)}
    (hannotated : facts.annotated = false) (htuple : facts.tuple = false)
    (h : '?' ∉ facts.qualified.toList ∧ ')' ∉ facts.qualified.toList)
    (hargs : ∀ arg ∈ args, Entitled arg) : Entitled (.mk facts args ()) :=
  .mk (by simpa [TitledFacts, hannotated, htuple] using h) hargs

theorem entitled_nullable {inner : TypeFacts Unit} (h : Entitled inner) :
    Entitled (nullable inner) := by
  refine .mk ?_ fun arg hmem => ?_
  · simp [TitledFacts]
  · obtain rfl := List.mem_singleton.mp hmem
    exact h

theorem entitled_denoteMark {type : TypeFacts Unit} (h : Entitled type) :
    Entitled (denoteMark type) := by
  unfold denoteMark
  split
  · exact entitled_nullable h
  · next hvalue =>
      cases h with
      | @mk facts args _ hown hargs =>
          exact .mk (hown.annotate (Bool.eq_false_iff.mpr hvalue)) hargs

theorem entitled_denotePath {context : Context} {path : String} (hpath : IsPath path.toList)
    {args : List (TypeFacts Unit)} (hargs : ∀ arg ∈ args, Entitled arg) :
    Entitled (denotePath context path args) := by
  have hbare : '?' ∉ path.toList ∧ ')' ∉ path.toList :=
    ⟨hpath.avoids rfl (by decide), hpath.avoids rfl (by decide)⟩
  unfold denotePath
  split
  · exact entitled_unnamed rfl rfl hbare (by simp)
  · split
    · next type htype =>
        have hname : ∀ type ∈ ShortName.builtIns, '?' ∉ ("System." ++ type.name).toList ∧
            ')' ∉ ("System." ++ type.name).toList := by decide
        exact entitled_unnamed rfl rfl (hname type (List.mem_of_find?_eq_some htype)) (by simp)
    · next inner _ =>
        split
        · exact entitled_nullable (hargs inner List.mem_cons_self)
        · exact entitled_unnamed rfl rfl hbare hargs
    · exact entitled_unnamed rfl rfl hbare hargs

theorem entitled_labelledTuple {labels : List String} {elements : List (TypeFacts Unit)}
    (h : ∀ element ∈ elements, Entitled element) : Entitled (labelledTuple labels elements) := by
  refine .mk ⟨by simp, ?_⟩ h
  simp only [String.toList_append]
  exact List.getLast?_concat

theorem kept_entitled (context : Context) :
    Kept context (fun name => IsPath name.toList) Entitled where
  path hpath hargs := entitled_denotePath hpath hargs
  mark htype := entitled_denoteMark htype
  tuple _ htypes _ := entitled_labelledTuple (List.forall_mem_map.mpr htypes)

theorem titled_of_entitled {type : TypeFacts Unit} (h : Entitled type) :
    type.toNameTree.Everywhere NameTree.Titled := by
  refine h.toNameTree ?_ ?_
  · intro facts args marks children hown hchildren
    refine ⟨hown.kindOf args, fun nullable hkind => ?_⟩
    have hargs : args = [] := by
      unfold TypeFacts.kindOf at hkind
      repeat' split at hkind
      all_goals simp_all
    obtain rfl := hargs
    refine List.eq_nil_iff_forall_not_mem.mpr fun t ht => ?_
    obtain ⟨arg, hmem, -⟩ := hchildren t ht
    cases hmem
  · intro facts args label info children _ _ hinfo
    exact hinfo

theorem titled_of_read {context : Context} {source : String} {signature : Signature}
    (h : read context source = .ok signature) :
    ∀ arg ∈ signature.args, arg.toNameTree.Everywhere NameTree.Titled := by
  have hentitled := (kept_entitled context).read h Cut.called_isPath
  intro arg hmem
  rw [← TypeFacts.toNameTree_bare]
  exact titled_of_entitled (hentitled.args arg hmem)

end Signature

/-! ## Unions that are read -/

namespace Alternatives

/-- The nodes of all alternatives, in order. -/
def nodes (a : Alternatives) : List NameTree :=
  NameTree.nodesOf a.toList

theorem mem_namespaces {a : Alternatives} {name : String} :
    name ∈ a.namespaces ↔ some name ∈ a.nodes.map NameTree.ownNamespace? := by
  simp only [namespaces, nodes, NameTree.nodesOf_eq_flatMap, NameTree.namespaces,
    Text.Sorted.mem_ofList, NameTree.allNamespaces_eq_flatMap, List.mem_flatMap,
    Option.mem_toList, List.mem_map]
  constructor
  · rintro ⟨t, ht, node, hnode, hname⟩
    exact ⟨node, ⟨t, ht, hnode⟩, hname⟩
  · rintro ⟨node, ⟨t, ht, hnode⟩, hname⟩
    exact ⟨t, ht, node, hnode, hname⟩

theorem pairwise_namespaces (a : Alternatives) : a.namespaces.Pairwise (· < ·) :=
  Text.Sorted.pairwise_ofList _

/-- The members are made from the readable names alone, their declarations apart. -/
theorem map_members (a : Alternatives) :
    a.members.map (fun member => (member.accessor, member.index, member.name)) =
      (a.toList.map NameTree.readable).zipIdx.flatMap fun (name, index) =>
        Accessor.all.map fun accessor => (accessor, index, accessor.lead ++ name) := by
  rw [members, List.map_flatMap, List.zipIdx_map, List.flatMap_map]
  rfl

end Alternatives

namespace UnionType

theorem read_eq_ok {context : Context} {source : String} {u : UnionType}
    (h : read context source = .ok u) : Signature.read context source = .ok u.signature ∧
      Alternatives.ofUnion? context.unionName u.signature = some u.alternatives := by
  unfold read at h
  split at h
  · cases h
  · next type htype =>
      split at h
      · next alternatives halternatives =>
          obtain rfl := Except.ok.inj h
          exact ⟨htype, halternatives⟩
      · cases h

/-- The alternatives are the trees of the arguments. -/
theorem alternatives_of_read {context : Context} {source : String} {u : UnionType}
    (h : read context source = .ok u) :
    u.alternatives.toList = u.signature.args.map TypeFacts.toNameTree := by
  obtain ⟨-, hunion⟩ := read_eq_ok h
  unfold Alternatives.ofUnion? at hunion
  split at hunion
  · rw [← Option.some.inj hunion]
  · cases hunion

theorem titled_of_read {context : Context} {source : String} {u : UnionType}
    (h : read context source = .ok u) :
    ∀ t ∈ u.alternatives.toList, t.Everywhere NameTree.Titled := by
  rw [alternatives_of_read h]
  exact List.forall_mem_map.mpr (Signature.titled_of_read (read_eq_ok h).1)

/-- Of two unions with equal alternatives, what is generated for one serves the other: the
members have the same names, the same alternatives collide, and the declarations are the
same without labels.  Their nodes have the same names, one by one; when the same namespace
stands before each of these, the namespaces to import are the same, too. -/
theorem reuse_of_beq {context : Context} {source source' : String} {u v : UnionType}
    (h : read context source = .ok u) (h' : read context source' = .ok v)
    (heq : (u.alternatives == v.alternatives) = true) :
    u.alternatives.members.map (fun member => (member.accessor, member.index, member.name)) =
        v.alternatives.members.map (fun member => (member.accessor, member.index, member.name)) ∧
      u.alternatives.collisions = v.alternatives.collisions ∧
      u.alternatives.toList.map NameTree.unlabelled =
        v.alternatives.toList.map NameTree.unlabelled ∧
      List.Forall₂ NameTree.SameName u.alternatives.nodes v.alternatives.nodes ∧
      (u.alternatives.nodes.map NameTree.ownNamespace? =
          v.alternatives.nodes.map NameTree.ownNamespace? →
        u.alternatives.namespaces = v.alternatives.namespaces) := by
  have hskeletons := Alternatives.beq_iff_skeletons.mp heq
  have hreadables := NameTree.map_readable_of_skeleton hskeletons
  refine ⟨?_, ?_, NameTree.map_unlabelled_of_skeleton hskeletons, ?_, fun hnamespaces => ?_⟩
  · rw [Alternatives.map_members, Alternatives.map_members, hreadables]
  · simp only [Alternatives.collisions, hreadables]
  · exact NameTree.sameNamesOf_of_sameAll (titled_of_read h) (titled_of_read h') heq
  · refine Text.Sorted.eq_of_mem_iff (Alternatives.pairwise_namespaces _)
      (Alternatives.pairwise_namespaces _) fun name => ?_
    rw [Alternatives.mem_namespaces, Alternatives.mem_namespaces, hnamespaces]

/-- Whether the texts are read as two unions that pass the test. -/
def readBoth (source source' : String) (test : UnionType → UnionType → Bool) : Bool :=
  match read {} source, read {} source' with
  | .ok u, .ok v => test u v
  | _, _ => false

theorem exists_of_readBoth (source source' : String) (test : UnionType → UnionType → Bool)
    (h : readBoth source source' test = true) :
    ∃ u v, read {} source = .ok u ∧ read {} source' = .ok v ∧ test u v = true := by
  unfold readBoth at h
  split at h
  · next u v hu hv => exact ⟨u, v, hu, hv, h⟩
  · cases h

/-- A keyword and its type in `System`, and labels, make no other union; the collection has
its namespace in both. -/
theorem reuse_of_beq_labels :
    ∃ u v, read {} "OneOf<System.Collections.Generic.List<int>, (A, B)>" = .ok u ∧
      read {} "OneOf<System.Collections.Generic.List<System.Int32>, (A X, B Y)>" = .ok v ∧
      u.alternatives.toList.map NameTree.unlabelled =
        v.alternatives.toList.map NameTree.unlabelled ∧
      u.alternatives.namespaces = v.alternatives.namespaces := by
  obtain ⟨u, v, hu, hv, h⟩ := exists_of_readBoth
    "OneOf<System.Collections.Generic.List<int>, (A, B)>"
    "OneOf<System.Collections.Generic.List<System.Int32>, (A X, B Y)>"
    (fun u v => u.alternatives == v.alternatives
      && decide (u.alternatives.nodes.map NameTree.ownNamespace? =
        v.alternatives.nodes.map NameTree.ownNamespace?))
    (by decide +kernel)
  rw [Bool.and_eq_true, decide_eq_true_eq] at h
  obtain ⟨-, -, hdeclarations, -, hnamespaces⟩ := reuse_of_beq hu hv h.1
  exact ⟨u, v, hu, hv, hdeclarations, hnamespaces h.2⟩

/-- A list that names its namespace and one that does not are equal, and they do not have
the same namespaces to import. -/
theorem namespaces_not_shared :
    ∃ u v, read {} "OneOf<List<int>>" = .ok u ∧
      read {} "OneOf<System.Collections.Generic.List<int>>" = .ok v ∧
      (u.alternatives == v.alternatives) = true ∧
      u.alternatives.namespaces = [] ∧
      v.alternatives.namespaces = ["System.Collections.Generic"] := by
  obtain ⟨u, v, hu, hv, h⟩ := exists_of_readBoth
    "OneOf<List<int>>" "OneOf<System.Collections.Generic.List<int>>"
    (fun u v => u.alternatives == v.alternatives
      && decide (u.alternatives.namespaces = [])
      && decide (v.alternatives.namespaces = ["System.Collections.Generic"]))
    (by decide +kernel)
  simp only [Bool.and_eq_true, decide_eq_true_eq] at h
  exact ⟨u, v, hu, hv, h.1.1, h.1.2, h.2⟩

end UnionType

end TypeNaming
