/-
# A declaration is a normal form

What was read can be read again from its declaration, and is declared the same way then
(`read_declaration`).  The tree that the declaration writes stands for itself by
`readable_declared`; what is left is to see that its conditions hold of a type that was
read, and that its text is within the limit on brackets:

  * a declaration opens no more brackets than the text it came from: short forms and `?`
    open none, and a nullable value leaves out the arguments of the type under it
    (`nesting_declared_denote`);
  * the elements of a tuple are counted by a word, since the text is;
  * what is asked of the short forms is asked of the nodes of the name tree, and every part
    of the type is one of them (`declarable_of_nodes`).

The limit on the length of the text is that of every text a machine holds.  Beyond it a
label that names a position need not fit a word, and is taken for one that does not.
-/
import TypeNaming.Proofs.Grammar.Marked
import TypeNaming.Proofs.Identity.Reuse
import TypeNaming.Proofs.RoundTrip.Redeclared

namespace TypeNaming

namespace TypeFacts

/-! ## The nesting of a type -/

mutual

/-- The most brackets that are open at once where the type is written with all its
arguments. -/
def nesting : TypeFacts Unit → Nat
  | .mk facts args _ =>
    if facts.annotated && facts.value then nestings args
    else if args.isEmpty then 0
    else nestings args + 1

/-- The most that are open at once in any of the types. -/
def nestings : List (TypeFacts Unit) → Nat
  | [] => 0
  | type :: types => max type.nesting (nestings types)

end

theorem nestings_le_iff {types : List (TypeFacts Unit)} {bound : Nat} :
    nestings types ≤ bound ↔ ∀ type ∈ types, type.nesting ≤ bound := by
  induction types with
  | nil => simp [nestings]
  | cons type types ih => rw [nestings, Nat.max_le, ih, List.forall_mem_cons]

theorem nesting_le_nestings {types : List (TypeFacts Unit)} {type : TypeFacts Unit}
    (h : type ∈ types) : type.nesting ≤ nestings types :=
  nestings_le_iff.mp (Nat.le_refl _) type h

end TypeFacts

namespace Signature

theorem nesting_nullable (inner : TypeFacts Unit) : (nullable inner).nesting = inner.nesting := by
  simp [nullable, TypeFacts.nesting, TypeFacts.nestings]

theorem nesting_labelledTuple (labels : List String) {types : List (TypeFacts Unit)}
    (h : types ≠ []) : (labelledTuple labels types).nesting = TypeFacts.nestings types + 1 := by
  simp [labelledTuple, TypeFacts.nesting, h]

theorem nesting_own {path : String} {args : List (TypeFacts Unit)} {annotated : Bool}
    (hvalue : annotated = true → namesValue {} path = false) (hne : args ≠ []) :
    (TypeFacts.mk (ownFacts path annotated) args ()).nesting = TypeFacts.nestings args + 1 := by
  cases annotated <;> simp_all [ownFacts, TypeFacts.nesting]

/-! ## How deep a declaration is -/

theorem nesting_qualifiedForm {type : TypeFacts Unit} (h : Lawful type) :
    (qualifiedForm type).nesting ≤ type.nesting := by
  induction h with
  | named _ _ _ hvalue _ _ =>
      rw [qualifiedForm_own hvalue]
      exact Nat.zero_le _
  | nullable _ _ _ ih =>
      rw [qualifiedForm_nullable, Written.nesting_withMark, nesting_nullable]
      exact ih
  | tuple htwo _ _ _ _ ih =>
      have hne := List.ne_nil_of_length_pos (Nat.lt_of_lt_of_le Nat.zero_lt_two htwo)
      rw [qualifiedForm_tuple, nesting_labelledTuple _ hne, Written.nesting]
      refine Nat.succ_le_succ (WrittenElement.nestings_le_iff.mpr ?_)
      exact List.forall_mem_map.mpr fun type hmem =>
        Nat.le_trans (ih type hmem) (TypeFacts.nesting_le_nestings hmem)

theorem nesting_nullableForm {inner : TypeFacts Unit} (h : Lawful inner) :
    (nullableForm inner).nesting ≤ inner.nesting := by
  unfold nullableForm
  split
  · rw [Written.nesting_withMark]
    exact nesting_qualifiedForm h
  · exact Nat.zero_le _

theorem nesting_declared {type : TypeFacts Unit} (h : Lawful type) :
    (declared type).nesting ≤ type.nesting := by
  induction h with
  | @named path args annotated _ _ _ hvalue _ ih =>
      rw [declared_own hvalue]
      cases args with
      | nil => exact Nat.zero_le _
      | cons arg args =>
          rw [nesting_own hvalue (List.cons_ne_nil arg args), List.map_cons, Written.nesting]
          have hargs : ∀ type ∈ (arg :: args).map declared,
              type.nesting ≤ TypeFacts.nestings (arg :: args) :=
            List.forall_mem_map.mpr fun type hmem =>
              Nat.le_trans (ih type hmem) (TypeFacts.nesting_le_nestings hmem)
          exact Nat.succ_le_succ (Written.nestings_le_iff.mpr hargs)
  | nullable _ _ hinner _ =>
      rw [declared_nullable, nesting_nullable]
      exact nesting_nullableForm hinner
  | @tuple elements types htwo hlength _ _ _ ih =>
      have hne := List.ne_nil_of_length_pos (Nat.lt_of_lt_of_le Nat.zero_lt_two htwo)
      have hlabels : (labelsOf elements).length = types.length := by rw [length_labelsOf, hlength]
      rw [declared_tuple, nesting_labelledTuple _ hne, Written.nesting]
      refine Nat.succ_le_succ (WrittenElement.nestings_le_iff.mpr fun element hmem => ?_)
      obtain ⟨type, hmem, heq⟩ := mem_shownElements hlabels hmem
      rw [heq]
      exact Nat.le_trans (ih type hmem) (TypeFacts.nesting_le_nestings hmem)

theorem nesting_denotePath (path : String) (args : List (TypeFacts Unit)) :
    (denotePath {} path args).nesting
      ≤ if args.isEmpty then 0 else TypeFacts.nestings args + 1 := by
  unfold denotePath
  rw [if_neg List.not_mem_nil]
  split
  · exact Nat.zero_le _
  · next inner _ =>
      split
      -- The wrapper is written with brackets, and the `?` that it becomes has none.
      · rw [nesting_nullable]
        exact Nat.le_succ_of_le (TypeFacts.nesting_le_nestings List.mem_cons_self)
      · exact Nat.le_refl _
  · exact Nat.le_refl _

theorem nesting_denoteMark (type : TypeFacts Unit) : (denoteMark type).nesting = type.nesting := by
  obtain ⟨facts, args, -⟩ := type
  unfold denoteMark
  split
  · exact nesting_nullable _
  · next hvalue =>
      have hvalue : facts.value = false := Bool.eq_false_iff.mpr hvalue
      simp [TypeFacts.facts, TypeFacts.args, TypeFacts.nesting, hvalue]

theorem nesting_marked (marked : Bool) (type : TypeFacts Unit) :
    (if marked then denoteMark type else type).nesting = type.nesting := by
  cases marked with
  | false => rfl
  | true => exact nesting_denoteMark type

/-- What a tree denotes is no deeper than the tree. -/
theorem nesting_denote (type : Written) : (denote {} type).nesting ≤ type.nesting := by
  induction type using Written.induct with
  | named path args marked ih =>
      rw [denote, denoteAll_eq_map, nesting_marked]
      refine Nat.le_trans (nesting_denotePath path _) ?_
      cases args with
      | nil => exact Nat.zero_le _
      | cons arg args =>
          have hargs : ∀ type ∈ arg :: args, type.nesting ≤ Written.nestings (arg :: args) :=
            Written.nestings_le_iff.mp (Nat.le_refl _)
          refine Nat.succ_le_succ (TypeFacts.nestings_le_iff.mpr ?_)
          exact List.forall_mem_map.mpr fun type hmem =>
            Nat.le_trans (ih type hmem) (hargs type hmem)
  | tuple elements marked ih =>
      have helements : ∀ element ∈ elements,
          element.type.nesting ≤ WrittenElement.nestings elements :=
        WrittenElement.nestings_le_iff.mp (Nat.le_refl _)
      rw [denote, denoteElements_eq_map, nesting_marked]
      cases elements with
      | nil => exact Nat.zero_le _
      | cons element elements =>
          rw [nesting_labelledTuple _ (by simp), Written.nesting]
          refine Nat.succ_le_succ (TypeFacts.nestings_le_iff.mpr ?_)
          exact List.forall_mem_map.mpr fun element hmem =>
            Nat.le_trans (ih element hmem) (helements element hmem)

/-- The declaration of what a tree denotes is no deeper than the tree. -/
theorem nesting_declared_denote {type : Written} (h : Lawful (denote {} type)) :
    (declared (denote {} type)).nesting ≤ type.nesting :=
  Nat.le_trans (nesting_declared h) (nesting_denote type)

/-! ## How many elements a tuple has -/

theorem Cut.length_le {text : List Char} {row : List Lexeme} (h : Cut text row) :
    row.length ≤ text.length := by
  induction h with
  | done => exact Nat.le_refl _
  | blank _ _ ih => exact Nat.le_succ_of_le ih
  | mark _ _ ih => exact Nat.succ_le_succ ih
  | path hpath _ _ ih =>
      obtain ⟨c, cs, rfl, -, -⟩ := hpath.starts
      simp only [List.length_cons, List.length_append]
      omega

theorem Written.length_row_le_rows {types : List Written} {type : Written} (h : type ∈ types) :
    type.row.length ≤ (Written.rows types).length := by
  induction types with
  | nil => cases h
  | cons other types ih =>
      simp only [Written.rows, List.length_cons, List.length_append]
      rcases List.mem_cons.mp h with rfl | h
      · omega
      · have := ih h
        omega

theorem WrittenElement.length_row_le_rows {elements : List WrittenElement}
    {element : WrittenElement} (h : element ∈ elements) :
    element.type.row.length ≤ (WrittenElement.rows elements).length := by
  induction elements with
  | nil => cases h
  | cons other elements ih =>
      simp only [WrittenElement.rows, List.length_cons, List.length_append]
      rcases List.mem_cons.mp h with rfl | h
      · cases element
        simp only [WrittenElement.row, WrittenElement.type, List.length_append]
        omega
      · have := ih h
        omega

theorem WrittenElement.length_le_rows (elements : List WrittenElement) :
    elements.length ≤ (WrittenElement.rows elements).length := by
  induction elements with
  | nil => exact Nat.le_refl _
  | cons element elements ih =>
      simp only [WrittenElement.rows, List.length_cons, List.length_append]
      omega

theorem Written.length_rows_le_row {path : String} {args : List Written} {marked : Bool} :
    (Written.rows args).length ≤ (Written.named path args marked).row.length := by
  cases args with
  | nil => exact Nat.zero_le _
  | cons arg args =>
      simp only [Written.row, Written.rows, List.length_cons, List.length_append]
      omega

theorem Written.length_elementRows_le_row {elements : List WrittenElement} {marked : Bool} :
    (WrittenElement.rows elements).length ≤ (Written.tuple elements marked).row.length := by
  cases elements with
  | nil => exact Nat.zero_le _
  | cons element elements =>
      simp only [Written.row, WrittenElement.rows, List.length_cons, List.length_append]
      omega

/-- A tuple has fewer elements than the bound. -/
def Narrow (bound : Nat) (facts : Facts) (args : List (TypeFacts Unit)) : Prop :=
  facts.tuple = true → args.length < bound

theorem narrow_denotePath {bound : Nat} {path : String} {args : List (TypeFacts Unit)}
    (h : ∀ arg ∈ args, arg.Everywhere (Narrow bound)) :
    (denotePath {} path args).Everywhere (Narrow bound) := by
  have hnominal : ∀ name qualified value, ∀ types : List (TypeFacts Unit),
      (∀ type ∈ types, type.Everywhere (Narrow bound)) →
        (nominal name qualified value types).Everywhere (Narrow bound) := by
    intro name qualified value types htypes
    refine .mk (fun htuple => ?_) htypes
    cases htuple
  unfold denotePath
  rw [if_neg List.not_mem_nil]
  split
  · exact hnominal _ _ _ _ (List.forall_mem_nil _)
  · split
    · refine .mk (fun htuple => ?_) h
      cases htuple
    · exact hnominal _ _ _ _ h
  · exact hnominal _ _ _ _ h

theorem narrow_denoteMark {bound : Nat} {type : TypeFacts Unit}
    (h : type.Everywhere (Narrow bound)) : (denoteMark type).Everywhere (Narrow bound) := by
  unfold denoteMark
  split
  · refine .mk (fun htuple => ?_) (List.forall_mem_singleton.mpr h)
    cases htuple
  · cases h with
    | mk hown hargs => exact .mk hown hargs

/-- No tuple has more elements than the tree has lexemes. -/
theorem narrow_denote {bound : Nat} {type : Written} (h : type.row.length < bound) :
    (denote {} type).Everywhere (Narrow bound) := by
  induction type using Written.induct with
  | named path args marked ih =>
      have hargs : ∀ type ∈ args.map (denote {}), type.Everywhere (Narrow bound) :=
        List.forall_mem_map.mpr fun arg hmem => ih arg hmem <|
          Nat.lt_of_le_of_lt (Nat.le_trans (Written.length_row_le_rows hmem)
            Written.length_rows_le_row) h
      have hbase := @narrow_denotePath bound path _ hargs
      rw [denote, denoteAll_eq_map]
      cases marked with
      | false => exact hbase
      | true => exact narrow_denoteMark hbase
  | tuple elements marked ih =>
      have hrow := Nat.lt_of_le_of_lt Written.length_elementRows_le_row h
      have htypes : ∀ type ∈ elements.map (denote {} ·.type), type.Everywhere (Narrow bound) :=
        List.forall_mem_map.mpr fun element hmem => ih element hmem <|
          Nat.lt_of_le_of_lt (WrittenElement.length_row_le_rows hmem) hrow
      have hwidth : (elements.map (denote {} ·.type)).length < bound := by
        rw [List.length_map]
        exact Nat.lt_of_le_of_lt (WrittenElement.length_le_rows elements) hrow
      have hbase : (labelledTuple (labelsOf elements)
          (elements.map (denote {} ·.type))).Everywhere (Narrow bound) :=
        .mk (fun _ => hwidth) htypes
      rw [denote, denoteElements_eq_map]
      cases marked with
      | false => exact hbase
      | true => exact narrow_denoteMark hbase

end Signature

/-! ## What the nodes say -/

namespace NameTree

/-- The short form of the node means the node: it is not the wrapper, and no keyword with
type arguments. -/
def OwnShort (node : NameTree) : Prop :=
  ShortName.qualified node.qualified ≠ "Nullable" ∧
    (node.children ≠ [] → ShortName.ofKeyword? (ShortName.qualified node.qualified) = none)

instance (node : NameTree) : Decidable node.OwnShort :=
  inferInstanceAs (Decidable (_ ∧ _))

theorem mem_nodes_self (t : NameTree) : t ∈ t.nodes := by
  cases t
  exact List.mem_cons_self

theorem mem_nodes_of_child {t child node : NameTree} (hchild : child ∈ t.children)
    (h : node ∈ child.nodes) : node ∈ t.nodes := by
  cases t
  rw [nodes, nodesOf_eq_flatMap]
  exact List.mem_cons_of_mem _ (List.mem_flatMap.mpr ⟨child, hchild, h⟩)

/-- A label does not matter for the short forms. -/
theorem ownShort_of_withLabel {t : NameTree} {label : String}
    (h : ∀ node ∈ (t.withLabel label).nodes, node.OwnShort) : ∀ node ∈ t.nodes, node.OwnShort := by
  cases t
  obtain ⟨hroot, hbelow⟩ := List.forall_mem_cons.mp h
  exact List.forall_mem_cons.mpr ⟨hroot, hbelow⟩

end NameTree

namespace TypeFacts

variable {α : Type}

theorem exists_elementTree : ∀ {labels : List String} {args : List (TypeFacts α)},
    labels.length = args.length → ∀ arg ∈ args,
      ∃ label, arg.toNameTree.withLabel label ∈ elementTrees labels args
  | [], [], _, _, hmem => by cases hmem
  | label :: labels, other :: args, hlength, arg, hmem => by
      rw [elementTrees]
      rcases List.mem_cons.mp hmem with rfl | hmem
      · exact ⟨label, List.mem_cons_self⟩
      · obtain ⟨own, hown⟩ := exists_elementTree (Nat.succ.inj hlength) arg hmem
        exact ⟨own, List.mem_cons_of_mem _ hown⟩

/-- The tree is that of the type, as an argument or as an element. -/
def IsTree (type : TypeFacts α) (t : NameTree) : Prop :=
  t = type.toNameTree ∨ ∃ label, t = type.toNameTree.withLabel label

end TypeFacts

namespace Signature

/-- Nothing of a type is left out of its tree. -/
theorem Lawful.exists_child {type : TypeFacts Unit} (h : Lawful type) :
    ∀ arg ∈ type.args, ∃ t ∈ type.toNameTree.children, arg.IsTree t := by
  have hnamed : ∀ arg ∈ type.args, arg.facts.named = true :=
    fun arg hmem => (h.args arg hmem).named_eq
  intro arg hmem
  have hself : arg.IsTree arg.toNameTree := Or.inl rfl
  cases h with
  | @named path args annotated _ _ _ hvalue _ =>
      obtain ⟨marks, htree⟩ := @toNameTree_own path args annotated hvalue hnamed
      rw [htree]
      exact ⟨_, List.mem_map_of_mem hmem, hself⟩
  | nullable =>
      obtain rfl := List.mem_singleton.mp hmem
      obtain ⟨marks, htree⟩ := toNameTree_nullable (hnamed _ List.mem_cons_self)
      rw [htree]
      exact ⟨_, List.mem_cons_self, hself⟩
  | @tuple elements types _ hlength _ _ _ =>
      have hlabels : (labelsOf elements).length = types.length := by rw [length_labelsOf, hlength]
      obtain ⟨marks, htree⟩ := @toNameTree_labelledTuple (labelsOf elements) types hnamed
      rw [htree, NameTree.children_node]
      split
      · obtain ⟨label, hlabel⟩ := TypeFacts.exists_elementTree hlabels arg hmem
        exact ⟨_, hlabel, Or.inr ⟨label, rfl⟩⟩
      · exact ⟨_, List.mem_map_of_mem hmem, hself⟩

/-- The conditions on the short forms are conditions on the nodes of the name tree. -/
theorem declarable_of_nodes {type : TypeFacts Unit}
    (hnarrow : type.Everywhere (Narrow UInt64.size)) (h : Lawful type)
    (hnodes : ∀ node ∈ type.toNameTree.nodes, node.OwnShort) : type.Everywhere Declarable := by
  induction hnarrow with
  | @mk facts args note hown _ ih =>
      have hchild := h.exists_child
      obtain ⟨marks, children, heq, -⟩ := TypeFacts.toNameTree_eq_node facts args note
      rw [heq] at hchild hnodes
      obtain ⟨hwrapper, hkeyword⟩ := hnodes _ (NameTree.mem_nodes_self _)
      refine .mk ⟨hwrapper, fun hne => hkeyword ?_, hown⟩ fun arg hmem =>
        ih arg hmem (h.args arg hmem) ?_
      · obtain ⟨arg, args, rfl⟩ := List.exists_cons_of_ne_nil hne
        obtain ⟨t, hmem, -⟩ := hchild arg List.mem_cons_self
        exact List.ne_nil_of_mem hmem
      · obtain ⟨t, hmem, rfl | ⟨label, rfl⟩⟩ := hchild arg hmem
        · exact fun node hnode => hnodes node (NameTree.mem_nodes_of_child hmem hnode)
        · exact NameTree.ownShort_of_withLabel fun node hnode =>
            hnodes node (NameTree.mem_nodes_of_child hmem hnode)

/-! ## The round trip -/

/-- A type that was read is lawful, and no deeper or wider than its text. -/
theorem lawful_of_read {source : String} {signature : Signature}
    (h : read {} source = .ok signature) :
    Lawful signature.bare ∧ (declared signature.bare).nesting ≤ Context.maxDepth {} ∧
      ∀ bound, source.length < bound → signature.bare.Everywhere (Narrow bound) := by
  obtain ⟨hdepth, lexemes, written, hcut, hderives, hsound, hbare⟩ := denotes_of_read h
  obtain rfl := hderives.eq_row
  have hlawful := lawful_denote ⟨_, hderives⟩ hcut.called_isPath hsound
  rw [hbare]
  refine ⟨hlawful, ?_, fun bound hbound => narrow_denote ?_⟩
  · exact Nat.le_trans (nesting_declared_denote hlawful) ((withinDepth_iff_nesting hcut).mp hdepth)
  · exact Nat.lt_of_le_of_lt hcut.length_le hbound

theorem declaration_of_bare {signature : Signature} (h : Lawful signature.bare) :
    signature.toNameTree.declaration = (declared signature.bare).text := by
  rw [text_declared h, TypeFacts.toNameTree_bare]

/-- What was read can be read again from its declaration, and its declaration is the same
then, unless a node is declared as the wrapper, or as a keyword with type arguments.  The
text is shorter than a word counts, as every text in memory is. -/
theorem read_declaration {source : String} {signature : Signature}
    (h : read {} source = .ok signature) (hlength : source.length < UInt64.size)
    (hwrapper : ∀ node ∈ signature.toNameTree.nodes,
      ShortName.qualified node.qualified ≠ "Nullable")
    (hkeyword : ∀ node ∈ signature.toNameTree.nodes, node.children ≠ [] →
      ShortName.ofKeyword? (ShortName.qualified node.qualified) = none) :
    ∃ again, read {} signature.toNameTree.declaration = .ok again ∧
      again.toNameTree.declaration = signature.toNameTree.declaration := by
  obtain ⟨hlawful, hdepth, hnarrow⟩ := lawful_of_read h
  have hdeclarable : signature.bare.Everywhere Declarable := by
    refine declarable_of_nodes (hnarrow _ hlength) hlawful ?_
    rw [TypeFacts.toNameTree_bare]
    exact fun node hmem => ⟨hwrapper node hmem, hkeyword node hmem⟩
  -- `again` is another type than the first, and `hstable` says that it is declared alike.
  obtain ⟨hreadable, hstable⟩ := readable_declared hlawful hdeclarable
  obtain ⟨again, hread, hbare⟩ :=
    read_text hreadable.derivable hreadable.called hreadable.sound hdepth
  have hagain : Lawful again.bare := hbare ▸ hreadable.lawful
  have htext := declaration_of_bare hlawful
  refine ⟨again, htext ▸ hread, ?_⟩
  rw [declaration_of_bare hagain, hbare, hstable, htext]

/-- All labels of a tuple are shown when one of them was written, and a nullable tuple is
declared without the arguments in it. -/
theorem read_declaration_tuple : ∃ signature again,
    read {} "System.Collections.Generic.List<(int?, System.Guid Id, (A<B>, C)?)>" = .ok signature ∧
      signature.toNameTree.declaration = "List<(int? Item1, Guid Id, (A, C)? Item3)>" ∧
      read {} "List<(int? Item1, Guid Id, (A, C)? Item3)>" = .ok again ∧
      again.toNameTree.declaration = "List<(int? Item1, Guid Id, (A, C)? Item3)>" := by
  have htest : readsAs {} "System.Collections.Generic.List<(int?, System.Guid Id, (A<B>, C)?)>"
      (fun signature => decide (∀ node ∈ signature.toNameTree.nodes, node.OwnShort) &&
        signature.toNameTree.declaration == "List<(int? Item1, Guid Id, (A, C)? Item3)>")
      = true := by decide +kernel
  obtain ⟨signature, hread, htest⟩ := exists_of_readsAs htest
  obtain ⟨hnodes, hdeclaration⟩ := Bool.and_eq_true_iff.mp htest
  have hnodes := of_decide_eq_true hnodes
  have hdeclaration := eq_of_beq hdeclaration
  obtain ⟨again, hagain, hsame⟩ := read_declaration hread (by decide)
    (fun node hmem => (hnodes node hmem).1) (fun node hmem => (hnodes node hmem).2)
  rw [hdeclaration] at hagain hsame
  exact ⟨signature, again, hread, hdeclaration, hagain, hsame⟩

end Signature

end TypeNaming
