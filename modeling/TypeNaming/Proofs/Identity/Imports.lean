/-
# Imports cover every name that is shortened

A declaration leaves namespaces out, and code that has the declaration in it imports them.
Which namespaces these are is found out twice, by separate code over the same raw names: the
short name of a node is a keyword, or else what comes after the last dot of a name under
`System`; the namespaces to import are what comes before that dot, `System` apart.

The two agree on every tree, whatever its names look like.  A name that the short form
changes is one in a namespace (`changed_iff`), and that namespace is `System` or to be
imported.  `importing` is the short form that may leave nothing else out, and a declaration
can be written with it as well (`declareWith_importing`).
-/
import TypeNaming.Proofs.Identity.Reuse
import TypeNaming.Proofs.Text.Bytes

namespace TypeNaming

open Text (enclosing? lastPart)

/-! ## Names in a namespace -/

namespace ShortName

/-- The name is one part after a dot, and the namespace before it. -/
def Within (space name : String) : Prop :=
  ∃ part, name = space ++ "." ++ part ∧ '.' ∉ part.toList

/-- The name begins with `System` and a dot. -/
def Rooted (name : String) : Prop := ∃ rest, name = rootLead ++ rest

/-- The short form is the name without the namespace, or the keyword for it. -/
def LeavesOut (space name short : String) : Prop :=
  ∃ part, name = space ++ "." ++ part ∧ '.' ∉ part.toList ∧
    (short = part ∨ space = root ∧ spelling? part = some short)

theorem LeavesOut.within {space name short : String} (h : LeavesOut space name short) :
    Within space name := by
  obtain ⟨part, hname, hpart, -⟩ := h
  exact ⟨part, hname, hpart⟩

theorem enclosing?_eq_some_iff {space name : String} :
    enclosing? name = some space ↔ Within space name := by
  rw [enclosing?, Option.map_eq_some_iff]
  constructor
  · rintro ⟨⟨front, back⟩, hsplit, rfl⟩
    obtain ⟨hname, hback⟩ := (Text.splitLast_eq_some_iff _).mp hsplit
    exact ⟨String.ofList back, String.toList_inj.mp (by simp [hname]), by simpa using hback⟩
  · rintro ⟨part, rfl, hpart⟩
    refine ⟨(space.toList, part.toList), (Text.splitLast_eq_some_iff _).mpr ⟨?_, hpart⟩, by simp⟩
    simp

theorem spelling?_undotted {rest text : String} (h : spelling? rest = some text) :
    '.' ∉ rest.toList := by
  unfold spelling? at h
  split at h
  · next type htype =>
      obtain ⟨hmem, rfl⟩ := named?_eq_some htype
      exact builtIn_undotted type hmem
  · obtain ⟨type, htype, -⟩ := Option.map_eq_some_iff.mp h
    have hname := List.find?_some htype
    simp only [Bool.and_eq_true, beq_iff_eq] at hname
    have hundotted := builtIn_undotted type (List.mem_of_find?_eq_some htype)
    rw [← hname.2]
    simpa using hundotted

/-- A name under `System` is in a namespace, which its short form leaves out. -/
theorem exists_leavesOut {name : String} (h : Rooted name) :
    ∃ space, LeavesOut space name (qualified name) := by
  obtain ⟨rest, rfl⟩ := h
  have hqualified : qualified (rootLead ++ rest) = (spelling? rest).getD (lastPart rest) := by
    rw [qualified, Text.after?_eq_some_iff.mpr rfl]
  rw [hqualified]
  obtain ⟨hlast, hwhole | ⟨front, hfront⟩⟩ := Text.lastPart_cases rest
  · refine ⟨root, rest, rfl, hwhole ▸ hlast, ?_⟩
    cases hspelling : spelling? rest with
    | none => exact .inl hwhole.symm
    | some text => exact .inr ⟨rfl, rfl⟩
  · have hspelling : spelling? rest = none := by
      refine Option.eq_none_iff_forall_ne_some.mpr fun text htext => ?_
      have hundotted := spelling?_undotted htext
      rw [hfront] at hundotted
      simp at hundotted
    refine ⟨rootLead ++ front, lastPart rest, (congrArg (rootLead ++ ·) hfront).trans ?_, hlast,
      .inl ?_⟩
    · simp only [String.append_assoc]
    · rw [hspelling, Option.getD_none]

/-- The short form changes no other names. -/
theorem rooted_of_changed {name : String} (h : qualified name ≠ name) : Rooted name := by
  unfold qualified at h
  split at h
  · next rest hrest => exact ⟨rest, Text.after?_eq_some_iff.mp hrest⟩
  · exact absurd rfl h

/-- The name as it is shown when nothing can be left out but the root and the imports. -/
def importing (imports : List String) (name : String) : String :=
  match enclosing? name with
  | some space => if space ∈ root :: imports then qualified name else name
  | none => name

theorem importing_eq_qualified {imports : List String} {name : String}
    (h : ∀ space, Rooted name → Within space name → space ∈ root :: imports) :
    importing imports name = qualified name := by
  by_cases hchanged : qualified name = name
  · unfold importing
    split
    · split
      · rfl
      · exact hchanged.symm
    · exact hchanged.symm
  · have hrooted := rooted_of_changed hchanged
    obtain ⟨space, hleaves⟩ := exists_leavesOut hrooted
    rw [importing, enclosing?_eq_some_iff.mpr hleaves.within]
    exact if_pos (h space hrooted hleaves.within)

end ShortName

/-! ## Declarations with other names -/

namespace NameTree

open ShortName (Within Rooted LeavesOut importing)

mutual

/-- The declaration, with the names of the nodes spelled in a way of its own. -/
def declareWith (spell : String → String) (labels : LabelStyle) : NameTree → String
  | .node info children =>
    unlabelledOver (spell info.qualified) info.kind (declareAllWith spell labels children)
      ++ labels.suffix info.label

/-- The declarations of a list of trees. -/
def declareAllWith (spell : String → String) (labels : LabelStyle) : List NameTree → List String
  | [] => []
  | t :: ts => declareWith spell labels t :: declareAllWith spell labels ts

end

mutual

/-- Spelling the names of all nodes in their short form gives the declaration. -/
theorem declareWith_eq {spell : String → String} (labels : LabelStyle) : ∀ {t : NameTree},
    (∀ node ∈ t.nodes, spell node.qualified = ShortName.qualified node.qualified) →
      t.declareWith spell labels = t.declare labels
  | .node info children, h => by
      rw [nodes, List.forall_mem_cons] at h
      have hown : spell info.qualified = ShortName.qualified info.qualified := h.1
      rw [declareWith, declare_node, hown, declareAllWith_eq labels h.2]

theorem declareAllWith_eq {spell : String → String} (labels : LabelStyle) :
    ∀ {ts : List NameTree},
      (∀ node ∈ nodesOf ts, spell node.qualified = ShortName.qualified node.qualified) →
        declareAllWith spell labels ts = ts.map (declare labels)
  | [], _ => rfl
  | t :: ts, h => by
      rw [nodesOf, List.forall_mem_append] at h
      rw [declareAllWith, List.map_cons, declareWith_eq labels h.1, declareAllWith_eq labels h.2]

end

/-! ## The namespaces to import -/

theorem droppedNamespace?_eq_some_iff {name space : String} :
    droppedNamespace? name = some space ↔
      Rooted name ∧ Within space name ∧ space ≠ ShortName.root := by
  unfold droppedNamespace?
  split
  · next hnone =>
      have hrooted : ¬ Rooted name := by
        rintro ⟨rest, hrest⟩
        exact Text.after?_eq_none_iff.mp hnone rest hrest
      simp [hrooted]
  · next rest hrest =>
      have hrooted : Rooted name := ⟨rest, Text.after?_eq_some_iff.mp hrest⟩
      simp [Option.filter_eq_some_iff, ShortName.enclosing?_eq_some_iff, hrooted]

theorem mem_namespaces_iff {t : NameTree} {space : String} :
    space ∈ t.namespaces ↔ ∃ node ∈ t.nodes,
      Rooted node.qualified ∧ Within space node.qualified ∧ space ≠ ShortName.root := by
  simp only [namespaces, Text.Sorted.mem_ofList, allNamespaces_eq_flatMap, List.mem_flatMap,
    Option.mem_toList, ownNamespace?, droppedNamespace?_eq_some_iff]

/-- The namespace of a node under `System` is `System` or to be imported. -/
theorem mem_imports {t node : NameTree} (hnode : node ∈ t.nodes) {space : String}
    (hrooted : Rooted node.qualified) (hwithin : Within space node.qualified) :
    space ∈ ShortName.root :: t.namespaces := by
  by_cases hroot : space = ShortName.root
  · exact hroot ▸ List.mem_cons_self
  · exact List.mem_cons_of_mem _ (mem_namespaces_iff.mpr ⟨node, hnode, hrooted, hwithin, hroot⟩)

theorem declareWith_importing (t : NameTree) (labels : LabelStyle) :
    t.declareWith (importing t.namespaces) labels = t.declare labels :=
  declareWith_eq labels fun _ hnode =>
    ShortName.importing_eq_qualified fun _ => mem_imports hnode

/-- Whatever the names in a tree: where the short form changes the name of a node, it leaves
out a namespace that is `System` or to be imported, so a declaration can be written when
nothing else may be left out; a namespace to be imported is that of a node under `System`
and not `System`; and the namespaces of a list of trees are those of the trees, each one
once, in the order of their bytes. -/
theorem imports_cover (t : NameTree) (a : Alternatives) :
    (∀ node ∈ t.nodes, ShortName.qualified node.qualified ≠ node.qualified →
        ∃ space ∈ ShortName.root :: t.namespaces,
          LeavesOut space node.qualified (ShortName.qualified node.qualified)) ∧
      (∀ labels, t.declare labels = t.declareWith (importing t.namespaces) labels) ∧
      (∀ space, space ∈ t.namespaces ↔ ∃ node ∈ t.nodes,
        Rooted node.qualified ∧ Within space node.qualified ∧ space ≠ ShortName.root) ∧
      a.namespaces.Pairwise (fun space other => Text.bytes space < Text.bytes other) ∧
      ∀ space, space ∈ a.namespaces ↔ ∃ u ∈ a.toList, space ∈ u.namespaces := by
  refine ⟨fun node hnode hchanged => ?_, fun labels => (declareWith_importing t labels).symm,
    fun space => mem_namespaces_iff, ?_, fun space => ?_⟩
  · have hrooted := ShortName.rooted_of_changed hchanged
    obtain ⟨space, hleaves⟩ := ShortName.exists_leavesOut hrooted
    exact ⟨space, mem_imports hnode hrooted hleaves.within, hleaves⟩
  · exact a.pairwise_namespaces.imp Text.bytes_lt_iff.mpr
  · rw [Alternatives.namespaces, Text.Sorted.mem_ofList, List.mem_flatMap]

end NameTree

end TypeNaming
