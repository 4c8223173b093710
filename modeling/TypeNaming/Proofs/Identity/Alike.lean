/-
# Equal trees, node by node

Equality compares joined texts, and the texts are ambiguous by themselves: `Of` and `_`
may stand in a name, and a nullable value does not write its child again.  On the trees
that are read from types this does no harm.  `Alike` compares two trees node by node,
by what is meant to count, and `same_iff_alike` says that equality is the same relation
on `Regular` trees:

  * with equal children, the texts of the children are equal, and cancel;
  * a nullable value, a tuple and a type with arguments differ in the last character of
    their declarations, so no two sorts of node meet;
  * the `?` of a reference without children is the only one in its declaration.
-/
import TypeNaming.Proofs.Identity.Skeleton

namespace TypeNaming

open Text (capitalize)

/-- The kinds are of one sort: both a nullable value, both a tuple, or both neither. -/
structure Kind.SameSort (kind kind' : Kind) : Prop where
  nullableValue : kind = .nullableValue ↔ kind' = .nullableValue
  tuple : kind = .tuple ↔ kind' = .tuple

/-- The nodes agree in all that counts; the mark of a reference counts at a leaf only. -/
structure NodeInfo.Alike (info info' : NodeInfo) (leaf : Prop) : Prop where
  sort : info.kind.SameSort info'.kind
  word : capitalize (ShortName.simple info.name) = capitalize (ShortName.simple info'.name)
  short : info.kind ≠ .tuple →
    ShortName.qualified info.qualified = ShortName.qualified info'.qualified
  mark : leaf → info.kind.onReference = info'.kind.onReference

namespace NameTree

mutual

/-- The trees have one shape, and agree node by node. -/
def Alike : NameTree → NameTree → Prop
  | .node info children, .node info' children' =>
    info.Alike info' (children = []) ∧ AlikeAll children children'

/-- The lists are equally long and pairwise alike. -/
def AlikeAll : List NameTree → List NameTree → Prop
  | [], [] => True
  | t :: ts, u :: us => Alike t u ∧ AlikeAll ts us
  | _, _ => False

end

/-! ## Regular trees -/

/-- What a node says of itself goes with its children, at every node of the tree. -/
inductive Everywhere (P : NodeInfo → List NameTree → Prop) : NameTree → Prop
  | node {info : NodeInfo} {children : List NameTree} :
      P info children → (∀ t ∈ children, Everywhere P t) → Everywhere P (.node info children)

/-- The children and the short name go with the kind, as they do for a node that is made
from a type. -/
def Fits (qualified : String) (children : List NameTree) : Kind → Prop
  | .plain _ => children = [] ∧ '?' ∉ (ShortName.qualified qualified).toList
  | .generic _ => children ≠ []
  | .tuple => children ≠ []
  | .nullableValue =>
    children ≠ [] ∧ (ShortName.qualified qualified).toList.getLast? = some '?'

/-- Every node of the tree fits. -/
abbrev Regular : NameTree → Prop :=
  Everywhere fun info children => Fits info.qualified children info.kind

/-! ## The texts of a node -/

theorem linkWord_of_sameSort {kind kind' : Kind} (h : kind.SameSort kind') :
    linkWord kind = linkWord kind' := by
  obtain ⟨hnullable, -⟩ := h
  cases kind <;> cases kind' <;> simp_all [linkWord]

theorem readableOver_congr {kind kind' : Kind} (hsort : kind.SameSort kind') (word : String)
    (names : List String) : readableOver kind word names = readableOver kind' word names := by
  cases names with
  | nil => rfl
  | cons name names => rw [readableOver, readableOver, linkWord_of_sameSort hsort] <;> simp

theorem readableOver_inj {kind kind' : Kind} {word word' : String} {names : List String}
    (hsort : kind.SameSort kind')
    (h : readableOver kind word names = readableOver kind' word' names) : word = word' := by
  cases names with
  | nil => exact h
  | cons name names =>
      simp only [readableOver, linkWord_of_sameSort hsort, String.append_assoc] at h
      exact (String.append_left_inj _).mp h

/-- The last character of the declaration of a node with children. -/
def closer : Kind → Char
  | .nullableValue => '?'
  | .tuple => ')'
  | _ => '>'

theorem closer_eq_question_iff {kind : Kind} : closer kind = '?' ↔ kind = .nullableValue := by
  cases kind <;> simp [closer]

theorem closer_eq_paren_iff {kind : Kind} : closer kind = ')' ↔ kind = .tuple := by
  cases kind <;> simp [closer]

theorem sameSort_of_closer {kind kind' : Kind} (h : closer kind = closer kind') :
    kind.SameSort kind' where
  nullableValue := by rw [← closer_eq_question_iff, h, closer_eq_question_iff]
  tuple := by rw [← closer_eq_paren_iff, h, closer_eq_paren_iff]

theorem getLast?_append_text (front : String) {back : String} {c : Char}
    (h : back.toList.getLast? = some c) : (front ++ back).toList.getLast? = some c := by
  simp [h]

theorem getLast?_unlabelledOver {info : NodeInfo} {children : List NameTree}
    (h : Fits info.qualified children info.kind) (hne : children ≠ []) :
    (unlabelledOver (ShortName.qualified info.qualified) info.kind
      (children.map unlabelled)).toList.getLast? = some (closer info.kind) := by
  obtain ⟨name, qualified, kind, label, marks⟩ := info
  obtain ⟨child, others, rfl⟩ := List.exists_cons_of_ne_nil hne
  cases kind with
  | plain nullable => exact absurd h.1 hne
  | generic nullable => exact getLast?_append_text _ (by rfl)
  | tuple => exact getLast?_append_text _ (by rfl)
  | nullableValue => exact h.2

theorem unlabelledOver_generic {kind : Kind} (hnullable : kind ≠ .nullableValue)
    (htuple : kind ≠ .tuple) (short text : String) (texts : List String) :
    unlabelledOver short kind (text :: texts)
      = short ++ ("<" ++ ", ".intercalate (text :: texts) ++ ">") := by
  cases kind <;> simp_all [unlabelledOver, String.append_assoc]

theorem unlabelledOver_inj {kind kind' : Kind} {short short' text : String}
    {texts : List String} (hsort : kind.SameSort kind') (htuple : kind ≠ .tuple)
    (h : unlabelledOver short kind (text :: texts) = unlabelledOver short' kind' (text :: texts)) :
    short = short' := by
  by_cases hnullable : kind = .nullableValue
  · obtain rfl := hnullable
    obtain rfl := hsort.nullableValue.mp rfl
    exact h
  · rw [unlabelledOver_generic hnullable htuple,
      unlabelledOver_generic (mt hsort.nullableValue.mpr hnullable)
        (mt hsort.tuple.mpr htuple)] at h
    exact (String.append_left_inj _).mp h

theorem unlabelledOver_congr {kind kind' : Kind} {short short' text : String}
    {texts : List String} (hsort : kind.SameSort kind') (h : kind ≠ .tuple → short = short') :
    unlabelledOver short kind (text :: texts) = unlabelledOver short' kind' (text :: texts) := by
  obtain ⟨hnullable, htuple⟩ := hsort
  cases kind <;> cases kind' <;> simp_all [unlabelledOver]

/-- A `?` after a name that has none can be told from the name. -/
theorem markedShort_inj {short short' : String} {marked marked' : Bool}
    (h : '?' ∉ short.toList) (h' : '?' ∉ short'.toList) :
    (if marked then short ++ "?" else short) = (if marked' then short' ++ "?" else short') ↔
      short = short' ∧ marked = marked' := by
  constructor
  · intro heq
    cases marked <;> cases marked'
    · exact ⟨heq, rfl⟩
    · simp only [if_true, Bool.false_eq_true, if_false] at heq
      simp [heq] at h
    · simp only [if_true, Bool.false_eq_true, if_false] at heq
      simp [← heq] at h'
    · exact ⟨(String.append_left_inj "?").mp heq, rfl⟩
  · rintro ⟨rfl, rfl⟩
    rfl

/-! ## Equality node by node -/

theorem leaf_texts_iff {info info' : NodeInfo} (h : Fits info.qualified [] info.kind)
    (h' : Fits info'.qualified [] info'.kind) :
    readable (.node info []) = readable (.node info' []) ∧
      unlabelled (.node info []) = unlabelled (.node info' []) ↔ info.Alike info' True := by
  obtain ⟨name, qualified, kind, label, marks⟩ := info
  obtain ⟨name', qualified', kind', label', marks'⟩ := info'
  cases kind with
  | plain nullable =>
      cases kind' with
      | plain nullable' =>
          rw [readable_node, readable_node, unlabelled_node, unlabelled_node]
          show _ ∧ (if nullable then _ else _) = (if nullable' then _ else _) ↔ _
          rw [markedShort_inj h.2 h'.2]
          constructor
          · rintro ⟨hword, hshort, hmark⟩
            exact ⟨⟨by simp, by simp⟩, hword, fun _ => hshort, fun _ => hmark⟩
          · rintro ⟨-, hword, hshort, hmark⟩
            exact ⟨hword, hshort (by simp), hmark trivial⟩
      | generic _ => exact absurd rfl h'
      | tuple => exact absurd rfl h'
      | nullableValue => exact absurd rfl h'.1
  | generic _ => exact absurd rfl h
  | tuple => exact absurd rfl h
  | nullableValue => exact absurd rfl h.1

theorem branch_texts_iff {info info' : NodeInfo} {children children' : List NameTree}
    (h : Fits info.qualified children info.kind) (h' : Fits info'.qualified children' info'.kind)
    (hne : children ≠ [])
    (hreadable : children.map readable = children'.map readable)
    (hunlabelled : children.map unlabelled = children'.map unlabelled) :
    readable (.node info children) = readable (.node info' children') ∧
      unlabelled (.node info children) = unlabelled (.node info' children') ↔
      info.Alike info' False := by
  have hne' : children' ≠ [] := by
    rintro rfl
    exact hne (by simpa using hreadable)
  have hlast := getLast?_unlabelledOver h hne
  have hlast' := getLast?_unlabelledOver h' hne'
  rw [← hunlabelled] at hlast'
  rw [readable_node, readable_node, unlabelled_node, unlabelled_node, ← hreadable, ← hunlabelled]
  obtain ⟨child, others, rfl⟩ := List.exists_cons_of_ne_nil hne
  constructor
  · rintro ⟨hword, hshort⟩
    have hsort : info.kind.SameSort info'.kind := by
      rw [hshort, hlast'] at hlast
      exact sameSort_of_closer (Option.some.inj hlast).symm
    exact ⟨hsort, readableOver_inj hsort hword,
      fun htuple => unlabelledOver_inj hsort htuple hshort, False.elim⟩
  · rintro ⟨hsort, hword, hshort, -⟩
    rw [hword, readableOver_congr hsort]
    exact ⟨rfl, unlabelledOver_congr hsort hshort⟩

mutual

/-- On regular trees, equality is agreement node by node. -/
theorem same_iff_alike : ∀ {t u : NameTree}, Regular t → Regular u →
    (t.same u = true ↔ Alike t u)
  | .node info children, .node info' children', .node hfits hchildren, .node hfits' hchildren' => by
      have ih := sameAll_iff_alikeAll hchildren hchildren'
      rw [same_iff, ← and_assoc, Alike, ← ih]
      refine and_congr_left fun hall => ?_
      rw [children_node, children_node, sameAll_iff_map_skeleton] at hall
      by_cases hne : children = []
      · obtain rfl := hne
        obtain rfl : children' = [] := by simpa using (map_unlabelled_of_skeleton hall).symm
        simpa using leaf_texts_iff hfits hfits'
      · simpa [hne] using branch_texts_iff hfits hfits' hne (map_readable_of_skeleton hall)
          (map_unlabelled_of_skeleton hall)

theorem sameAll_iff_alikeAll : ∀ {ts us : List NameTree}, (∀ t ∈ ts, Regular t) →
    (∀ u ∈ us, Regular u) → (sameAll ts us = true ↔ AlikeAll ts us)
  | [], [], _, _ => by simp [sameAll, AlikeAll]
  | [], u :: us, _, _ => by simp [sameAll, AlikeAll]
  | t :: ts, [], _, _ => by simp [sameAll, AlikeAll]
  | t :: ts, u :: us, ht, hu => by
      have hhead := same_iff_alike (ht t List.mem_cons_self) (hu u List.mem_cons_self)
      have htail := sameAll_iff_alikeAll (fun t hmem => ht t (List.mem_cons_of_mem _ hmem))
        (fun u hmem => hu u (List.mem_cons_of_mem _ hmem))
      simp only [sameAll, AlikeAll, Bool.and_eq_true, hhead, htail]

end

end NameTree

end TypeNaming
