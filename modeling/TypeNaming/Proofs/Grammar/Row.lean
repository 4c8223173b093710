/-
# The row of a tree

A tree is written out as one row of lexemes, `Written.row`, and no other row is derivable
as the tree (`Derives.eq_row`).  Whether the row is, is a question about the tree
(`derivable_named_iff`, `derivable_tuple_iff`): every tuple needs two elements, and a
label needs to be a single identifier.
-/
import TypeNaming.Proofs.Grammar.Denotation

namespace TypeNaming.Signature

mutual

/-- The lexemes of the tree. -/
def Written.row : Written → List Lexeme
  | .named path [] marked => .path path :: markLexemes marked
  | .named path (arg :: args) marked =>
    .path path :: .lessThan :: (arg.row ++ Written.rows args) ++
      .greaterThan :: markLexemes marked
  | .tuple [] marked => .leftParen :: .rightParen :: markLexemes marked
  | .tuple (element :: elements) marked =>
    .leftParen :: (element.row ++ WrittenElement.rows elements) ++
      .rightParen :: markLexemes marked

/-- The lexemes of the trees, each after a comma. -/
def Written.rows : List Written → List Lexeme
  | [] => []
  | type :: types => .comma :: (type.row ++ Written.rows types)

/-- The lexemes of the element. -/
def WrittenElement.row : WrittenElement → List Lexeme
  | .mk type label => type.row ++ labelLexemes label

/-- The lexemes of the elements, each after a comma. -/
def WrittenElement.rows : List WrittenElement → List Lexeme
  | [] => []
  | element :: elements => .comma :: (element.row ++ WrittenElement.rows elements)

end

mutual

/-- A tree has one row only. -/
theorem Derives.eq_row : ∀ {type : Written} {lexemes : List Lexeme}, Derives type lexemes →
    lexemes = type.row
  | _, _, .path path marked => by rw [Written.row]
  | _, _, .generic path marked hargs => by
      obtain ⟨arg, args, rfl, rfl⟩ := hargs.eq_rows
      rw [Written.row]
  | _, _, .tuple marked helements _ => by
      obtain ⟨element, elements, rfl, rfl⟩ := helements.eq_rows
      rw [Written.row]

theorem DerivesTypes.eq_rows : ∀ {types : List Written} {lexemes : List Lexeme},
    DerivesTypes types lexemes →
      ∃ first others, types = first :: others ∧ lexemes = first.row ++ Written.rows others
  | _, _, .one htype => ⟨_, [], rfl, by rw [htype.eq_row, Written.rows, List.append_nil]⟩
  | _, _, .more htype htypes => by
      obtain ⟨first, others, rfl, rfl⟩ := htypes.eq_rows
      exact ⟨_, first :: others, rfl, by rw [htype.eq_row, Written.rows]⟩

theorem DerivesElement.eq_row : ∀ {element : WrittenElement} {lexemes : List Lexeme},
    DerivesElement element lexemes → lexemes = element.row
  | _, _, .mk htype _ => by rw [htype.eq_row, WrittenElement.row]

theorem DerivesElements.eq_rows : ∀ {elements : List WrittenElement} {lexemes : List Lexeme},
    DerivesElements elements lexemes →
      ∃ first others, elements = first :: others ∧
        lexemes = first.row ++ WrittenElement.rows others
  | _, _, .one helement =>
      ⟨_, [], rfl, by rw [helement.eq_row, WrittenElement.rows, List.append_nil]⟩
  | _, _, .more helement helements => by
      obtain ⟨first, others, rfl, rfl⟩ := helements.eq_rows
      exact ⟨_, first :: others, rfl, by rw [helement.eq_row, WrittenElement.rows]⟩

end

/-! ## Trees that have a derivation -/

/-- Some row is derivable as the tree. -/
def Derivable (type : Written) : Prop :=
  ∃ lexemes, Derives type lexemes

theorem Derivable.row {type : Written} (h : Derivable type) : Derives type type.row := by
  obtain ⟨lexemes, h⟩ := h
  exact h.eq_row ▸ h

/-- Some row is derivable as the element. -/
def DerivableElement (element : WrittenElement) : Prop :=
  Derivable element.type ∧ ∀ label, element.label = some label → '.' ∉ label.toList

/-- Items with commas between them. -/
inductive Separated {α : Type} (Item : α → List Lexeme → Prop) : List α → List Lexeme → Prop
  | one {item : α} {lexemes : List Lexeme} : Item item lexemes → Separated Item [item] lexemes
  | more {item : α} {items : List α} {lexemes others : List Lexeme} :
      Item item lexemes → Separated Item items others →
      Separated Item (item :: items) (lexemes ++ .comma :: others)

theorem DerivesTypes.separated : ∀ {types : List Written} {lexemes : List Lexeme},
    DerivesTypes types lexemes → Separated Derives types lexemes
  | _, _, .one h => .one h
  | _, _, .more h hothers => .more h hothers.separated

theorem Separated.types {types : List Written} {lexemes : List Lexeme}
    (h : Separated Derives types lexemes) : DerivesTypes types lexemes := by
  induction h with
  | one h => exact .one h
  | more h _ ih => exact .more h ih

theorem DerivesElements.separated : ∀ {elements : List WrittenElement} {lexemes : List Lexeme},
    DerivesElements elements lexemes → Separated DerivesElement elements lexemes
  | _, _, .one h => .one h
  | _, _, .more h hothers => .more h hothers.separated

theorem Separated.elements {elements : List WrittenElement} {lexemes : List Lexeme}
    (h : Separated DerivesElement elements lexemes) : DerivesElements elements lexemes := by
  induction h with
  | one h => exact .one h
  | more h _ ih => exact .more h ih

/-- Some row is made of the items exactly when there are some and each has a row. -/
theorem exists_separated_iff {α : Type} {Item : α → List Lexeme → Prop} {items : List α} :
    (∃ lexemes, Separated Item items lexemes) ↔
      items ≠ [] ∧ ∀ item ∈ items, ∃ lexemes, Item item lexemes := by
  constructor
  · rintro ⟨lexemes, h⟩
    induction h with
    | one h => exact ⟨List.cons_ne_nil _ _, List.forall_mem_singleton.mpr ⟨_, h⟩⟩
    | more h _ ih => exact ⟨List.cons_ne_nil _ _, List.forall_mem_cons.mpr ⟨⟨_, h⟩, ih.2⟩⟩
  · rintro ⟨hne, h⟩
    induction items with
    | nil => exact absurd rfl hne
    | cons item items ih =>
        obtain ⟨⟨lexemes, hitem⟩, hitems⟩ := List.forall_mem_cons.mp h
        cases items with
        | nil => exact ⟨lexemes, .one hitem⟩
        | cons other items =>
            obtain ⟨others, hothers⟩ := ih (List.cons_ne_nil _ _) hitems
            exact ⟨_, .more hitem hothers⟩

theorem exists_derivesElement_iff {element : WrittenElement} :
    (∃ lexemes, DerivesElement element lexemes) ↔ DerivableElement element := by
  constructor
  · rintro ⟨_, h⟩
    cases h with
    | mk htype hlabel => exact ⟨⟨_, htype⟩, hlabel⟩
  · rintro ⟨⟨lexemes, htype⟩, hlabel⟩
    cases element with
    | mk type label => exact ⟨_, .mk htype hlabel⟩

theorem derivable_named_iff {path : String} {args : List Written} {marked : Bool} :
    Derivable (.named path args marked) ↔ ∀ arg ∈ args, Derivable arg := by
  constructor
  · rintro ⟨_, h⟩
    cases h with
    | path => exact List.forall_mem_nil _
    | generic _ _ hargs => exact (exists_separated_iff.mp ⟨_, hargs.separated⟩).2
  · intro h
    cases args with
    | nil => exact ⟨_, .path path marked⟩
    | cons arg args =>
        obtain ⟨_, hargs⟩ := exists_separated_iff.mpr ⟨List.cons_ne_nil arg args, h⟩
        exact ⟨_, .generic path marked hargs.types⟩

theorem derivable_tuple_iff {elements : List WrittenElement} {marked : Bool} :
    Derivable (.tuple elements marked) ↔
      2 ≤ elements.length ∧ ∀ element ∈ elements, DerivableElement element := by
  simp only [← exists_derivesElement_iff]
  constructor
  · rintro ⟨_, h⟩
    cases h with
    | tuple _ h htwo => exact ⟨htwo, (exists_separated_iff.mp ⟨_, h.separated⟩).2⟩
  · rintro ⟨htwo, h⟩
    have hne : elements ≠ [] := List.ne_nil_of_length_pos (by omega)
    obtain ⟨_, h⟩ := exists_separated_iff.mpr ⟨hne, h⟩
    exact ⟨_, .tuple marked h.elements htwo⟩

end TypeNaming.Signature
