/-
# What a hash chain keeps apart

A link multiplies the hash so far by an odd number, and that loses nothing in words that
wrap around: the multiplier has an inverse (`exists_inverse`).  So a link is injective in
the hash so far, and in the value that is added.

A chain is then injective in where it starts (`chain_left_inj`), by induction along the
values.  Of two chains whose values differ at one position, the links before it agree, the
link there tells them apart, and by that injectivity no link behind it brings them together
again.  Nothing of the kind is claimed of two differences, which can cancel.
-/
import Mathlib.Logic.ExistsUnique
import Mathlib.Tactic.ByContra
import TypeNaming.Alternatives

namespace TypeNaming

/-! ## Rows that differ once -/

/-- The rows are equally long, and there is exactly one position where they differ. -/
def DifferOnce {α : Type} (values others : List α) : Prop :=
  values.length = others.length ∧ ∃! index : Nat, values[index]? ≠ others[index]?

theorem differOnce_of_split {α : Type} {value other : α} (front back : List α)
    (hne : value ≠ other) : DifferOnce (front ++ value :: back) (front ++ other :: back) := by
  refine ⟨by simp, front.length, by simpa using hne, fun position hdiffer => ?_⟩
  by_contra hposition
  refine hdiffer ?_
  rcases Nat.lt_or_gt_of_ne hposition with hlt | hgt
  · rw [List.getElem?_append_left hlt, List.getElem?_append_left hlt]
  · obtain ⟨offset, rfl⟩ := Nat.exists_eq_add_of_lt hgt
    have hbehind : front.length + offset + 1 - front.length = offset + 1 := by omega
    rw [List.getElem?_append_right (by omega), List.getElem?_append_right (by omega), hbehind,
      List.getElem?_cons_succ, List.getElem?_cons_succ]

theorem DifferOnce.exists_split {α : Type} {values others : List α}
    (h : DifferOnce values others) : ∃ front value other back, value ≠ other ∧
      values = front ++ value :: back ∧ others = front ++ other :: back := by
  obtain ⟨hlength, index, hdiffer, honly⟩ := h
  have hsame : ∀ position, position ≠ index → values[position]? = others[position]? := by
    intro position hne
    by_contra h
    exact hne (honly position h)
  have hindex : index < values.length := by
    by_contra h
    refine hdiffer ?_
    rw [List.getElem?_eq_none (by omega), List.getElem?_eq_none (by omega)]
  have hindex' : index < others.length := hlength ▸ hindex
  have hfront : values.take index = others.take index := by
    refine List.ext_getElem? fun position => ?_
    rw [List.getElem?_take, List.getElem?_take]
    split
    · exact hsame position (by omega)
    · rfl
  have hback : values.drop (index + 1) = others.drop (index + 1) := by
    refine List.ext_getElem? fun position => ?_
    rw [List.getElem?_drop, List.getElem?_drop]
    exact hsame _ (by omega)
  refine ⟨values.take index, values[index], others[index], values.drop (index + 1), ?_, ?_, ?_⟩
  · intro h
    refine hdiffer ?_
    rw [List.getElem?_eq_getElem hindex, List.getElem?_eq_getElem hindex', h]
  · rw [List.getElem_cons_drop, List.take_append_drop]
  · rw [hfront, hback, List.getElem_cons_drop, List.take_append_drop]

/-! ## Links and chains -/

namespace Hash

/-- The multiplier is odd, so multiplying by it can be undone. -/
theorem exists_inverse : ∃ inverse, multiplier * inverse = 1 :=
  ⟨0xEF7BDEF7BDEF7BDF, by decide⟩

theorem link_left_inj {hash other value : UInt64} :
    link hash value = link other value ↔ hash = other := by
  constructor
  · intro h
    obtain ⟨inverse, hinverse⟩ := exists_inverse
    have hproduct : hash * multiplier = other * multiplier := (UInt64.add_left_inj value).mp h
    calc hash = hash * multiplier * inverse := by
          rw [UInt64.mul_assoc, hinverse, UInt64.mul_one]
      _ = other * multiplier * inverse := by rw [hproduct]
      _ = other := by rw [UInt64.mul_assoc, hinverse, UInt64.mul_one]
  · rintro rfl
    rfl

theorem link_right_inj {hash value other : UInt64} :
    link hash value = link hash other ↔ value = other :=
  UInt64.add_right_inj (hash * multiplier)

theorem chain_append (start : UInt64) (front back : List UInt64) :
    chain start (front ++ back) = chain (chain start front) back :=
  List.foldl_append

/-- No number of links brings two hashes together. -/
theorem chain_left_inj {start other : UInt64} (values : List UInt64) :
    chain start values = chain other values ↔ start = other := by
  induction values generalizing start other with
  | nil => rfl
  | cons value values ih => rw [chain_cons, chain_cons, ih, link_left_inj]

theorem chain_ne_of_differOnce {values others : List UInt64} (h : DifferOnce values others)
    (start : UInt64) : chain start values ≠ chain start others := by
  obtain ⟨front, value, other, back, hne, rfl, rfl⟩ := h.exists_split
  rw [chain_append, chain_append, chain_cons, chain_cons]
  intro heq
  exact hne (link_right_inj.mp ((chain_left_inj back).mp heq))

/-- A chain tells apart two rows that differ at one position, and two starts; so the hashes
of two lists of alternatives differ when those of one alternative do. -/
theorem chain_tells_apart :
    (∀ start values others, DifferOnce values others →
      chain start values ≠ chain start others) ∧
    (∀ start other values, start ≠ other → chain start values ≠ chain other values) ∧
    ∀ a b : Alternatives,
      DifferOnce (a.toList.map (·.identityHash)) (b.toList.map (·.identityHash)) →
        a.identityHash ≠ b.identityHash := by
  refine ⟨fun start values others h => chain_ne_of_differOnce h start, ?_, ?_⟩
  · intro start other values hne heq
    exact hne ((chain_left_inj values).mp heq)
  · intro a b h
    exact chain_ne_of_differOnce h seed

/-- The difference stands between alternatives that agree, and values that wrap around. -/
theorem chain_tells_apart_middle :
    let a : Alternatives := ⟨[.plain "Int32" "System.Int32", .plain "A" "A", .plain "B" "B"]⟩
    let b : Alternatives := ⟨[.plain "Int32" "System.Int32", .plain "C" "C", .plain "B" "B"]⟩
    chain seed [0xFFFFFFFFFFFFFFFF, 2, 3] ≠ chain seed [0xFFFFFFFFFFFFFFFF, 0, 3] ∧
      chain seed [0xFFFFFFFFFFFFFFFF, 2] ≠ chain (seed + 0x8000000000000000)
        [0xFFFFFFFFFFFFFFFF, 2] ∧
      a.identityHash ≠ b.identityHash := by
  intro a b
  obtain ⟨hvalues, hstarts, halternatives⟩ := chain_tells_apart
  have hone : NameTree.identityHash (.plain "A" "A") ≠ NameTree.identityHash (.plain "C" "C") := by
    decide +kernel
  refine ⟨hvalues _ _ _ ?_, hstarts _ _ _ (by decide), halternatives _ _ ?_⟩
  · exact differOnce_of_split [0xFFFFFFFFFFFFFFFF] [3] (by decide)
  · exact differOnce_of_split [_] [_] hone

end Hash

end TypeNaming
