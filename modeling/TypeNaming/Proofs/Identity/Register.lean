/-
# The register refines a list of distinct lists

A register is used by calls that enter a list and calls that ask for one.  What it
answers after any number of calls is a matter of the lists that were entered, in their
order, and of nothing else: the register stands for the list of the distinct ones, each
at its first appearance (`List.eraseDups`), and the number of a list is its place there.

The invariant is `Mirrors`; `Mirrors.enter` is its step and `Mirrors.callAll` its run.
The hash map behind the register is sound because equality is an equivalence that the
hash respects, which is where `Skeleton` comes in.
-/
import Mathlib.Data.List.Induction
import TypeNaming.Register
import TypeNaming.Proofs.Identity.Skeleton

namespace TypeNaming

/-! ## Distinct elements, in the order of first appearance -/

section Distinct

variable {α : Type} [BEq α] [EquivBEq α] {as : List α} {a b : α}

theorem any_beq_congr (h : (a == b) = true) : as.any (· == a) = as.any (· == b) :=
  List.any_congr rfl fun _ => BEq.congr_right h

theorem eraseDups_snoc (as : List α) (a : α) :
    (as ++ [a]).eraseDups =
      if as.any (· == a) then as.eraseDups else as.eraseDups ++ [a] := by
  generalize hn : as.length = n
  -- what equals the first element is filtered away, so the induction is on the length
  induction n using Nat.strongRecOn generalizing as with
  | ind n ih =>
      cases as with
      | nil => rfl
      | cons b as =>
          rw [List.cons_append, List.eraseDups_cons, List.eraseDups_cons, List.filter_append,
            List.any_cons]
          cases hb : a == b with
          | true => simp [hb, BEq.symm hb]
          | false =>
              have hany : (as.filter (!· == b)).any (· == a) = as.any (· == a) := by
                rw [List.any_filter]
                refine List.any_congr rfl fun c => ?_
                cases hc : c == a with
                | true => simp [BEq.congr_left hc, hb]
                | false => simp
              have hlength : (as.filter (!· == b)).length < n := by
                have := List.length_filter_le (!· == b) as
                rw [List.length_cons] at hn
                omega
              have ih := ih _ hlength (as.filter (!· == b)) rfl
              rw [hany] at ih
              simp only [List.filter_singleton, hb, Bool.not_false, cond_true, ih,
                BEq.symm_false hb, Bool.false_or]
              split <;> rfl

theorem any_eraseDups (as : List α) (a : α) :
    as.eraseDups.any (· == a) = as.any (· == a) := by
  induction as using List.reverseRecOn with
  | nil => rfl
  | append_singleton as b ih =>
      rw [eraseDups_snoc]
      cases hb : as.any (· == b) with
      | false => simp [ih]
      | true =>
          rw [if_pos rfl, ih, List.any_append]
          cases hba : b == a with
          | false => simp [hba]
          | true => simp [← any_beq_congr hba, hb]

theorem eraseDups_prefix (as bs : List α) : as.eraseDups <+: (as ++ bs).eraseDups := by
  induction bs using List.reverseRecOn with
  | nil => simp
  | append_singleton bs b ih =>
      rw [← List.append_assoc, eraseDups_snoc]
      split
      · exact ih
      · exact ih.trans (List.prefix_append _ _)

theorem pairwise_eraseDups (as : List α) :
    as.eraseDups.Pairwise fun a b => ¬ (a == b) = true := by
  induction as using List.reverseRecOn with
  | nil => simp
  | append_singleton as b ih =>
      rw [eraseDups_snoc]
      split
      · exact ih
      · next hb =>
          rw [← any_eraseDups] at hb
          refine List.pairwise_append.mpr ⟨ih, List.pairwise_singleton _ _, ?_⟩
          simpa using hb

theorem findIdx?_eraseDups_of_getElem? {k : Nat} (h : as.eraseDups[k]? = some a) :
    as.eraseDups.findIdx? (· == a) = some k := by
  obtain ⟨hk, rfl⟩ := List.getElem?_eq_some_iff.mp h
  refine List.findIdx?_eq_some_iff_getElem.mpr ⟨hk, BEq.rfl, fun j hj => ?_⟩
  exact List.pairwise_iff_getElem.mp (pairwise_eraseDups as) j k (Nat.lt_trans hj hk) hk hj

theorem findIdx?_eraseDups_eq_none_iff :
    as.eraseDups.findIdx? (· == a) = none ↔ ∀ b ∈ as, ¬ (b == a) = true := by
  rw [← Option.not_isSome_iff_eq_none, List.findIdx?_isSome, any_eraseDups]
  simp

/-- The place of an element among the distinct ones is the number of distinct elements
before the first one that equals it. -/
theorem findIdx?_eraseDups_of_first {front back : List α} (hb : (b == a) = true)
    (hfront : ∀ c ∈ front, ¬ (c == a) = true) :
    (front ++ b :: back).eraseDups.findIdx? (· == a) = some front.eraseDups.length := by
  have hnew : front.any (· == b) = false := by
    rw [any_beq_congr hb]
    simpa using hfront
  obtain ⟨more, hmore⟩ := eraseDups_prefix (front ++ [b]) back
  rw [eraseDups_snoc, hnew] at hmore
  have hnone : front.eraseDups.findIdx? (· == a) = none :=
    findIdx?_eraseDups_eq_none_iff.mpr hfront
  rw [List.append_cons, ← hmore]
  simp [List.findIdx?_append, hnone, List.findIdx?_cons, hb]

theorem findIdx?_eraseDups_eq_some_iff {k : Nat} :
    as.eraseDups.findIdx? (· == a) = some k ↔
      ∃ front b back, as = front ++ b :: back ∧ (b == a) = true ∧
        (∀ c ∈ front, ¬ (c == a) = true) ∧ k = front.eraseDups.length := by
  constructor
  · intro h
    cases hfind : as.find? (· == a) with
    | none =>
        rw [findIdx?_eraseDups_eq_none_iff.mpr (List.find?_eq_none.mp hfind)] at h
        cases h
    | some b =>
        obtain ⟨hb, front, back, rfl, hfront⟩ := List.find?_eq_some_iff_append.mp hfind
        have hfront : ∀ c ∈ front, ¬ (c == a) = true := by simpa using hfront
        rw [findIdx?_eraseDups_of_first hb hfront] at h
        exact ⟨front, b, back, rfl, hb, hfront, (Option.some.inj h).symm⟩
  · rintro ⟨front, b, back, rfl, hb, hfront, rfl⟩
    exact findIdx?_eraseDups_of_first hb hfront

end Distinct

/-! ## Calls -/

namespace Register

/-- A call on a register. -/
inductive Call where
  | enter (a : Alternatives)
  | contains (a : Alternatives)

/-- The register after a call; asking does not change it. -/
def call (r : Register) : Call → Register
  | .enter a => (r.enter a).2
  | .contains _ => r

/-- The register after the calls, in order. -/
def callAll (r : Register) (calls : List Call) : Register := calls.foldl call r

/-- The lists that the calls enter, in order and with repeats. -/
def entered : List Call → List Alternatives
  | [] => []
  | .enter a :: calls => a :: entered calls
  | .contains _ :: calls => entered calls

/-! ## One call -/

theorem enter_of_number {r : Register} {a : Alternatives} {k : Nat}
    (h : r.number? a = some k) : r.enter a = (some k, r) := by
  rw [enter, h]

theorem enter_of_new {r : Register} {a : Alternatives} (h : r.number? a = none) :
    r.enter a = (none, ⟨r.seen.insert a r.size⟩) := by
  rw [enter, h]

theorem enter_fst (r : Register) (a : Alternatives) : (r.enter a).1 = r.number? a := by
  rw [enter]
  cases r.number? a <;> rfl

theorem contains_eq (r : Register) (a : Alternatives) :
    r.contains a = (r.number? a).isSome :=
  Std.HashMap.contains_eq_isSome_getElem?

theorem number?_enter_of_new {r : Register} {a : Alternatives} (h : r.number? a = none)
    (b : Alternatives) :
    (r.enter a).2.number? b = if a == b then some r.size else r.number? b := by
  rw [enter_of_new h]
  exact Std.HashMap.getElem?_insert

theorem size_enter_of_new {r : Register} {a : Alternatives} (h : r.number? a = none) :
    (r.enter a).2.size = r.size + 1 := by
  have hnew : a ∉ r.seen := by
    rw [← Std.HashMap.isSome_getElem?_iff_mem, show r.seen[a]? = none from h]
    simp
  rw [enter_of_new h]
  exact Std.HashMap.size_insert.trans (if_neg hnew)

theorem number?_congr (r : Register) {a b : Alternatives} (h : (a == b) = true) :
    r.number? a = r.number? b :=
  Std.HashMap.getElem?_congr h

theorem number?_enter_self (r : Register) {a b : Alternatives} (h : (a == b) = true) :
    (r.enter a).2.number? b = some ((r.enter a).1.getD r.size) := by
  cases hnumber : r.number? a with
  | some k => rw [enter_of_number hnumber, ← number?_congr r h, hnumber, Option.getD_some]
  | none => rw [number?_enter_of_new hnumber, if_pos h, enter_of_new hnumber, Option.getD_none]

/-! ## A number never changes -/

theorem number?_call {r : Register} {b : Alternatives} {k : Nat} (h : r.number? b = some k)
    (call : Call) : (r.call call).number? b = some k := by
  cases call with
  | contains a => exact h
  | enter a =>
      show (r.enter a).2.number? b = some k
      cases hnumber : r.number? a with
      | some l => rw [enter_of_number hnumber, h]
      | none =>
          have hab : ¬ (a == b) = true := by
            intro hab
            rw [number?_congr r hab, h] at hnumber
            cases hnumber
          rw [number?_enter_of_new hnumber, if_neg hab, h]

theorem number?_callAll {r : Register} {b : Alternatives} {k : Nat} (h : r.number? b = some k)
    (calls : List Call) : (r.callAll calls).number? b = some k := by
  induction calls generalizing r with
  | nil => exact h
  | cons call calls ih => exact ih (number?_call h call)

/-! ## The invariant -/

/-- The register stands for the distinct ones of the lists. -/
structure Mirrors (r : Register) (lists : List Alternatives) : Prop where
  number : ∀ a, r.number? a = lists.eraseDups.findIdx? (· == a)
  size : r.size = lists.eraseDups.length

theorem Mirrors.number_eq_none {r : Register} {lists : List Alternatives} (h : Mirrors r lists)
    {a : Alternatives} : r.number? a = none ↔ ∀ b ∈ lists, ¬ (b == a) = true := by
  rw [h.number, findIdx?_eraseDups_eq_none_iff]

theorem mirrors_empty : Mirrors .empty [] where
  number _ := by
    rw [List.eraseDups_nil]
    exact Std.HashMap.getElem?_empty
  size := Std.HashMap.size_empty

/-- Entering a list keeps the account. -/
theorem Mirrors.enter {r : Register} {lists : List Alternatives} (h : Mirrors r lists)
    (a : Alternatives) : Mirrors (r.enter a).2 (lists ++ [a]) := by
  cases hnumber : r.number? a with
  | some k =>
      have hany : lists.any (· == a) = true := by
        rw [← any_eraseDups, ← List.findIdx?_isSome, ← h.number, hnumber, Option.isSome_some]
      rw [enter_of_number hnumber]
      refine ⟨fun b => ?_, ?_⟩
      · rw [eraseDups_snoc, if_pos hany, h.number]
      · rw [eraseDups_snoc, if_pos hany, h.size]
  | none =>
      have hany : ¬ lists.any (· == a) = true := by
        simpa using h.number_eq_none.mp hnumber
      refine ⟨fun b => ?_, ?_⟩
      · rw [eraseDups_snoc, if_neg hany, number?_enter_of_new hnumber, List.findIdx?_append,
          ← h.number, ← h.size]
        cases hab : a == b with
        | true =>
            have hb : r.number? b = none := by
              refine h.number_eq_none.mpr fun c hc hcb => ?_
              exact h.number_eq_none.mp hnumber c hc (BEq.trans hcb (BEq.symm hab))
            simp [hb, hab, List.findIdx?_cons]
        | false => simp [hab, List.findIdx?_cons]
      · rw [eraseDups_snoc, if_neg hany, size_enter_of_new hnumber, List.length_append, h.size,
          List.length_singleton]

/-- Any number of calls keep the account. -/
theorem Mirrors.callAll {r : Register} {lists : List Alternatives} (h : Mirrors r lists)
    (calls : List Call) : Mirrors (r.callAll calls) (lists ++ entered calls) := by
  induction calls generalizing r lists with
  | nil => simpa [Register.callAll, entered] using h
  | cons call calls ih =>
      cases call with
      | enter a =>
          rw [entered, List.append_cons]
          exact ih (h.enter a)
      | contains a => exact ih h

/-! ## What a register answers -/

/-- The register answers from the lists that were entered so far. -/
structure Refines (r : Register) (lists : List Alternatives) : Prop where
  /-- A list is new when no equal one was entered. -/
  new : ∀ a, (r.enter a).1 = none ↔ ∀ b ∈ lists, ¬ (b == a) = true
  /-- The number of a list is how many distinct lists came before the first equal one. -/
  number : ∀ a k, (r.enter a).1 = some k ↔ ∃ front b back, lists = front ++ b :: back ∧
    (b == a) = true ∧ (∀ c ∈ front, ¬ (c == a) = true) ∧ k = front.eraseDups.length
  /-- A list with a number is not entered again. -/
  unchanged : ∀ a k, (r.enter a).1 = some k → (r.enter a).2 = r
  /-- Once a list is entered, its number and that of its equals is settled. -/
  stable : ∀ a b calls, (a == b) = true →
    (((r.enter a).2.callAll calls).enter b).1 = some ((r.enter a).1.getD r.size)
  /-- A list is contained when an equal one was entered. -/
  contains : ∀ a, r.contains a = true ↔ ∃ b ∈ lists, (b == a) = true
  /-- The size is the number of distinct lists. -/
  size : r.size = lists.eraseDups.length
  /-- The numbers are the places of the distinct lists in the order of first appearance. -/
  order : ∀ a k, lists.eraseDups[k]? = some a → (r.enter a).1 = some k
  /-- No other number is given out. -/
  range : ∀ k, (∃ a, (r.enter a).1 = some k) ↔ k < r.size

theorem Mirrors.refines {r : Register} {lists : List Alternatives} (h : Mirrors r lists) :
    Refines r lists where
  new a := by rw [enter_fst, h.number_eq_none]
  number a k := by rw [enter_fst, h.number, findIdx?_eraseDups_eq_some_iff]
  unchanged a k hk := by
    rw [enter_fst] at hk
    rw [enter_of_number hk]
  stable a b calls hab := by
    rw [enter_fst]
    exact number?_callAll (number?_enter_self r hab) calls
  contains a := by
    rw [contains_eq, Option.isSome_iff_ne_none, ne_eq, h.number_eq_none]
    simp
  size := h.size
  order a k hk := by
    rw [enter_fst, h.number]
    exact findIdx?_eraseDups_of_getElem? hk
  range k := by
    constructor
    · rintro ⟨a, hk⟩
      rw [enter_fst, h.number] at hk
      obtain ⟨hlt, -⟩ := List.findIdx?_eq_some_iff_getElem.mp hk
      exact h.size ▸ hlt
    · intro hk
      rw [h.size] at hk
      refine ⟨lists.eraseDups[k], ?_⟩
      rw [enter_fst, h.number]
      exact findIdx?_eraseDups_of_getElem? (List.getElem?_eq_getElem hk)

/-- After any calls on a new register, it answers from the lists that they entered. -/
theorem callAll_refines (calls : List Call) :
    Refines (Register.empty.callAll calls) (entered calls) := by
  have h := (mirrors_empty.callAll calls).refines
  rwa [List.nil_append] at h

end Register

end TypeNaming
