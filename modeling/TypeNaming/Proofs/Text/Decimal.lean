/-
# Decimal digits and their numbers

The digits of a number have its value, and they are the only ones without a redundant zero
in front that do (`toDigits_decimalValue`).  Zeros in front change no value, so a row of
digits is the digits of its number behind some zeros (`exists_unpadded`).

The value is that of `Nat.ofDigits`, which takes the least significant digit first.
-/
import Mathlib.Data.List.Induction
import Mathlib.Data.Nat.Digits.Defs
import TypeNaming.Text.Decimal

namespace TypeNaming.Text

/-! ## From numbers to digits -/

theorem decimalValue_toDigits (n : Nat) : decimalValue (Nat.toDigits 10 n) = n :=
  Nat.ofDigitChars_ten_toDigits

theorem head?_toDigits : ∀ n : Nat, 0 < n → (Nat.toDigits 10 n).head? ≠ some '0' := by
  intro n
  induction n using Nat.strongRecOn with
  | ind n ih =>
      intro hn
      rcases Nat.lt_or_ge n 10 with hsmall | hlarge
      · have hdigit : ∀ d < 10, 0 < d → Nat.digitChar d ≠ '0' := by decide
        rw [Nat.toDigits_of_lt_base hsmall]
        simpa using hdigit n hsmall hn
      · -- The digits of `n / 10` come first.
        have hhead := ih (n / 10) (by omega) (by omega)
        rw [Nat.toDigits_of_base_le (by decide) hlarge, List.head?_append]
        cases hdigits : (Nat.toDigits 10 (n / 10)).head? with
        | none => simp [Nat.toDigits_ne_nil] at hdigits
        | some d =>
            rw [hdigits] at hhead
            simpa using hhead

/-! ## From digits to numbers -/

theorem decimalValue_snoc (digits : List Char) (d : Char) :
    decimalValue (digits ++ [d]) = 10 * decimalValue digits + digitValue d :=
  List.foldl_append

theorem decimalValue_zeros (zeros : Nat) (digits : List Char) :
    decimalValue (List.replicate zeros '0' ++ digits) = decimalValue digits := by
  induction zeros with
  | zero => rfl
  | succ zeros ih => exact ih

theorem decimalValue_eq_ofDigits (digits : List Char) :
    decimalValue digits = Nat.ofDigits 10 (digits.reverse.map digitValue) := by
  induction digits using List.reverseRecOn with
  | nil => rfl
  | append_singleton digits d ih =>
      rw [decimalValue_snoc, List.reverse_concat, List.map_cons, Nat.ofDigits_cons, ih]
      simp [Nat.add_comm]

theorem word?_eq_some_iff {digits : List Char} {n : Nat} :
    word? digits = some n ↔ digits ≠ [] ∧ (∀ d ∈ digits, d.isDigit = true) ∧
      decimalValue digits = n ∧ n < UInt64.size := by
  rw [word?, Option.ite_none_right_eq_some, List.all_eq_true]
  constructor
  · rintro ⟨⟨hne, hdigits, hbound⟩, hvalue⟩
    obtain rfl := Option.some.inj hvalue
    exact ⟨hne, hdigits, rfl, hbound⟩
  · rintro ⟨hne, hdigits, rfl, hbound⟩
    exact ⟨⟨hne, hdigits, hbound⟩, rfl⟩

theorem digitChar_digitValue {d : Char} (h : d.isDigit = true) :
    digitValue d < 10 ∧ Nat.digitChar (digitValue d) = d := by
  simp only [Char.isDigit, Bool.and_eq_true, decide_eq_true_eq] at h
  have hlow : '0'.toNat ≤ d.toNat := UInt32.le_iff_toNat_le.mp h.1
  have hhigh : d.toNat ≤ '9'.toNat := UInt32.le_iff_toNat_le.mp h.2
  have hall : ∀ value < 10, Nat.digitChar value = Char.ofNat ('0'.toNat + value) := by decide
  have hsmall : d.toNat - '0'.toNat < 10 := by
    have hzero : '0'.toNat = 48 := rfl
    have hnine : '9'.toNat = 57 := rfl
    omega
  refine ⟨hsmall, ?_⟩
  rw [digitValue, hall _ hsmall, Nat.add_sub_cancel' hlow, Char.ofNat_toNat]

/-! ## Zeros in front -/

/-- The digits have no zero in front, unless zero is the number. -/
def Unpadded (digits : List Char) : Prop :=
  digits ≠ [] ∧ (digits.head? = some '0' → digits = ['0'])

theorem exists_unpadded {digits : List Char} (h : digits ≠ []) :
    ∃ zeros rest, digits = List.replicate zeros '0' ++ rest ∧ Unpadded rest := by
  induction digits with
  | nil => exact absurd rfl h
  | cons d digits ih =>
      by_cases hzero : d = '0' ∧ digits ≠ []
      · obtain ⟨rfl, hne⟩ := hzero
        obtain ⟨zeros, rest, rfl, hrest⟩ := ih hne
        exact ⟨zeros + 1, rest, rfl, hrest⟩
      · refine ⟨0, d :: digits, rfl, List.cons_ne_nil _ _, fun hhead => ?_⟩
        obtain rfl : d = '0' := Option.some.inj hhead
        simpa using hzero

/-- The digits of a number are the only ones without a redundant zero that have its value. -/
theorem toDigits_decimalValue {digits : List Char} (hdigits : ∀ d ∈ digits, d.isDigit = true)
    (hunpadded : Unpadded digits) : Nat.toDigits 10 (decimalValue digits) = digits := by
  induction digits using List.reverseRecOn with
  | nil => exact absurd rfl hunpadded.1
  | append_singleton front d ih =>
      obtain ⟨hsmall, hchar⟩ := digitChar_digitValue (hdigits d (by simp))
      cases hfront : front with
      | nil =>
          show Nat.toDigits 10 (10 * 0 + digitValue d) = [d]
          rw [Nat.mul_zero, Nat.zero_add, Nat.toDigits_of_lt_base hsmall, hchar]
      | cons c cs =>
          rw [← hfront]
          have hhead : front.head? ≠ some '0' := by
            intro hzero
            have hall := hunpadded.2 (by rw [List.head?_append, hzero, Option.some_or])
            simp [hfront] at hall
          have hown := ih (fun c hc => hdigits c (List.mem_append_left _ hc))
            ⟨by simp [hfront], fun hzero => absurd hzero hhead⟩
          have hpos : 0 < decimalValue front := by
            refine Nat.pos_of_ne_zero fun hvalue => hhead ?_
            rw [← hown, hvalue]
            rfl
          rw [decimalValue_snoc, ← Nat.toDigits_append_toDigits (by decide) hpos hsmall, hown,
            Nat.toDigits_of_lt_base hsmall, hchar]

end TypeNaming.Text
