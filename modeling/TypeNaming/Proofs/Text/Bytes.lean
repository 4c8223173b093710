/-
# The order of texts is the order of their bytes

Texts are compared character by character.  Their UTF-8 bytes, compared byte by byte, come in
the same order: of two characters the smaller has the smaller byte where their bytes first
differ (`precedes_utf8EncodeChar`), so what follows the two characters does not matter.
-/
import Mathlib.Data.String.Basic

namespace TypeNaming.Text

/-- The UTF-8 bytes of the text. -/
def bytes (text : String) : List UInt8 := text.toByteArray.data.toList

theorem bytes_eq_flatMap (text : String) :
    bytes text = text.toList.flatMap String.utf8EncodeChar := by
  rw [bytes, ← String.utf8Encode_toList, List.utf8Encode]
  simp

/-- The rows differ at a byte that both have, and the first row has the smaller one there. -/
def Precedes : List UInt8 → List UInt8 → Prop
  | x :: xs, y :: ys => x < y ∨ x = y ∧ Precedes xs ys
  | _, _ => False

theorem Precedes.lt_append : ∀ {xs ys : List UInt8}, Precedes xs ys →
    ∀ more others, xs ++ more < ys ++ others
  | _ :: _, _ :: _, .inl h, _, _ => List.cons_lt_cons_iff.mpr (.inl h)
  | _ :: _, _ :: _, .inr ⟨heq, h⟩, more, others =>
      List.cons_lt_cons_iff.mpr (.inr ⟨heq, h.lt_append more others⟩)

theorem code_lt (c : Char) : c.val.toNat < 0x110000 := by
  rcases c.valid with h | ⟨-, h⟩
  · exact Nat.lt_trans h (by decide)
  · exact h

/-- Of two characters the smaller has the smaller byte where their bytes first differ. -/
theorem precedes_utf8EncodeChar {c d : Char} (h : c < d) :
    Precedes (String.utf8EncodeChar c) (String.utf8EncodeChar d) := by
  have hcode : c.val.toNat < d.val.toNat := UInt32.lt_iff_toNat_lt.mp h
  have hmax := code_lt d
  -- The bytes after the first are digits to the base 64.
  have htwo (code : Nat) : code / 4096 = code / 64 / 64 := (Nat.div_div_eq_div_mul code 64 64).symm
  have hthree (code : Nat) : code / 262144 = code / 64 / 64 / 64 := by
    rw [Nat.div_div_eq_div_mul, Nat.div_div_eq_div_mul]
  rw [String.utf8EncodeChar, String.utf8EncodeChar]
  generalize c.val.toNat = code, d.val.toNat = code' at hcode hmax
  split_ifs <;>
    simp only [Precedes, UInt8.lt_iff_toNat_lt, ← UInt8.toNat_inj, UInt8.toNat_ofNat', htwo,
      hthree] <;>
    omega

theorem append_lt_append_iff (xs : List UInt8) {more others : List UInt8} :
    xs ++ more < xs ++ others ↔ more < others := by
  induction xs with
  | nil => rfl
  | cons x xs ih => simp [ih]

theorem flatMap_lt_iff : ∀ {cs ds : List Char},
    cs.flatMap String.utf8EncodeChar < ds.flatMap String.utf8EncodeChar ↔ cs < ds
  | [], [] => by simp
  | [], d :: ds => by
      obtain ⟨x, xs, hd⟩ := List.exists_cons_of_ne_nil (String.utf8EncodeChar_ne_nil (c := d))
      simp [hd]
  | _ :: _, [] => by simp
  | c :: cs, d :: ds => by
      rw [List.flatMap_cons, List.flatMap_cons, List.cons_lt_cons_iff]
      rcases lt_trichotomy c d with hlt | rfl | hgt
      · exact iff_of_true ((precedes_utf8EncodeChar hlt).lt_append _ _) (.inl hlt)
      · rw [append_lt_append_iff, flatMap_lt_iff]
        simp
      · have hbytes := (precedes_utf8EncodeChar hgt).lt_append
          (ds.flatMap String.utf8EncodeChar) (cs.flatMap String.utf8EncodeChar)
        refine iff_of_false (List.lt_asymm hbytes) ?_
        rintro (hlt | ⟨rfl, -⟩)
        · exact lt_asymm hgt hlt
        · exact lt_irrefl _ hgt

/-- Texts are ordered as their bytes are. -/
theorem bytes_lt_iff {text other : String} : bytes text < bytes other ↔ text < other := by
  rw [bytes_eq_flatMap, bytes_eq_flatMap, flatMap_lt_iff, String.lt_iff_toList_lt]

end TypeNaming.Text
