/-
# Byte offsets

Places in a text are counted in bytes of its UTF-8 form.  `slice` cuts a text at
two such places; a place inside a character counts as the place after it.
-/
namespace TypeNaming.Text

/-- The number of bytes of a row of characters. -/
def byteLength : List Char → Nat
  | [] => 0
  | c :: cs => c.utf8Size + byteLength cs

@[simp] theorem byteLength_append (cs ds : List Char) :
    byteLength (cs ++ ds) = byteLength cs + byteLength ds := by
  induction cs with
  | nil => simp [byteLength]
  | cons c cs ih => simp [byteLength, ih, Nat.add_assoc]

/-- What is left of the text after its first `count` bytes. -/
def dropBytes : Nat → List Char → List Char
  | _, [] => []
  | count, c :: cs => if count = 0 then c :: cs else dropBytes (count - c.utf8Size) cs

/-- The first `count` bytes of the text. -/
def takeBytes : Nat → List Char → List Char
  | _, [] => []
  | count, c :: cs => if count = 0 then [] else c :: takeBytes (count - c.utf8Size) cs

/-- The text between two byte offsets. -/
def slice (text : List Char) (start stop : Nat) : List Char :=
  takeBytes (stop - start) (dropBytes start text)

@[simp] theorem dropBytes_zero (cs : List Char) : dropBytes 0 cs = cs := by
  cases cs <;> simp [dropBytes]

@[simp] theorem takeBytes_zero (cs : List Char) : takeBytes 0 cs = [] := by
  cases cs <;> simp [takeBytes]

theorem dropBytes_append (front back : List Char) :
    dropBytes (byteLength front) (front ++ back) = back := by
  induction front with
  | nil => simp [byteLength]
  | cons c cs ih =>
      have hne : c.utf8Size + byteLength cs ≠ 0 := by
        have := c.utf8Size_pos
        omega
      rw [byteLength, List.cons_append, dropBytes, if_neg hne, Nat.add_sub_cancel_left, ih]

theorem takeBytes_append (front back : List Char) :
    takeBytes (byteLength front) (front ++ back) = front := by
  induction front with
  | nil => simp [byteLength]
  | cons c cs ih =>
      have hne : c.utf8Size + byteLength cs ≠ 0 := by
        have := c.utf8Size_pos
        omega
      rw [byteLength, List.cons_append, takeBytes, if_neg hne, Nat.add_sub_cancel_left, ih]

/-- Cutting at the two ends of a piece gives the piece. -/
theorem slice_append (front piece back : List Char) :
    slice (front ++ piece ++ back) (byteLength front) (byteLength front + byteLength piece)
      = piece := by
  rw [slice, List.append_assoc, dropBytes_append, Nat.add_sub_cancel_left, takeBytes_append]

end TypeNaming.Text
