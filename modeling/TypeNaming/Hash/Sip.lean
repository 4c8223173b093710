/-
# SipHash-1-3

The keyed hash of a row of bytes, with one compression round for every word of
eight bytes and three rounds at the end.  Both keys are zero here, so a text
has the same hash in every run.

A text is hashed as its UTF-8 bytes followed by the byte `0xFF`, which no
character has in its UTF-8 form: the end of a text is part of what is hashed.
-/
namespace TypeNaming.Hash

/-- The four words the hash keeps between two rounds. -/
structure SipState where
  v0 : UInt64
  v1 : UInt64
  v2 : UInt64
  v3 : UInt64

namespace SipState

/-- The state before the first byte, for two zero keys. -/
def initial : SipState :=
  ⟨0x736f6d6570736575, 0x646f72616e646f6d, 0x6c7967656e657261, 0x7465646279746573⟩

/-- The word with its bits turned left. -/
def rotate (word count : UInt64) : UInt64 :=
  (word <<< count) ||| (word >>> (64 - count))

/-- One round of mixing. -/
def round (s : SipState) : SipState :=
  let v0 := s.v0 + s.v1
  let v1 := rotate s.v1 13 ^^^ v0
  let v0 := rotate v0 32
  let v2 := s.v2 + s.v3
  let v3 := rotate s.v3 16 ^^^ v2
  let v0 := v0 + v3
  let v3 := rotate v3 21 ^^^ v0
  let v2 := v2 + v1
  let v1 := rotate v1 17 ^^^ v2
  let v2 := rotate v2 32
  ⟨v0, v1, v2, v3⟩

/-- Take one word in. -/
def absorb (s : SipState) (word : UInt64) : SipState :=
  let mixed := round { s with v3 := s.v3 ^^^ word }
  { mixed with v0 := mixed.v0 ^^^ word }

/-- The hash, after the last word. -/
def finish (s : SipState) : UInt64 :=
  let mixed := round (round (round { s with v2 := s.v2 ^^^ 0xff }))
  mixed.v0 ^^^ mixed.v1 ^^^ mixed.v2 ^^^ mixed.v3

end SipState

/-- The word of up to eight bytes, the first byte the least significant. -/
def littleEndian : List UInt8 → UInt64
  | [] => 0
  | b :: bytes => b.toUInt64 ||| (littleEndian bytes <<< 8)

/-- Take in every whole word; the bytes that do not fill one make the last
word, whose top byte is the number of bytes altogether. -/
def absorbBytes (total : Nat) (s : SipState) : List UInt8 → SipState
  | b0 :: b1 :: b2 :: b3 :: b4 :: b5 :: b6 :: b7 :: rest =>
    absorbBytes total (s.absorb (littleEndian [b0, b1, b2, b3, b4, b5, b6, b7])) rest
  | tail => s.absorb ((UInt64.ofNat total <<< 56) ||| littleEndian tail)

/-- SipHash-1-3 of the bytes. -/
def sipHash (bytes : List UInt8) : UInt64 :=
  (absorbBytes bytes.length SipState.initial bytes).finish

/-- The hash of a text. -/
def ofText (text : String) : UInt64 :=
  sipHash (text.toUTF8.data.toList ++ [0xff])

end TypeNaming.Hash
