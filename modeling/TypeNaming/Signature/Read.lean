/-
# Reading a signature

The three stages one after the other: the brackets are counted, the text is read
by the grammar, and what was read is given its meaning.  A later stage is only
reached when the earlier ones have found no fault.
-/
import TypeNaming.Signature.Depth
import TypeNaming.Signature.Meaning

namespace TypeNaming.Signature

/-- Refuse a text whose brackets are nested too deep. -/
def depthGuard (limit : Nat) (text : List Char) : Except Fault Unit :=
  match firstTooDeep? limit text with
  | none => .ok ()
  | some pos => .error ⟨.tooDeep limit, ⟨pos, pos + 1⟩⟩

/-- The fault of a text that is not in the grammar: it points at one byte, or at
the end of the text. -/
def Missed.fault (missed : Missed) (text : List Char) : Fault :=
  ⟨.expected missed.parts, ⟨missed.start, min (missed.start + 1) (Text.byteLength text)⟩⟩

/-- The type as it is written. -/
def readExpr (text : List Char) : Except Fault TypeExpr :=
  match parse text with
  | .ok expr => .ok expr
  | .error missed => .error (missed.fault text)

/-- The type that a text writes. -/
def read (context : Context) (source : String) : Except Fault Signature := do
  let text := source.toList
  depthGuard context.maxDepth text
  let expr ← readExpr text
  meaning context text expr

end TypeNaming.Signature
