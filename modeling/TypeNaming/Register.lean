/-
# The register of unions

The lists of alternatives that something has been generated for, each one once, with
the number it was given when it was first entered.  The number is how many lists there
were before it, so the numbers run from zero in the order of first entry; a list that
is equal to one of the register shares its number.
-/
import Std.Data.HashMap
import TypeNaming.Alternatives

namespace TypeNaming

/-- The lists entered so far, with their numbers. -/
structure Register where
  seen : Std.HashMap Alternatives Nat

namespace Register

/-- The register without entries. -/
def empty : Register := ⟨∅⟩

/-- How many lists there are. -/
def size (r : Register) : Nat := r.seen.size

/-- Whether nothing was entered yet. -/
def isEmpty (r : Register) : Bool := r.seen.isEmpty

/-- The number of the entry equal to the list. -/
def number? (r : Register) (a : Alternatives) : Option Nat := r.seen[a]?

/-- Whether some entry is equal to the list. -/
def contains (r : Register) (a : Alternatives) : Bool := r.seen.contains a

/-- Enter the list.  The answer is the number of the equal entry that was there
before, or none when the list is new. -/
def enter (r : Register) (a : Alternatives) : Option Nat × Register :=
  match r.number? a with
  | some number => (some number, r)
  | none => (none, ⟨r.seen.insert a r.size⟩)

end Register

end TypeNaming
