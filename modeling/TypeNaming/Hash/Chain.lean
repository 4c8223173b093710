/-
# Hash chains

A list of hashes is brought down to one by a chain: start from a seed, and for
every value multiply by 31 and add, in 64-bit words that wrap around.
-/
namespace TypeNaming.Hash

/-- The value every chain starts from. -/
def seed : UInt64 := 19

/-- The factor between two links of a chain. -/
def multiplier : UInt64 := 31

/-- One link: the value so far, and the next one. -/
def link (hash value : UInt64) : UInt64 :=
  hash * multiplier + value

/-- The whole chain over a list of values. -/
def chain (start : UInt64) (values : List UInt64) : UInt64 :=
  values.foldl link start

@[simp] theorem chain_nil (start : UInt64) : chain start [] = start := rfl

@[simp] theorem chain_cons (start value : UInt64) (values : List UInt64) :
    chain start (value :: values) = chain (link start value) values := rfl

end TypeNaming.Hash
