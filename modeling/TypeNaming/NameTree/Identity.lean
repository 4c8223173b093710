/-
# When two trees are the same

Two trees are one unit of generation when they have the same readable name, the
same declaration without labels, and children that are pairwise the same.  The
labels of tuple elements take no part.  `identityHash` goes over the same
three things, so that equal trees have equal hashes.
-/
import TypeNaming.Hash.Chain
import TypeNaming.Hash.Sip
import TypeNaming.NameTree.Names

namespace TypeNaming.NameTree

mutual

/-- Whether the two trees are one unit of generation. -/
def same : NameTree → NameTree → Bool
  | .node info children, other =>
    readable (.node info children) == other.readable
      && unlabelled (.node info children) == other.unlabelled
      && sameAll children other.children

/-- Whether the lists are equally long and pairwise the same. -/
def sameAll : List NameTree → List NameTree → Bool
  | [], [] => true
  | t :: ts, u :: us => same t u && sameAll ts us
  | _, _ => false

end

instance : BEq NameTree := ⟨same⟩

theorem same_iff {t u : NameTree} :
    t.same u = true ↔
      t.readable = u.readable ∧ t.unlabelled = u.unlabelled
        ∧ sameAll t.children u.children = true := by
  cases t
  simp [same, and_assoc]

mutual

/-- The hash that goes with `same`. -/
def identityHash : NameTree → UInt64
  | .node info children =>
    Hash.chain Hash.seed
      (Hash.ofText (readable (.node info children))
        :: Hash.ofText (unlabelled (.node info children))
        :: identityHashes children)

/-- The hashes of a list of trees. -/
def identityHashes : List NameTree → List UInt64
  | [] => []
  | t :: ts => identityHash t :: identityHashes ts

end

@[simp] theorem identityHashes_eq_map (ts : List NameTree) :
    identityHashes ts = ts.map identityHash := by
  induction ts with
  | nil => rfl
  | cons t ts ih => simp [identityHashes, ih]

end TypeNaming.NameTree
