import SlotAuction.Digest.Sha256

/-!
# Merkle — binary trees of digests

* `Merkle.chunk` — a word as a leaf: eight bytes, lowest first, and zeros;
* `Merkle.root` — the root of a full tree, in which missing leaves are zero.
-/

namespace SlotAuction
namespace Merkle

open scoped Arithmetic

def zero : Digest :=
  Vector.replicate 32 0

def chunk (word : UInt64) : Digest :=
  ⟨(Bytes.littleEndian 8 word.toNat ++ List.replicate 24 0).toArray, by simp⟩

def pair (left right : Digest) : Digest :=
  sha256 (left.toList ++ right.toList)

/-- The root of the tree of the given depth over the leaves. -/
def root : Nat → List Digest → Digest
  | 0, leaves => leaves.headD zero
  | depth + 1, leaves =>
      pair (root depth (leaves.take (2 ^ depth))) (root depth (leaves.drop (2 ^ depth)))

end Merkle
end SlotAuction
