import SlotAuction.Scratch.Shelf

/-!
# Workspace — the shelves that all auctions share

One shelf for each kind of buffer that an award works in: tallies over placements, positions in the
tail of the pool, and marks over that tail.
-/

namespace SlotAuction

structure Workspace where
  tallies : Shelf UInt64
  indices : Shelf Nat
  flags : Shelf Bool

namespace Workspace

def empty : Workspace := ⟨Shelf.empty, Shelf.empty, Shelf.empty⟩

instance : Inhabited Workspace := ⟨empty⟩

/-- Every idle buffer on every shelf is empty. -/
structure Clean (w : Workspace) : Prop where
  tallies : w.tallies.Clean
  indices : w.indices.Clean
  flags : w.flags.Clean

end Workspace
end SlotAuction
