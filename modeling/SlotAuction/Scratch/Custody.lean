import SlotAuction.Scratch.Shelf

/-!
# Custody — a shelf and the leases that are out

Leases are held under names, so that any number can be out at once and come back in any order.
-/

namespace SlotAuction

structure Custody (α : Type) where
  shelf : Shelf α
  held : List (String × Lease α)

namespace Custody

variable {α : Type}

def empty : Custody α := ⟨Shelf.empty, []⟩

def buffer? (c : Custody α) (name : String) : Option (Buffer α) :=
  (c.held.lookup name).map Lease.buffer

def idle (c : Custody α) : Nat :=
  c.shelf.idle.length

/-! ## Steps -/

/-- Takes out a lease under a name that is not in use. -/
def lease (c : Custody α) (name : String) (limits : Limits) : Custody α :=
  let (lease, shelf) := c.shelf.lease limits
  ⟨shelf, (name, lease) :: c.held⟩

/-- Works on the buffer that is held under a name, if there is one. -/
def alter (c : Custody α) (name : String) (change : Buffer α → Buffer α) : Custody α :=
  ⟨c.shelf, c.held.map fun (other, lease) =>
    (other, if other = name then ⟨change lease.buffer, lease.limits⟩ else lease)⟩

/-- Gives back the lease that is held under a name, if there is one. -/
def giveBack [Cell α] (c : Custody α) (name : String) : Custody α :=
  match c.held.lookup name with
  | none => c
  | some lease => ⟨c.shelf.takeBack lease, c.held.filter fun entry => entry.1 ≠ name⟩

end Custody
end SlotAuction
