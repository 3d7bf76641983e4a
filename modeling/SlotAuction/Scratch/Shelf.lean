import SlotAuction.Scratch.Buffer

/-!
# Shelf — idle buffers, lent out and taken back

A shelf holds the buffers that nobody uses; the last one put back is the first one lent out.  A
buffer is emptied when it comes back, so it does not matter to a borrower whether a buffer is new.

* `Shelf.lease` — lends out a buffer, a new one if none is idle;
* `Shelf.takeBack` — empties a buffer and keeps it, if the limits of its lease allow.
-/

namespace SlotAuction

/-- How many idle buffers are kept, and up to which allotment. -/
structure Limits where
  maxIdle : Nat
  maxRetained : Nat
  deriving DecidableEq

structure Shelf (α : Type) where
  idle : List (Buffer α)

/-- A buffer on loan, with the limits under which it will be taken back. -/
structure Lease (α : Type) where
  buffer : Buffer α
  limits : Limits

namespace Shelf

variable {α : Type}

def empty : Shelf α := ⟨[]⟩

instance : Inhabited (Shelf α) := ⟨empty⟩

def lease (shelf : Shelf α) (limits : Limits) : Lease α × Shelf α :=
  match shelf.idle with
  | [] => (⟨Buffer.empty, limits⟩, shelf)
  | buffer :: rest => (⟨buffer, limits⟩, ⟨rest⟩)

def takeBack [Cell α] (shelf : Shelf α) (lease : Lease α) : Shelf α :=
  let buffer := lease.buffer.clear
  if lease.limits.maxRetained < buffer.allotment then shelf
  else if shelf.idle.length < lease.limits.maxIdle then ⟨buffer :: shelf.idle⟩
  else shelf

/-! ## Clean shelves -/

/-- Every idle buffer is empty. -/
def Clean (shelf : Shelf α) : Prop :=
  ∀ buffer ∈ shelf.idle, buffer.cells = []

theorem clean_empty : (empty : Shelf α).Clean := by
  intro buffer member
  cases member

theorem Clean.lease {shelf : Shelf α} (clean : shelf.Clean) (limits : Limits) :
    (shelf.lease limits).1.buffer.cells = [] ∧ (shelf.lease limits).2.Clean := by
  rcases shelf with ⟨_ | ⟨buffer, rest⟩⟩
  · exact ⟨rfl, clean⟩
  · exact ⟨clean buffer (List.mem_cons_self ..),
      fun other member => clean other (List.mem_cons_of_mem _ member)⟩

theorem Clean.takeBack [Cell α] {shelf : Shelf α} (clean : shelf.Clean) (lease : Lease α) :
    (shelf.takeBack lease).Clean := by
  unfold Shelf.takeBack
  dsimp only
  split
  · exact clean
  · split
    · intro buffer member
      rcases List.mem_cons.mp member with rfl | old
      · rfl
      · exact clean buffer old
    · exact clean

end Shelf
end SlotAuction
