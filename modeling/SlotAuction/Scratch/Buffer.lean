/-!
# Buffer — cells in an allotment that only grows

A buffer is a list of cells together with its allotment, the number of cells that it has room for
without a new allocation.  Emptying or shortening a buffer keeps the allotment; `Buffer.hold` is the
one place where it grows, and every operation goes through it.

* `Cell.smallest` — the least allotment of a buffer that is not empty;
* `Buffer.grown` — the growth law: at least double, at least what is needed.
-/

namespace SlotAuction

/-- What a buffer has to know of its cells: how many the first allocation makes room for. -/
class Cell (α : Type) where
  smallest : Nat

instance : Cell UInt64 := ⟨4⟩
instance : Cell Nat := ⟨4⟩
instance : Cell Bool := ⟨8⟩

structure Buffer (α : Type) where
  cells : List α
  allotment : Nat
  fits : cells.length ≤ allotment

namespace Buffer

variable {α : Type}

def empty : Buffer α := ⟨[], 0, Nat.le_refl 0⟩

instance : Inhabited (Buffer α) := ⟨empty⟩

def length (b : Buffer α) : Nat :=
  b.cells.length

/-! ## Growth -/

/-- The allotment of `allotment` cells once `needed` are to be held. -/
def grown (smallest allotment needed : Nat) : Nat :=
  if needed ≤ allotment then allotment
  else max (2 * allotment) (max needed smallest)

theorem le_grown (smallest allotment needed : Nat) : needed ≤ grown smallest allotment needed := by
  unfold grown
  split <;> omega

theorem allotment_le_grown (smallest allotment needed : Nat) :
    allotment ≤ grown smallest allotment needed := by
  unfold grown
  split <;> omega

variable [Cell α]

/-- The buffer with other cells in it. -/
def hold (b : Buffer α) (cells : List α) : Buffer α where
  cells := cells
  allotment := grown (Cell.smallest α) b.allotment cells.length
  fits := le_grown ..

/-! ## Operations -/

def clear (b : Buffer α) : Buffer α :=
  b.hold []

def push (b : Buffer α) (cell : α) : Buffer α :=
  b.hold (b.cells ++ [cell])

/-- Cut down or filled up with `fill` to `size` cells. -/
def resize (b : Buffer α) (size : Nat) (fill : α) : Buffer α :=
  b.hold (b.cells.take size ++ List.replicate (size - b.length) fill)

/-- Nothing happens where there is no such cell. -/
def set (b : Buffer α) (position : Nat) (cell : α) : Buffer α :=
  b.hold (b.cells.set position cell)

@[simp] theorem cells_hold (b : Buffer α) (cells : List α) : (b.hold cells).cells = cells := rfl
@[simp] theorem cells_clear (b : Buffer α) : b.clear.cells = [] := rfl
@[simp] theorem cells_push (b : Buffer α) (cell : α) : (b.push cell).cells = b.cells ++ [cell] := rfl
@[simp] theorem cells_resize (b : Buffer α) (size : Nat) (fill : α) :
    (b.resize size fill).cells =
      b.cells.take size ++ List.replicate (size - b.cells.length) fill := rfl
@[simp] theorem cells_set (b : Buffer α) (position : Nat) (cell : α) :
    (b.set position cell).cells = b.cells.set position cell := rfl

@[simp] theorem allotment_clear (b : Buffer α) : b.clear.allotment = b.allotment := by
  simp [clear, hold, grown]

theorem length_resize (b : Buffer α) (size : Nat) (fill : α) :
    (b.resize size fill).length = size := by
  simp only [length, cells_resize, List.length_append, List.length_take, List.length_replicate]
  omega

end Buffer
end SlotAuction
