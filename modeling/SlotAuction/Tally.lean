import SlotAuction.Placement
import SlotAuction.Scratch.Buffer

/-!
# Tally — slots counted by placement

A tally is a buffer of counts, one for each position in a list of placements.  Positions past its
end count zero, and it grows when one of them is written.  Counts are words and wrap.

* `get_increment` — what a write changes;
* `Tally.hasRoom` — is there room for one more slot at a position?
* `Tally.fits` — is there room for the counts of another tally?
* `Tally.commit` — adds the counts of another tally if there is room for all of them, and none
  otherwise.
-/

namespace SlotAuction

open scoped Arithmetic

abbrev Tally := Buffer UInt64

namespace Tally

def get (t : Tally) (position : Nat) : UInt64 :=
  t.cells.getD position 0

/-- All counts zero, for `size` positions. -/
def clearTo (t : Tally) (size : Nat) : Tally :=
  t.clear.resize size 0

def increment (t : Tally) (position : Nat) (n : UInt64) : Tally :=
  let t := if t.length ≤ position then t.resize (position + 1) 0 else t
  t.set position (Tally.get t position + n)

def total (t : Tally) : UInt64 :=
  t.cells.sum

/-- The same counts, at the same number of positions. -/
def sameCounts (t other : Tally) : Bool :=
  t.cells == other.cells

theorem get_clearTo (t : Tally) (size position : Nat) : get (clearTo t size) position = 0 := by
  simp only [get, clearTo, Buffer.cells_resize, Buffer.cells_clear, List.take_nil, List.nil_append,
    List.length_nil, Nat.sub_zero, List.getD_eq_getElem?_getD, List.getElem?_replicate]
  split <;> rfl

theorem get_resize_of_le (t : Tally) (size position : Nat) (le : t.length ≤ size) :
    get (t.resize size 0) position = get t position := by
  unfold Buffer.length at le
  simp only [get, Buffer.cells_resize, List.take_of_length_le le, List.getD_eq_getElem?_getD,
    List.getElem?_append, List.getElem?_replicate]
  by_cases inside : position < t.cells.length
  · rw [if_pos inside]
  · rw [if_neg inside, List.getElem?_eq_none (Nat.le_of_not_lt inside)]
    split <;> rfl

theorem get_increment (t : Tally) (position other : Nat) (n : UInt64) :
    get (increment t position n) other =
      if other = position then get t position + n else get t other := by
  -- Growing to the position changes no count, so the write is all there is.
  have write (u : Tally) (inside : position < u.cells.length) :
      get (u.set position (get u position + n)) other =
        if other = position then get u position + n else get u other := by
    simp only [get, Buffer.cells_set, List.getD_eq_getElem?_getD, List.getElem?_set]
    by_cases same : other = position
    · simp [same, inside]
    · simp [same, Ne.symm same]
  unfold increment
  by_cases past : t.length ≤ position
  · have le : t.length ≤ position + 1 := Nat.le_succ_of_le past
    have grown : position < (t.resize (position + 1) 0).cells.length := by
      have length := t.length_resize (position + 1) 0
      unfold Buffer.length at length
      omega
    simp only [if_pos past]
    rw [write _ grown, get_resize_of_le t _ _ le, get_resize_of_le t _ _ le]
  · simp only [if_neg past]
    exact write t (Nat.lt_of_not_le past)

/-! ## Room -/

def hasRoom (t : Tally) (placements : List Placement) (position : Nat) : Bool :=
  match placements[position]? with
  | some p => get t position < p.wanted
  | none => false

/-- Is there room at one position for `delta` more slots?  For none there always is. -/
def fitsAt (t : Tally) (placements : List Placement) (position : Nat) (delta : UInt64) : Bool :=
  delta == 0 ||
    match placements[position]? with
    | some p => get t position + delta ≤ p.wanted
    | none => false

def fits (t deltas : Tally) (placements : List Placement) : Bool :=
  deltas.cells.zipIdx.all fun (delta, position) => fitsAt t placements position delta

/-! ## Commitment -/

/-- Adds the counts that are not zero, from `position` on. -/
def addFrom (t : Tally) (position : Nat) : List UInt64 → Tally
  | [] => t
  | delta :: rest =>
      addFrom (if 0 < delta then increment t position delta else t) (position + 1) rest

def commit (t deltas : Tally) (placements : List Placement) : Bool × Tally :=
  if fits t deltas placements then (true, addFrom t 0 deltas.cells) else (false, t)

end Tally
end SlotAuction
