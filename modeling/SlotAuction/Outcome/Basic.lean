import SlotAuction.Candidate.Basic
import SlotAuction.Digest.Merkle
import SlotAuction.Placement

/-!
# Outcome — a record of one award

* `Outcome.slotRoot` — the digest of the awarded slots, in an order of their own, so that neither
  the order of the winners nor their grouping into bundles has an influence;
* `Outcome.treeRoot` — the root of the tree whose leaves are the fields;
* `Outcome.fillRate` — filled slots over requested ones.
-/

namespace SlotAuction

structure Outcome where
  placements : UInt64
  slotsRequested : UInt64
  slotsFilled : UInt64
  /-- How many candidates were in the pool. -/
  considered : UInt64
  /-- How many candidates won, a bundle counting once. -/
  winners : UInt64
  /-- How many bundles were exchanged. -/
  exchanged : UInt64
  value : Amount
  root : Digest
  deriving DecidableEq

namespace Outcome

/-! ## The root over the awarded slots -/

/-- By placement, then by amount. -/
def slotLE (a b : Candidate.Slot) : Bool :=
  a.1 < b.1 || (a.1 == b.1 && a.2 ≤ b.2)

def awardedSlots (winners : List Candidate) : List Candidate.Slot :=
  winners.flatMap Candidate.slots

/-- The placement, a zero byte, and the amount in eight bytes, lowest first. -/
def slotBytes (slot : Candidate.Slot) : List UInt8 :=
  Bytes.ofText slot.1 ++ 0 :: Bytes.littleEndian 8 slot.2.raw.toNat

/-- What is hashed: the slots in order, one after another. -/
def rootMessage (winners : List Candidate) : List UInt8 :=
  ((awardedSlots winners).mergeSort slotLE).flatMap slotBytes

def slotRoot (winners : List Candidate) : Digest :=
  sha256 (rootMessage winners)

/-! ## The record -/

/-- The record of an award of `placements`, `exchanged` bundles having been exchanged. -/
def ofWinners (placements : List Placement) (pool winners : List Candidate) (exchanged : Nat) :
    Outcome where
  placements := .ofNat placements.length
  slotsRequested := Placement.totalWanted placements
  slotsFilled := Candidate.totalCapacity winners
  considered := .ofNat pool.length
  winners := .ofNat winners.length
  exchanged := .ofNat exchanged
  value := Amount.total (winners.map Candidate.bid)
  root := slotRoot winners

def isEmpty (o : Outcome) : Bool :=
  o.winners == 0

/-- None when no slot was requested. -/
def fillRate (o : Outcome) : Option Float :=
  if o.slotsRequested = 0 then none
  else some (o.slotsFilled.toFloat / o.slotsRequested.toFloat)

/-- The words of the record, in order. -/
def fields (o : Outcome) : List UInt64 :=
  [o.placements, o.slotsRequested, o.slotsFilled, o.considered, o.winners, o.exchanged, o.value.raw]

def treeRoot (o : Outcome) : Digest :=
  Merkle.root 3 (o.fields.map Merkle.chunk ++ [o.root])

end Outcome
end SlotAuction
