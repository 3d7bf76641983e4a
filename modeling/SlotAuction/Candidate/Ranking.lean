import SlotAuction.Candidate.Basic

/-!
# Ranking — the two orders in which candidates are taken up

* `Candidate.fillOrder` — bundles before singles, larger bundles first, then the higher value per
  slot first.  Bundles need room in several placements at once, so they go while there is room.
* `Candidate.exchangeOrder` — the lower value per slot first, and on a tie bundles before singles.

Both orders look at kind, count and value alone; equal candidates keep the order they came in.
-/

namespace SlotAuction
namespace Candidate

/-! ## Fill order -/

/-- Bundles before singles, and larger bundles before smaller ones. -/
def shapeOrder (a b : Candidate) : Ordering :=
  match a.bundle?, b.bundle? with
  | some x, some y => compare y.count x.count
  | some _, none => .lt
  | none, some _ => .gt
  | none, none => .eq

def fillOrder (a b : Candidate) : Ordering :=
  (shapeOrder a b).then (compare b.perSlotValue a.perSlotValue)

def sortForFill (cs : List Candidate) : List Candidate :=
  cs.mergeSort fun a b => (fillOrder a b).isLE

/-! ## Exchange order -/

/-- Bundles before singles. -/
def kindOrder (a b : Candidate) : Ordering :=
  match a.isBundle, b.isBundle with
  | true, false => .lt
  | false, true => .gt
  | _, _ => .eq

def exchangeOrder (a b : Candidate) : Ordering :=
  (compare a.perSlotValue b.perSlotValue).then (kindOrder a b)

def sortForExchange (cs : List Candidate) : List Candidate :=
  cs.mergeSort fun a b => (exchangeOrder a b).isLE

end Candidate
end SlotAuction
