import SlotAuction.Word

/-!
# Placement — where ads are shown, and how many are wanted there

A request for ads lists impressions, each of which becomes one placement.  A name stands for the
first placement that carries it, so a later placement of the same name is never filled.

* `Placement.locate` — the position that a name stands for;
* `Placement.totalWanted` — the slots of all placements, clamped.
-/

namespace SlotAuction

structure Placement where
  id : String
  wanted : UInt64
  deriving DecidableEq

namespace Placement

def locate (placements : List Placement) (id : String) : Option Nat :=
  placements.findIdx? fun p => p.id == id

theorem locate_lt {placements : List Placement} {id : String} {position : Nat}
    (found : locate placements id = some position) : position < placements.length :=
  (List.findIdx?_eq_some_iff_findIdx_eq.mp found).1

theorem locate_isSome (placements : List Placement) (id : String) :
    (locate placements id).isSome = placements.any fun p => p.id == id :=
  List.findIdx?_isSome

def totalWanted (placements : List Placement) : UInt64 :=
  Word.sumClamped (placements.map wanted)

end Placement

/-! ## Requests -/

/-- One impression of a page view, with the number of ads that it has room for. -/
structure Impression where
  id : String
  count : UInt64
  deriving DecidableEq

structure Request where
  impressions : List Impression
  deriving DecidableEq

namespace Request

/-- One placement for each impression, in order. -/
def placements (r : Request) : List Placement :=
  r.impressions.map fun i => ⟨i.id, i.count⟩

end Request
end SlotAuction
