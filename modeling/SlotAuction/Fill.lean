import SlotAuction.Candidate.Basic
import SlotAuction.Tally

/-!
# Fill — the greedy walk over a ranked pool

Candidates are taken up in the order of the pool, and each is awarded at once if there is room.  A
single takes one slot of the placement that it names; a bundle takes a slot for each part, and is
booked only if every placement has room for all the parts that name it.

* `Ledger` — what is booked, and how many slots are still open in all;
* `Ledger.offer` — offers room to one candidate;
* `Fill` — the winners of the walk, and the tail that it left when no slot was open any more.
-/

namespace SlotAuction

/-! ## Booking a bundle -/

/-- What came of an attempt to book a bundle. -/
structure Booking where
  accepted : Bool
  fills : Tally
  deltas : Tally

namespace Booking

/-- How many parts name a placement that there is. -/
def located (placements : List Placement) (parts : List Candidate) : Nat :=
  parts.countP fun part => (Placement.locate placements part.placement).isSome

/-- Adds one for each part, at the position of the placement that the part names. -/
def countParts (placements : List Placement) : List Candidate → Tally → Tally
  | [], deltas => deltas
  | part :: parts, deltas =>
      match Placement.locate placements part.placement with
      | some position => countParts placements parts (Tally.increment deltas position 1)
      | none => countParts placements parts deltas

/-- Books a slot for each part, or none.  A bundle is refused if it says that it has no parts, or
another number than the parts that name a placement. -/
def ofBundle (placements : List Placement) (b : Bundle) (fills deltas : Tally) : Booking :=
  if b.count = 0 then ⟨false, fills, deltas⟩
  else
    -- The deltas of an earlier bundle are cleared away here and nowhere else.
    let deltas := countParts placements b.parts (Tally.clearTo deltas placements.length)
    if located placements b.parts = b.count.toNat then
      let committed := Tally.commit fills deltas placements
      ⟨committed.1, committed.2, deltas⟩
    else ⟨false, fills, deltas⟩

end Booking

/-! ## The ledger -/

/-- The state of the walk.  `bundleSkipped` records that a bundle was larger than the number of
slots that were still open. -/
structure Ledger where
  openSlots : UInt64
  bundleSkipped : Bool
  fills : Tally
  deltas : Tally

namespace Ledger

/-- Nothing is booked yet; the counts of `fills` are cleared, those of `deltas` are left. -/
def start (placements : List Placement) (fills deltas : Tally) : Ledger where
  openSlots := Placement.totalWanted placements
  bundleSkipped := false
  fills := Tally.clearTo fills placements.length
  deltas := deltas

def offerSingle (ledger : Ledger) (placements : List Placement) (id : String) : Bool × Ledger :=
  match Placement.locate placements id with
  | none => (false, ledger)
  | some position =>
      if Tally.hasRoom ledger.fills placements position then
        (true, { ledger with
          openSlots := ledger.openSlots - 1
          fills := Tally.increment ledger.fills position 1 })
      else (false, ledger)

def offerBundle (ledger : Ledger) (placements : List Placement) (b : Bundle) : Bool × Ledger :=
  if ledger.openSlots < b.count then (false, { ledger with bundleSkipped := true })
  else
    let booking := Booking.ofBundle placements b ledger.fills ledger.deltas
    (booking.accepted, { ledger with
      openSlots := if booking.accepted then ledger.openSlots - b.count else ledger.openSlots
      fills := booking.fills
      deltas := booking.deltas })

/-- Books the candidate if there is room for it, and says whether it did. -/
def offer (ledger : Ledger) (placements : List Placement) (c : Candidate) : Bool × Ledger :=
  match c.bundle? with
  | none => ledger.offerSingle placements c.placement
  | some b => ledger.offerBundle placements b

end Ledger

/-! ## The walk -/

structure Fill where
  /-- The candidates that were booked, in the order of the pool. -/
  winners : List Candidate
  /-- What was not taken up any more, if a bundle was skipped before. -/
  tail? : Option (List Candidate)
  ledger : Ledger

namespace Fill

/-- Walks on with a ledger, and stops once no slot is open. -/
def walk (placements : List Placement) : List Candidate → Ledger → Fill
  | [], ledger => ⟨[], none, ledger⟩
  | c :: rest, ledger =>
      if ledger.openSlots < 1 then
        ⟨[], if ledger.bundleSkipped then some (c :: rest) else none, ledger⟩
      else
        let offered := ledger.offer placements c
        let later := walk placements rest offered.2
        if offered.1 then { later with winners := c :: later.winners } else later

def ofPool (placements : List Placement) (pool : List Candidate) (fills deltas : Tally) : Fill :=
  walk placements pool (Ledger.start placements fills deltas)

/-- The slots that are taken, as the open slots tell. -/
def usedSlots (fill : Fill) (placements : List Placement) : UInt64 :=
  Placement.totalWanted placements - fill.ledger.openSlots

theorem walk_winners_sublist (placements : List Placement) (pool : List Candidate)
    (ledger : Ledger) : (walk placements pool ledger).winners.Sublist pool := by
  induction pool generalizing ledger with
  | nil => exact .slnil
  | cons c rest ih =>
      unfold walk
      dsimp only
      split
      · exact List.nil_sublist _
      · split
        · exact (ih _).cons_cons c
        · exact (ih _).cons c

end Fill
end SlotAuction
