import SlotAuction.Proofs.Shelves

/-!
# Anonymity — an award goes by what is bid for, and not by who bids

Two candidates that differ in their ids are the same to an auction, and so are two bundles whose parts
differ in anything but placement and bid.  To say so, all of that is struck out:

* `Candidate.Twins` — candidates that differ in nothing else;
* `Candidate.anonymous` — the candidate with all of it struck out, which is the same for twins
  (`Candidate.twins_iff`);
* `Fill.walk_anonymous`, `Exchange.walk_anonymous`, `Award.fresh_anonymous` — to strike it out before
  a fill, an exchange or an award is to strike it out afterwards;
* `Outcome.ofWinners_congr` — the outcome does not show it.
-/

namespace SlotAuction

open Outcome (awardedSlots)

/-! ## Candidates -/

/-- A candidate of one slot, about which nothing else is known. -/
def Candidate.ofSlot (slot : Candidate.Slot) : Candidate :=
  .partnerAd "" slot.1 slot.2 none

namespace Bundle

/-- The count, and placement and bid of every part, in the order of the parts. -/
def shape (b : Bundle) : UInt64 × List Candidate.Slot :=
  (b.count, b.parts.map Candidate.slot)

def anonymous (b : Bundle) : Bundle where
  count := b.count
  parts := b.parts.map fun part => .ofSlot part.slot

theorem shape_anonymous (b : Bundle) : b.anonymous.shape = b.shape := by
  unfold shape anonymous
  rw [List.map_map]
  rfl

end Bundle

namespace Candidate

/-- The candidates differ at most in ids, and their parts in what they are besides placement and
bid. -/
structure Twins (a b : Candidate) : Prop where
  placement : a.placement = b.placement
  bid : a.bid = b.bid
  capacity : a.capacity = b.capacity
  /-- Both are singles, or bundles of one count with parts of the same placements and bids. -/
  shape : a.bundle?.map Bundle.shape = b.bundle?.map Bundle.shape

instance (a b : Candidate) : Decidable (Twins a b) :=
  decidable_of_iff
    (a.placement = b.placement ∧ a.bid = b.bid ∧ a.capacity = b.capacity ∧
      a.bundle?.map Bundle.shape = b.bundle?.map Bundle.shape)
    ⟨fun h => ⟨h.1, h.2.1, h.2.2.1, h.2.2.2⟩,
      fun h => ⟨h.placement, h.bid, h.capacity, h.shape⟩⟩

/-- The candidate that is known by placement, bid, capacity and shape alone. -/
def anonymous (c : Candidate) : Candidate :=
  match c.bundle?.map Bundle.shape with
  | none => .partnerAd "" c.placement c.bid (some c.capacity)
  | some (count, slots) =>
      .partnerBundle "" c.placement c.bid (slots.map ofSlot) (some count) (some c.capacity)

variable {a b c : Candidate}

@[simp] theorem bundle?_anonymous (c : Candidate) :
    c.anonymous.bundle? = c.bundle?.map Bundle.anonymous := by
  unfold anonymous
  cases c.bundle? with
  | none => rfl
  | some b =>
      show some (Bundle.mk b.count ((b.parts.map slot).map ofSlot)) = some b.anonymous
      rw [List.map_map]
      rfl

@[simp] theorem placement_anonymous (c : Candidate) : c.anonymous.placement = c.placement := by
  unfold anonymous
  split <;> rfl

@[simp] theorem bid_anonymous (c : Candidate) : c.anonymous.bid = c.bid := by
  unfold anonymous
  split <;> rfl

@[simp] theorem capacity_anonymous (c : Candidate) : c.anonymous.capacity = c.capacity := by
  unfold anonymous
  split <;> rfl

@[simp] theorem isBundle_anonymous (c : Candidate) : c.anonymous.isBundle = c.isBundle := by
  simp [isBundle]

@[simp] theorem isSingle_anonymous (c : Candidate) : c.anonymous.isSingle = c.isSingle := by
  simp [isSingle]

@[simp] theorem perSlotValue_anonymous (c : Candidate) :
    c.anonymous.perSlotValue = c.perSlotValue := by
  simp [perSlotValue]

theorem slots_anonymous (c : Candidate) : c.anonymous.slots = c.slots := by
  unfold slots
  rw [bundle?_anonymous]
  cases c.bundle? with
  | none => simp [slot]
  | some b => exact congrArg Prod.snd b.shape_anonymous

/-- Twins are those who are one candidate with all struck out in which twins may differ. -/
theorem twins_iff : Twins a b ↔ a.anonymous = b.anonymous := by
  constructor
  · intro h
    unfold anonymous
    rw [h.shape, h.placement, h.bid, h.capacity]
  · intro h
    have hshape (c : Candidate) :
        c.anonymous.bundle?.map Bundle.shape = c.bundle?.map Bundle.shape := by
      rw [bundle?_anonymous, Option.map_map]
      exact congrArg (c.bundle?.map ·) (funext Bundle.shape_anonymous)
    refine ⟨?_, ?_, ?_, ?_⟩
    · rw [← placement_anonymous a, h, placement_anonymous]
    · rw [← bid_anonymous a, h, bid_anonymous]
    · rw [← capacity_anonymous a, h, capacity_anonymous]
    · rw [← hshape a, h, hshape]

theorem forall₂_twins_iff {cs ds : List Candidate} :
    List.Forall₂ Twins cs ds ↔ cs.map anonymous = ds.map anonymous := by
  rw [← List.forall₂_eq_eq_eq, List.forall₂_map_left_iff, List.forall₂_map_right_iff]
  constructor
  · intro h
    exact h.imp fun _ _ => twins_iff.mp
  · intro h
    exact h.imp fun _ _ => twins_iff.mpr

/-! ### Orders -/

theorem fillOrder_anonymous (a b : Candidate) :
    fillOrder a.anonymous b.anonymous = fillOrder a b := by
  have hshape : shapeOrder a.anonymous b.anonymous = shapeOrder a b := by
    unfold shapeOrder
    rw [bundle?_anonymous, bundle?_anonymous]
    cases a.bundle? <;> cases b.bundle? <;> rfl
  rw [fillOrder, fillOrder, hshape, perSlotValue_anonymous, perSlotValue_anonymous]

theorem exchangeOrder_anonymous (a b : Candidate) :
    exchangeOrder a.anonymous b.anonymous = exchangeOrder a b := by
  simp [exchangeOrder, kindOrder]

theorem sortForExchange_anonymous (cs : List Candidate) :
    sortForExchange (cs.map anonymous) = (sortForExchange cs).map anonymous := by
  refine (List.map_mergeSort fun a _ b _ => ?_).symm
  rw [exchangeOrder_anonymous]

theorem totalCapacity_anonymous (cs : List Candidate) :
    totalCapacity (cs.map anonymous) = totalCapacity cs := by
  unfold totalCapacity
  rw [List.map_map]
  congr 1
  exact List.map_congr_left fun c _ => capacity_anonymous c

theorem bids_anonymous (cs : List Candidate) : (cs.map anonymous).map bid = cs.map bid := by
  rw [List.map_map]
  exact List.map_congr_left fun c _ => bid_anonymous c

end Candidate

open Candidate (anonymous)

/-! ## Fills -/

section

variable (placements : List Placement)

theorem Booking.countParts_anonymous (parts : List Candidate) (deltas : Tally) :
    countParts placements (parts.map fun part => .ofSlot part.slot) deltas =
      countParts placements parts deltas := by
  induction parts generalizing deltas with
  | nil => rfl
  | cons part parts ih =>
      have hplacement : (Candidate.ofSlot part.slot).placement = part.placement := rfl
      rw [List.map_cons, countParts, countParts, hplacement]
      cases Placement.locate placements part.placement with
      | none => exact ih deltas
      | some position => exact ih _

theorem Booking.ofBundle_anonymous (b : Bundle) (fills deltas : Tally) :
    ofBundle placements b.anonymous fills deltas = ofBundle placements b fills deltas := by
  have hlocated : located placements b.anonymous.parts = located placements b.parts :=
    List.countP_map
  have hcount : b.anonymous.count = b.count := rfl
  unfold ofBundle
  rw [hlocated, hcount]
  unfold Bundle.anonymous
  rw [countParts_anonymous]

/-- An offer is answered and booked alike. -/
theorem Ledger.offer_anonymous (ledger : Ledger) (c : Candidate) :
    ledger.offer placements c.anonymous = ledger.offer placements c := by
  unfold Ledger.offer
  rw [Candidate.bundle?_anonymous, Candidate.placement_anonymous]
  cases c.bundle? with
  | none => rfl
  | some b =>
      have hcount : b.anonymous.count = b.count := rfl
      show ledger.offerBundle placements b.anonymous = ledger.offerBundle placements b
      unfold Ledger.offerBundle
      rw [Booking.ofBundle_anonymous, hcount]

def Fill.anonymous (fill : Fill) : Fill where
  winners := fill.winners.map Candidate.anonymous
  tail? := fill.tail?.map (List.map Candidate.anonymous)
  ledger := fill.ledger

theorem Fill.walk_anonymous (pool : List Candidate) (ledger : Ledger) :
    walk placements (pool.map Candidate.anonymous) ledger =
      (walk placements pool ledger).anonymous := by
  induction pool generalizing ledger with
  | nil => rfl
  | cons c rest ih =>
      by_cases hclosed : ledger.openSlots < 1
      · rw [List.map_cons, walk_of_closed hclosed, walk_of_closed hclosed]
        cases hskipped : ledger.bundleSkipped with
        | false => rfl
        | true => rfl
      · rw [List.map_cons, walk_of_open hclosed, walk_of_open hclosed, Ledger.offer_anonymous, ih]
        cases (ledger.offer placements c).1 with
        | false => rfl
        | true => rfl

theorem Fill.fresh_anonymous (pool : List Candidate) :
    fresh placements (pool.map Candidate.anonymous) = (fresh placements pool).anonymous :=
  walk_anonymous placements pool _

end

/-! ## Exchanges -/

namespace Marks

variable (tail : List Candidate)

theorem firstFree_anonymous (taken : List Bool) (placement : String) :
    firstFree (tail.map anonymous) taken placement = firstFree tail taken placement := by
  unfold firstFree
  rw [List.zip_map_left, List.findIdx?_map]
  congr 1
  funext entry
  simp

theorem search_anonymous (parts : List Candidate) (marks : Marks) :
    search (tail.map anonymous) (parts.map fun part => .ofSlot part.slot) marks =
      search tail parts marks := by
  induction parts generalizing marks with
  | nil => rfl
  | cons part parts ih =>
      have hplacement : (Candidate.ofSlot part.slot).placement = part.placement := rfl
      rw [List.map_cons, search, search, hplacement, firstFree_anonymous]
      cases firstFree tail marks.taken.cells part.placement with
      | none => exact ih marks
      | some position => exact ih _

theorem cover_anonymous (b : Bundle) (marks : Marks) :
    cover (tail.map anonymous) b.anonymous marks = cover tail b marks := by
  have hsearch : search (tail.map anonymous) b.anonymous.parts marks = search tail b.parts marks :=
    search_anonymous tail b.parts marks
  have hcount : b.anonymous.count = b.count := rfl
  unfold cover
  rw [hsearch, hcount]

theorem covering_anonymous (marks : Marks) :
    covering (tail.map anonymous) marks = (covering tail marks).map anonymous := by
  unfold covering
  rw [List.map_filterMap]
  refine List.filterMap_congr fun position _ => ?_
  exact List.getElem?_map ..

end Marks

namespace Exchange

def anonymous (e : Exchange) : Exchange where
  kept := e.kept.map Candidate.anonymous
  added := e.added.map Candidate.anonymous
  replaced := e.replaced
  marks := e.marks

theorem winners_anonymous (e : Exchange) :
    e.anonymous.winners = e.winners.map Candidate.anonymous :=
  List.map_append.symm

theorem replace_anonymous (standIn : Candidate) (others : List Candidate) (later : Exchange) :
    (replace standIn others later).anonymous =
      replace standIn.anonymous (others.map Candidate.anonymous) later.anonymous := by
  simp [replace, anonymous]

theorem walk_anonymous (tail winners : List Candidate) (available : Nat) (marks : Marks) :
    walk (tail.map Candidate.anonymous) (winners.map Candidate.anonymous) available marks =
      (walk tail winners available marks).anonymous := by
  induction winners generalizing available marks with
  | nil => rfl
  | cons winner rest ih =>
      have hkeep (available : Nat) (marks : Marks) :
          keep winner.anonymous (walk (tail.map Candidate.anonymous)
              (rest.map Candidate.anonymous) available marks) =
            (keep winner (walk tail rest available marks)).anonymous :=
        congrArg (keep winner.anonymous) (ih available marks)
      rw [List.map_cons, walk, walk, Candidate.bundle?_anonymous]
      by_cases hnone : available = 0
      · rw [if_pos hnone, if_pos hnone]
        rfl
      · rw [if_neg hnone, if_neg hnone]
        cases winner.bundle? with
        | none => rfl
        | some b =>
            have hcount : b.anonymous.count = b.count := rfl
            dsimp only [Option.map_some]
            rw [hcount]
            by_cases hlarge : available < b.count.toNat
            · rw [if_pos hlarge, if_pos hlarge]
              exact hkeep available marks
            · rw [if_neg hlarge, if_neg hlarge, Marks.cover_anonymous, Marks.covering_anonymous]
              generalize Marks.cover tail b ⟨marks.taken, marks.found.clear⟩ = tried
              -- The same stand-ins are found, so both walks replace the bundle or both keep it.
              cases tried.1 with
              | false => exact hkeep available tried.2
              | true =>
                  cases Marks.covering tail tried.2 with
                  | nil => exact hkeep available tried.2
                  | cons standIn others =>
                      dsimp only [List.map_cons]
                      rw [replace_anonymous, ← ih]
                      rfl

theorem ofFill_anonymous (tail winners : List Candidate) (taken : Buffer Bool)
    (found : Buffer Nat) :
    ofFill (tail.map Candidate.anonymous) (winners.map Candidate.anonymous) taken found =
      (ofFill tail winners taken found).anonymous := by
  unfold ofFill
  rw [Candidate.sortForExchange_anonymous, List.length_map, walk_anonymous]

end Exchange

/-! ## Awards -/

namespace Award

def anonymous (award : Award) : Award where
  winners := award.winners.map Candidate.anonymous
  replaced := award.replaced

theorem agree_of_anonymous {award award' : Award} (h : award'.anonymous = award.anonymous) :
    award'.winners.map Candidate.anonymous = award.winners.map Candidate.anonymous ∧
      award'.replaced = award.replaced :=
  Award.mk.inj h

theorem ofExchange_anonymous (e : Exchange) : ofExchange e.anonymous = (ofExchange e).anonymous := by
  unfold ofExchange
  rw [Exchange.winners_anonymous]
  rfl

/-- The award of a pool in which nobody is known is the award of the pool, with nobody known. -/
theorem fresh_anonymous (settings : Settings) (pool : List Candidate)
    (placements : List Placement) :
    fresh settings (pool.map Candidate.anonymous) placements =
      (fresh settings pool placements).anonymous := by
  -- An exchange depends on the slots in use and on the capacities, where nobody is known anyway.
  have hgate : exchanges settings (pool.map Candidate.anonymous) placements
        (Fill.fresh placements pool).anonymous =
      exchanges settings pool placements (Fill.fresh placements pool) := by
    unfold exchanges
    rw [Candidate.totalCapacity_anonymous]
    rfl
  rw [fresh, fresh, ofPool_fst, ofPool_fst, Fill.fresh_anonymous, hgate]
  unfold Fill.anonymous
  cases (Fill.fresh placements pool).tail? with
  | none => rfl
  | some tail =>
      dsimp only [Option.map_some]
      rw [Exchange.ofFill_anonymous, ofExchange_anonymous]
      cases exchanges settings pool placements (Fill.fresh placements pool) with
      | false => rfl
      | true => rfl

end Award

/-! ## Outcomes -/

theorem awardedSlots_anonymous (cs : List Candidate) :
    awardedSlots (cs.map anonymous) = awardedSlots cs := by
  unfold Outcome.awardedSlots
  rw [List.flatMap_map]
  exact List.flatMap_congr fun c _ => c.slots_anonymous

/-- Of the pool an outcome shows how many there are, and of the winners what twins have in common. -/
theorem Outcome.ofWinners_congr (placements : List Placement)
    {pool others winners winners' : List Candidate} (hpool : others.length = pool.length)
    (h : winners'.map anonymous = winners.map anonymous) (exchanged : Nat) :
    ofWinners placements others winners' exchanged =
      ofWinners placements pool winners exchanged := by
  have hlength : winners'.length = winners.length := by
    simpa using congrArg List.length h
  have hcapacity : Candidate.totalCapacity winners' = Candidate.totalCapacity winners := by
    rw [← Candidate.totalCapacity_anonymous, h, Candidate.totalCapacity_anonymous]
  have hbids : winners'.map Candidate.bid = winners.map Candidate.bid := by
    rw [← Candidate.bids_anonymous, h, Candidate.bids_anonymous]
  have hslots : awardedSlots winners' = awardedSlots winners := by
    rw [← awardedSlots_anonymous, h, awardedSlots_anonymous]
  unfold ofWinners slotRoot rootMessage
  rw [hpool, hlength, hcapacity, hbids, hslots]

end SlotAuction
