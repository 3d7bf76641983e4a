import Mathlib.Data.List.GetD
import SlotAuction.Proofs.Award

/-!
# Counter — the count of open slots decides nothing

A ledger counts the slots that are still open, stops a fill when there are none, and passes over bundles
that count more.  Books without that count, which try every candidate of the pool against the tallies
alone, come to the same winners and the same tallies: whoever is placeable claims no more than is open.

* `Books`, `Books.walk` — the plain walk, which never stops;
* `Books.offer_iff`, `Books.offer_cells` — one offer, beside the same offer to a ledger;
* `Books.walk_of_closed` — once no slot is open, the plain walk books nothing any more;
* `Fill.ledgers` — the ledgers that a walk goes through;
* `Ledger.Accounts.toNat_total` — the tallies of a right ledger add up to the slots that landed;
* `Fill.walk_matches_plain`, `Fill.counter_is_shortcut` — the two walks agree, and open and filled slots
  together are always the total.
-/

namespace SlotAuction

open Outcome (awardedSlots)
open Placement (landing landed locate totalWanted)

/-! ## The plain walk -/

/-- What a fill keeps if it does not count the open slots. -/
structure Books where
  fills : Tally
  deltas : Tally

namespace Books

def start (placements : List Placement) (fills deltas : Tally) : Books where
  fills := Tally.clearTo fills placements.length
  deltas := deltas

/-- A single is booked if its placement has room, and a bundle if its parts have. -/
def offer (books : Books) (placements : List Placement) (c : Candidate) : Bool × Books :=
  match c.bundle? with
  | none =>
      match locate placements c.placement with
      | none => (false, books)
      | some position =>
          if Tally.hasRoom books.fills placements position then
            (true, { books with fills := Tally.increment books.fills position 1 })
          else (false, books)
  | some b =>
      let booking := Booking.ofBundle placements b books.fills books.deltas
      (booking.accepted, ⟨booking.fills, booking.deltas⟩)

/-- Every candidate is tried. -/
def walk (placements : List Placement) : List Candidate → Books → List Candidate × Books
  | [], books => ([], books)
  | c :: rest, books =>
      let offered := books.offer placements c
      let later := walk placements rest offered.2
      (if offered.1 then c :: later.1 else later.1, later.2)

section

variable {placements : List Placement} {books : Books} {ledger : Ledger} {won pool : List Candidate}
  {c : Candidate}

theorem fills_of_refused (h : (books.offer placements c).1 = false) :
    (books.offer placements c).2.fills = books.fills := by
  unfold offer at h ⊢
  cases hc : c.bundle? with
  | none =>
      rw [hc] at h
      cases hfound : locate placements c.placement with
      | none => rfl
      | some position =>
          by_cases hroom : Tally.hasRoom books.fills placements position = true
          · simp [hfound, hroom] at h
          · simp [hroom]
  | some b =>
      rw [hc] at h
      exact Booking.fills_of_refused h

/-- The answer to an offer is that of the plain rule; the tallies alone decide it. -/
theorem offer_iff (h : ledger.Accounts placements won)
    (hsame : books.fills.cells = ledger.fills.cells)
    (hfew : (awardedSlots (won ++ [c])).length < 2 ^ 64) :
    (books.offer placements c).1 = true ↔ Placeable placements won c := by
  -- A ledger with these tallies is right too.
  have hbooks : Ledger.Accounts placements
      { ledger with fills := books.fills, deltas := books.deltas } won := by
    refine ⟨fun position => ?_, h.within, h.slots⟩
    rw [← h.fills position]
    exact congrArg UInt64.toNat (Tally.get_congr hsame position)
  unfold offer
  cases hc : c.bundle? with
  | none =>
      have hiff := hbooks.offerSingle_iff hc
      unfold Ledger.offerSingle at hiff
      cases hfound : locate placements c.placement with
      | none =>
          rw [hfound] at hiff
          exact hiff
      | some position =>
          rw [hfound] at hiff
          by_cases hroom : Tally.hasRoom books.fills placements position = true
          · simpa [hroom] using hiff
          · simpa [hroom] using hiff
  | some b => exact hbooks.booking_iff hc (hbooks.small hc hfew)

/-- If a ledger with the same counts gives the same answer, the counts are the same afterwards. -/
theorem offer_cells (hsame : books.fills.cells = ledger.fills.cells)
    (hanswer : (books.offer placements c).1 = (ledger.offer placements c).1) :
    (books.offer placements c).2.fills.cells = (ledger.offer placements c).2.fills.cells := by
  cases hc : c.bundle? with
  | none =>
      simp only [offer, Ledger.offer, Ledger.offerSingle, hc]
      cases locate placements c.placement with
      | none => exact hsame
      | some position =>
          simp only [Tally.hasRoom_congr hsame]
          split
          · exact Tally.cells_increment hsame position 1
          · exact hsame
  | some b =>
      by_cases hskip : ledger.openSlots < b.count
      · -- The ledger does not look at the parts of the bundle, so the books must have refused it.
        have hpassed : ledger.offer placements c = (false, { ledger with bundleSkipped := true }) := by
          simp only [Ledger.offer, Ledger.offerBundle, hc, if_pos hskip]
        rw [hpassed] at hanswer ⊢
        rw [fills_of_refused hanswer]
        exact hsame
      · simp only [offer, Ledger.offer, Ledger.offerBundle, hc, if_neg hskip]
        exact (Booking.ofBundle_congr placements hsame b books.deltas ledger.deltas).2

/-- Once no slot is open, nobody is placeable, so the plain walk goes on to no effect. -/
theorem walk_of_closed (h : ledger.Accounts placements won)
    (hsame : books.fills.cells = ledger.fills.cells) (hclosed : ledger.openSlots < 1)
    (hfew : (awardedSlots (won ++ pool)).length < 2 ^ 64) :
    (walk placements pool books).1 = [] ∧
      (walk placements pool books).2.fills.cells = ledger.fills.cells := by
  -- The ledger and its winners stay the same; only the deltas of the books still change.
  induction pool generalizing books with
  | nil => exact ⟨rfl, hsame⟩
  | cons c rest ih =>
      have hone := Fill.few_slots_of_mem (List.mem_cons_self ..) hfew
      have hrefused : (books.offer placements c).1 = false := by
        apply Bool.eq_false_of_not_eq_true
        intro hyes
        exact h.open_of_placeable hone ((offer_iff h hsame hone).mp hyes) hclosed
      have hnext : (books.offer placements c).2.fills.cells = ledger.fills.cells := by
        rw [fills_of_refused hrefused]
        exact hsame
      have hlater := ih hnext (Fill.few_slots_of_cons hfew)
      simp only [walk, hrefused]
      exact hlater

end

end Books

/-! ## Two walks side by side -/

namespace Fill

variable {placements : List Placement} {ledger : Ledger} {books : Books} {won pool : List Candidate}

/-- From a right ledger, and books with the same counts: the walk that stops and the one that does not
have the same winners, and the same counts at the end. -/
theorem walk_matches_plain (h : ledger.Accounts placements won)
    (hsame : books.fills.cells = ledger.fills.cells)
    (hfew : (awardedSlots (won ++ pool)).length < 2 ^ 64) :
    (walk placements pool ledger).winners = (Books.walk placements pool books).1 ∧
      (walk placements pool ledger).ledger.fills.cells =
        (Books.walk placements pool books).2.fills.cells := by
  induction pool generalizing ledger books won with
  | nil => exact ⟨rfl, hsame.symm⟩
  | cons c rest ih =>
      by_cases hclosed : ledger.openSlots < 1
      · -- The ledger stops here, and the books find nobody placeable in the rest.
        have hplain := Books.walk_of_closed h hsame hclosed hfew
        rw [walk_of_closed hclosed, hplain.1, hplain.2]
        exact ⟨rfl, rfl⟩
      · -- Both answer as the plain rule does, and book the same.
        have hone := few_slots_of_mem (List.mem_cons_self ..) hfew
        have hanswer : (books.offer placements c).1 = (ledger.offer placements c).1 :=
          Bool.eq_iff_iff.mpr ((Books.offer_iff h hsame hone).trans (h.offer_iff hone).symm)
        have hnext := Books.offer_cells hsame hanswer
        have haccounts := h.offer hclosed (c := c)
        rw [walk_of_open hclosed]
        simp only [Books.walk, hanswer]
        cases hyes : (ledger.offer placements c).1 with
        | true =>
            rw [hyes, if_pos rfl] at haccounts
            have hfew' : (awardedSlots ((won ++ [c]) ++ rest)).length < 2 ^ 64 := by
              rw [List.append_assoc]
              exact hfew
            have hlater := ih haccounts hnext hfew'
            exact ⟨congrArg (c :: ·) hlater.1, hlater.2⟩
        | false =>
            rw [hyes] at haccounts
            exact ih haccounts hnext (few_slots_of_cons hfew)

/-! ## Open slots and filled ones -/

/-- The ledgers that a walk goes through, with the first and the last. -/
def ledgers (placements : List Placement) : List Candidate → Ledger → List Ledger
  | [], ledger => [ledger]
  | c :: rest, ledger =>
      if ledger.openSlots < 1 then [ledger]
      else ledger :: ledgers placements rest (ledger.offer placements c).2

theorem getLast_ledgers (placements : List Placement) (pool : List Candidate) (ledger : Ledger) :
    (ledgers placements pool ledger).getLast? = some (walk placements pool ledger).ledger := by
  induction pool generalizing ledger with
  | nil => rfl
  | cons c rest ih =>
      by_cases hclosed : ledger.openSlots < 1
      · rw [ledgers, if_pos hclosed, walk_of_closed hclosed]
        rfl
      · have hlater := ih (ledger.offer placements c).2
        rw [ledgers, if_neg hclosed, List.getLast?_cons, hlater, walk_of_open hclosed]
        cases (ledger.offer placements c).1 with
        | true => rfl
        | false => rfl

/-- Every ledger of a walk is right about what was won until then. -/
theorem accounts_of_mem_ledgers (h : ledger.Accounts placements won) {l : Ledger}
    (hl : l ∈ ledgers placements pool ledger) : ∃ later, l.Accounts placements later := by
  induction pool generalizing ledger won with
  | nil =>
      rw [List.mem_singleton.mp hl]
      exact ⟨won, h⟩
  | cons c rest ih =>
      unfold ledgers at hl
      by_cases hclosed : ledger.openSlots < 1
      · rw [if_pos hclosed] at hl
        rw [List.mem_singleton.mp hl]
        exact ⟨won, h⟩
      · rw [if_neg hclosed] at hl
        rcases List.mem_cons.mp hl with hfirst | hlater
        · rw [hfirst]
          exact ⟨won, h⟩
        · exact ih (h.offer hclosed) hlater

end Fill

namespace Tally

theorem toNat_total (t : Tally) :
    (total t).toNat = (∑ p ∈ Finset.range t.cells.length, (get t p).toNat) % 2 ^ 64 := by
  unfold total get
  induction t.cells with
  | nil => rfl
  | cons count counts ih =>
      rw [List.length_cons, Finset.sum_range_succ']
      simp only [List.getD_cons_succ, List.getD_cons_zero]
      calc ((count :: counts).sum).toNat
          = (count.toNat + counts.sum.toNat) % 2 ^ 64 := by
            rw [List.sum_cons, UInt64.toNat_add]
        _ = _ := by
            rw [ih]
            omega

end Tally

namespace Placement

variable {placements : List Placement}

theorem landing_eq_zero {position : Nat} (h : placements.length ≤ position) (cs : List Candidate) :
    landing placements position cs = 0 := by
  apply List.countP_eq_zero.mpr
  intro slot _ hfound
  exact absurd (locate_lt (beq_iff_eq.mp hfound)) (Nat.not_lt.mpr h)

end Placement

/-- The counts of a right ledger add up to the slots that landed anywhere, at whatever position they
end. -/
theorem Ledger.Accounts.toNat_total {placements : List Placement} {ledger : Ledger}
    {won : List Candidate} (h : ledger.Accounts placements won) :
    (Tally.total ledger.fills).toNat = landed placements won := by
  -- Past the end of the counts nothing is booked, and past the last placement nothing lands, so the sum may
  -- go as far as either.
  have hbooked : ∀ p ≥ ledger.fills.cells.length, landing placements p won = 0 := by
    intro p hp
    rw [← h.fills p, Tally.get, List.getD_eq_default _ _ hp]
    rfl
  have hplaced : ∀ p ≥ placements.length, landing placements p won = 0 := fun p hp =>
    Placement.landing_eq_zero hp won
  have hsum : ∑ p ∈ Finset.range ledger.fills.cells.length, (Tally.get ledger.fills p).toNat =
      landed placements won := by
    calc ∑ p ∈ Finset.range ledger.fills.cells.length, (Tally.get ledger.fills p).toNat
        = ∑ p ∈ Finset.range ledger.fills.cells.length, landing placements p won :=
          Finset.sum_congr rfl fun p _ => h.fills p
      _ = ∑ p ∈ Finset.range (ledger.fills.cells.length + placements.length),
            landing placements p won :=
          (Finset.eventually_constant_sum hbooked (Nat.le_add_right ..)).symm
      _ = ∑ p ∈ Finset.range placements.length, landing placements p won :=
          Finset.eventually_constant_sum hplaced (Nat.le_add_left ..)
      _ = landed placements won := by
          rw [Finset.sum_range, Placement.landed_eq_sum]
  have hslots := h.slots
  have htotal := (totalWanted placements).toNat_lt
  rw [Tally.toNat_total, hsum]
  exact Nat.mod_eq_of_lt (by omega)

namespace Fill

/-- For every pool with fewer slots than there are words, whatever its partners claim, and any placements
and buffers: the fill has the winners and the counts of the plain walk over the whole pool, which does
not count open slots.  And in every ledger from the first to the last that the fill ends with, the open
slots and the total of the counts are the slots that are wanted. -/
theorem counter_is_shortcut (placements : List Placement) (pool : List Candidate)
    (fills deltas fills' deltas' : Tally) (hfew : (awardedSlots pool).length < 2 ^ 64) :
    let fill := ofPool placements pool fills deltas
    let plain := Books.walk placements pool (Books.start placements fills' deltas')
    let states := ledgers placements pool (Ledger.start placements fills deltas)
    fill.winners = plain.1 ∧ fill.ledger.fills.cells = plain.2.fills.cells ∧
      states.getLast? = some fill.ledger ∧
        ∀ ledger ∈ states, ledger.openSlots.toNat + (Tally.total ledger.fills).toNat =
          (totalWanted placements).toNat := by
  intro fill plain states
  have hstart := Ledger.accounts_start placements fills deltas
  have hsame : (Books.start placements fills' deltas').fills.cells =
      (Ledger.start placements fills deltas).fills.cells :=
    Tally.cells_clearTo fills' fills placements.length
  have hwalks := walk_matches_plain hstart hsame hfew
  refine ⟨hwalks.1, hwalks.2, getLast_ledgers placements pool _, ?_⟩
  intro ledger hledger
  obtain ⟨won, haccounts⟩ := accounts_of_mem_ledgers hstart hledger
  rw [haccounts.toNat_total]
  exact haccounts.slots

/-- Here the fill stops after two candidates of five, and the plain walk tries the other three. -/
theorem counter_is_shortcut_of_crowd :
    (awardedSlots Sample.crowd).length < 2 ^ 64 ∧
      (ofPool Sample.page Sample.crowd Buffer.empty Buffer.empty).tail? =
          some (Sample.crowd.drop 2) ∧
        (ofPool Sample.page Sample.crowd Buffer.empty Buffer.empty).winners =
          (Books.walk Sample.page Sample.crowd
            (Books.start Sample.page Buffer.empty Buffer.empty)).1 := by
  have hfew : (awardedSlots Sample.crowd).length < 2 ^ 64 := by decide
  have htail : (ofPool Sample.page Sample.crowd Buffer.empty Buffer.empty).tail? =
      some (Sample.crowd.drop 2) := rfl
  exact ⟨hfew, htail, (counter_is_shortcut Sample.page Sample.crowd Buffer.empty Buffer.empty
    Buffer.empty Buffer.empty hfew).1⟩

end Fill

end SlotAuction
