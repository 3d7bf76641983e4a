import SlotAuction.Proofs.Fill.Greedy

/-!
# Accounts — ledgers that are right about what was won

A ledger accounts for the slots won so far when its tallies count them by placement and its open
slots are what is left of the total.  Every offer keeps that, and is accepted exactly if the plain
rule says so; the number of open slots never decides anything that the tallies do not.

* `Ledger.Accounts` — the invariant, with `accounts_start`;
* `Ledger.Accounts.offer_iff` — an offer is accepted exactly if the candidate is placeable;
* `Ledger.Accounts.offer_iff_of_open` — the same without a bound on the number of slots;
* `Ledger.Accounts.offer` — the ledger after an offer is right again.
-/

namespace SlotAuction

open Outcome (awardedSlots)
open Placement (landing landed Within totalWanted)

/-- The ledger is right about the slots won so far. -/
structure Ledger.Accounts (placements : List Placement) (ledger : Ledger) (won : List Candidate) :
    Prop where
  fills : ∀ position, (Tally.get ledger.fills position).toNat = landing placements position won
  within : Within placements won
  slots : ledger.openSlots.toNat + landed placements won = (totalWanted placements).toNat

namespace Ledger

variable {placements : List Placement} {ledger : Ledger} {won : List Candidate} {c : Candidate}

theorem accounts_start (placements : List Placement) (fills deltas : Tally) :
    Accounts placements (start placements fills deltas) [] where
  fills position := by
    simp [start, Tally.get_clearTo]
  within i := by
    simp
  slots := by
    simp [start]

theorem one_le_of_open (h : ¬ ledger.openSlots < 1) : 1 ≤ ledger.openSlots.toNat :=
  Nat.le_of_not_lt fun hlt => h (UInt64.lt_iff_toNat_lt.mpr hlt)

/-- A placeable candidate never claims more slots than are open. -/
theorem Accounts.claim_le (h : Accounts placements ledger won)
    (hfew : (awardedSlots (won ++ [c])).length < 2 ^ 64) (hc : Placeable placements won c) :
    c.claim ≤ ledger.openSlots.toNat := by
  have hle : landed placements (won ++ [c]) ≤ (totalWanted placements).toNat :=
    hc.within.landed_le hfew
  have hslots := h.slots
  rw [Placement.landed_append, hc.lands] at hle
  omega

/-- As long as somebody is placeable, a slot is open. -/
theorem Accounts.open_of_placeable (h : Accounts placements ledger won)
    (hfew : (awardedSlots (won ++ [c])).length < 2 ^ 64) (hc : Placeable placements won c) :
    ¬ ledger.openSlots < 1 := by
  intro hclosed
  have hnone : ledger.openSlots.toNat < 1 := UInt64.lt_iff_toNat_lt.mp hclosed
  have hclaims := hc.claims
  have hle := h.claim_le hfew hc
  omega

/-! ### Offers to a single -/

theorem Accounts.offerSingle_iff (h : Accounts placements ledger won) (hc : c.bundle? = none) :
    (ledger.offerSingle placements c.placement).1 = true ↔ Placeable placements won c := by
  unfold offerSingle
  cases hfound : Placement.locate placements c.placement with
  | none => simp [not_placeable_of_unlocated hc hfound]
  | some position =>
      have hlt : position < placements.length := Placement.locate_lt hfound
      have hroom : Tally.hasRoom ledger.fills placements position = true ↔
          landing placements position won < placements[position].wanted.toNat := by
        simp [Tally.hasRoom, hlt, UInt64.lt_iff_toNat_lt, h.fills]
      rw [placeable_single_iff h.within hc hfound hlt, ← hroom]
      by_cases hyes : Tally.hasRoom ledger.fills placements position = true
      · simp [hyes]
      · simp [hyes]

/-- A single is turned away without a trace, or takes one slot of its placement. -/
theorem offerSingle_cases (ledger : Ledger) (placements : List Placement) (id : String) :
    ledger.offerSingle placements id = (false, ledger) ∨
      ∃ position, Placement.locate placements id = some position ∧
        ledger.offerSingle placements id =
          (true, { ledger with
            openSlots := ledger.openSlots - 1
            fills := Tally.increment ledger.fills position 1 }) := by
  unfold offerSingle
  cases hfound : Placement.locate placements id with
  | none => exact Or.inl rfl
  | some position =>
      by_cases hyes : Tally.hasRoom ledger.fills placements position = true
      · exact Or.inr ⟨position, rfl, if_pos hyes⟩
      · exact Or.inl (if_neg hyes)

theorem Accounts.offerSingle (h : Accounts placements ledger won) (hc : c.bundle? = none)
    (hopen : ¬ ledger.openSlots < 1) :
    Accounts placements (ledger.offerSingle placements c.placement).2
      (if (ledger.offerSingle placements c.placement).1 then won ++ [c] else won) := by
  have hiff := h.offerSingle_iff hc
  rcases offerSingle_cases ledger placements c.placement with hno | ⟨position, hfound, hyes⟩
  · rw [hno]
    exact h
  · rw [hyes] at hiff ⊢
    have hplace : Placeable placements won c := hiff.mp rfl
    have hopen' : 1 ≤ ledger.openSlots.toNat := one_le_of_open hopen
    rw [if_pos rfl]
    refine ⟨fun other => ?_, hplace.within, ?_⟩
    · have hother := h.fills other
      rw [Tally.get_increment, Placement.landing_append, landing_of_single hc, hfound]
      by_cases hsame : other = position
      · subst hsame
        have hlt : other < placements.length := Placement.locate_lt hfound
        have hroom := hplace.within ⟨other, hlt⟩
        have hbound := placements[other].wanted.toNat_lt
        rw [Placement.landing_append, landing_of_single hc, hfound] at hroom
        simp only [if_pos, Fin.getElem_fin] at hroom
        rw [if_pos rfl, if_pos rfl, UInt64.toNat_add, hother]
        show (_ + 1) % 2 ^ 64 = _
        omega
      · have hsame' : ¬ position = other := fun hs => hsame hs.symm
        simpa [hsame, hsame'] using hother
    · have hslots := h.slots
      have hone : landed placements [c] = 1 := by
        simpa [Candidate.claim_of_single hc] using hplace.lands
      have hless : (ledger.openSlots - 1).toNat = ledger.openSlots.toNat - 1 :=
        UInt64.toNat_sub_of_le _ _ (UInt64.le_iff_toNat_le.mpr hopen')
      rw [Placement.landed_append, hone, hless]
      omega

/-! ### Offers to a bundle -/

section

variable {b : Bundle}

theorem Accounts.small (h : Accounts placements ledger won) (hc : c.bundle? = some b)
    (hfew : (awardedSlots (won ++ [c])).length < 2 ^ 64) (position : Nat) :
    (Tally.get ledger.fills position).toNat + Booking.hits placements b.parts position < 2 ^ 64 := by
  have hle := Placement.landing_le_length placements position (won ++ [c])
  rw [Placement.landing_append, landing_of_bundle hc] at hle
  rw [h.fills]
  omega

/-- A bundle that counts its located parts, and no more of them than slots are open, never makes a
count wrap, however many slots there are: the counts stay within the total. -/
theorem Accounts.small_of_located (h : Accounts placements ledger won)
    (hroom : b.count ≤ ledger.openSlots)
    (hlocated : Booking.located placements b.parts = b.count.toNat) (position : Nat) :
    (Tally.get ledger.fills position).toNat + Booking.hits placements b.parts position < 2 ^ 64 := by
  have hhits := Booking.hits_le_located placements b.parts position
  have hlanding := Placement.landing_le_landed placements position won
  have hopen := UInt64.le_iff_toNat_le.mp hroom
  have hslots := h.slots
  have htotal := (totalWanted placements).toNat_lt
  rw [h.fills]
  omega

theorem Accounts.booking_iff (h : Accounts placements ledger won) (hc : c.bundle? = some b)
    (hsmall : ∀ position,
      (Tally.get ledger.fills position).toNat + Booking.hits placements b.parts position < 2 ^ 64) :
    (Booking.ofBundle placements b ledger.fills ledger.deltas).accepted = true ↔
      Placeable placements won c := by
  rw [Booking.accepted_iff hsmall]
  have hclaim := Candidate.claim_of_bundle hc
  have hland : landed placements [c] = Booking.located placements b.parts := landed_of_bundle hc
  constructor
  · rintro ⟨⟨hcount, hlocated⟩, hroom⟩
    refine ⟨?_, by rw [hland, hclaim, hlocated], fun i => ?_⟩
    · rw [hclaim, Nat.pos_iff_ne_zero]
      exact fun hzero => hcount (UInt64.toNat_inj.mp hzero)
    · have hwithin := h.within i
      rw [Placement.landing_append, landing_of_bundle hc]
      rcases Nat.eq_zero_or_pos (Booking.hits placements b.parts i) with hnone | hhit
      · omega
      · have := hroom i placements[i] (List.getElem?_eq_getElem i.isLt) hhit
        rwa [h.fills] at this
  · intro hplace
    refine ⟨⟨?_, by rw [← hland, ← hclaim, hplace.lands]⟩, fun position p hp _ => ?_⟩
    · rintro hzero
      have := hplace.claims
      simp [hclaim, hzero] at this
    · obtain ⟨hlt, rfl⟩ := List.getElem?_eq_some_iff.mp hp
      have := hplace.within ⟨position, hlt⟩
      rwa [Placement.landing_append, landing_of_bundle hc, ← h.fills] at this

theorem Accounts.offerBundle_iff (h : Accounts placements ledger won) (hc : c.bundle? = some b)
    (hfew : (awardedSlots (won ++ [c])).length < 2 ^ 64) :
    (ledger.offerBundle placements b).1 = true ↔ Placeable placements won c := by
  unfold Ledger.offerBundle
  by_cases hskip : ledger.openSlots < b.count
  · rw [if_pos hskip]
    constructor
    · intro hfalse
      cases hfalse
    · intro hplace
      have hle := h.claim_le hfew hplace
      rw [Candidate.claim_of_bundle hc] at hle
      exact absurd (UInt64.le_iff_toNat_le.mpr hle) (UInt64.not_le.mpr hskip)
  · rw [if_neg hskip]
    exact h.booking_iff hc (h.small hc hfew)

/-- A bundle that is booked was placeable, and the ledger counts its slots. -/
theorem Accounts.book (h : Accounts placements ledger won) (hc : c.bundle? = some b)
    (hroom : b.count ≤ ledger.openSlots)
    (hyes : (Booking.ofBundle placements b ledger.fills ledger.deltas).accepted = true) :
    Placeable placements won c ∧
      Accounts placements
        { ledger with
          openSlots := ledger.openSlots - b.count
          fills := (Booking.ofBundle placements b ledger.fills ledger.deltas).fills
          deltas := (Booking.ofBundle placements b ledger.fills ledger.deltas).deltas }
        (won ++ [c]) := by
  have hsmall := h.small_of_located hroom (Booking.counts_of_accepted hyes).2
  have hplace : Placeable placements won c := (h.booking_iff hc hsmall).mp hyes
  refine ⟨hplace, fun position => ?_, hplace.within, ?_⟩
  · rw [Placement.landing_append, landing_of_bundle hc, ← h.fills]
    exact Booking.toNat_get_fills hsmall hyes position
  · have hslots := h.slots
    have hle := UInt64.le_iff_toNat_le.mp hroom
    have hless : (ledger.openSlots - b.count).toNat = ledger.openSlots.toNat - b.count.toNat :=
      UInt64.toNat_sub_of_le _ _ hroom
    rw [Placement.landed_append, hplace.lands, Candidate.claim_of_bundle hc, hless]
    omega

/-- A bundle is turned away, which leaves the counts as they are, or it is booked. -/
theorem offerBundle_cases (ledger : Ledger) (placements : List Placement) (b : Bundle) :
    (∃ skipped deltas, ledger.offerBundle placements b =
        (false, { ledger with bundleSkipped := skipped, deltas := deltas })) ∨
      b.count ≤ ledger.openSlots ∧
        (Booking.ofBundle placements b ledger.fills ledger.deltas).accepted = true ∧
        ledger.offerBundle placements b =
          (true, { ledger with
            openSlots := ledger.openSlots - b.count
            fills := (Booking.ofBundle placements b ledger.fills ledger.deltas).fills
            deltas := (Booking.ofBundle placements b ledger.fills ledger.deltas).deltas }) := by
  unfold Ledger.offerBundle
  by_cases hskip : ledger.openSlots < b.count
  · rw [if_pos hskip]
    exact Or.inl ⟨true, ledger.deltas, rfl⟩
  · rw [if_neg hskip]
    cases hbooked : (Booking.ofBundle placements b ledger.fills ledger.deltas).accepted with
    | true => exact Or.inr ⟨UInt64.not_lt.mp hskip, rfl, by simp [hbooked]⟩
    | false =>
        refine Or.inl ⟨ledger.bundleSkipped,
          (Booking.ofBundle placements b ledger.fills ledger.deltas).deltas, ?_⟩
        simp [hbooked, Booking.fills_of_refused hbooked]

theorem Accounts.offerBundle (h : Accounts placements ledger won) (hc : c.bundle? = some b) :
    ((ledger.offerBundle placements b).1 = true → Placeable placements won c) ∧
      Accounts placements (ledger.offerBundle placements b).2
        (if (ledger.offerBundle placements b).1 then won ++ [c] else won) := by
  rcases offerBundle_cases ledger placements b with ⟨skipped, deltas, hno⟩ | ⟨hroom, hbooked, hyes⟩
  · rw [hno]
    refine ⟨fun hfalse => ?_, h.fills, h.within, h.slots⟩
    cases hfalse
  · rw [hyes]
    have hbook := h.book hc hroom hbooked
    exact ⟨fun _ => hbook.1, hbook.2⟩

/-- A bundle is booked exactly if it counts no more than is open and is placeable, however many slots
there are. -/
theorem Accounts.offerBundle_iff_of_room (h : Accounts placements ledger won)
    (hc : c.bundle? = some b) :
    (ledger.offerBundle placements b).1 = true ↔
      b.count ≤ ledger.openSlots ∧ Placeable placements won c := by
  constructor
  · intro hyes
    refine ⟨?_, (h.offerBundle hc).1 hyes⟩
    rcases offerBundle_cases ledger placements b with ⟨_, _, hno⟩ | ⟨hroom, _, _⟩
    · rw [hno] at hyes
      cases hyes
    · exact hroom
  · rintro ⟨hroom, hplace⟩
    -- All parts are located, so they are as many as the bundle counts, and no count wraps.
    have hlocated : Booking.located placements b.parts = b.count.toNat := by
      rw [← landed_of_bundle hc, hplace.lands, Candidate.claim_of_bundle hc]
    unfold Ledger.offerBundle
    rw [if_neg (UInt64.not_lt.mpr hroom)]
    exact (h.booking_iff hc (h.small_of_located hroom hlocated)).mpr hplace

end

/-! ### Offers -/

theorem Accounts.offer_iff (h : Accounts placements ledger won)
    (hfew : (awardedSlots (won ++ [c])).length < 2 ^ 64) :
    (ledger.offer placements c).1 = true ↔ Placeable placements won c := by
  unfold Ledger.offer
  cases hc : c.bundle? with
  | none => exact h.offerSingle_iff hc
  | some b => exact h.offerBundle_iff hc hfew

/-- Whoever is accepted was placeable, however many slots there are. -/
theorem Accounts.placeable_of_offer (h : Accounts placements ledger won)
    (hyes : (ledger.offer placements c).1 = true) : Placeable placements won c := by
  unfold Ledger.offer at hyes
  cases hc : c.bundle? with
  | none =>
      rw [hc] at hyes
      exact (h.offerSingle_iff hc).mp hyes
  | some b =>
      rw [hc] at hyes
      exact (h.offerBundle hc).1 hyes

/-- With a slot open, and however many slots there are: an offer is accepted exactly if the candidate is
placeable and claims no more than is open. -/
theorem Accounts.offer_iff_of_open (h : Accounts placements ledger won)
    (hopen : ¬ ledger.openSlots < 1) :
    (ledger.offer placements c).1 = true ↔
      c.claim ≤ ledger.openSlots.toNat ∧ Placeable placements won c := by
  unfold Ledger.offer
  cases hc : c.bundle? with
  | none =>
      have hone : 1 ≤ ledger.openSlots.toNat := one_le_of_open hopen
      rw [Candidate.claim_of_single hc]
      exact (h.offerSingle_iff hc).trans ⟨fun hplace => ⟨hone, hplace⟩, And.right⟩
  | some b =>
      rw [Candidate.claim_of_bundle hc, ← UInt64.le_iff_toNat_le]
      exact h.offerBundle_iff_of_room hc

/-- The step of the walk: the ledger stays right, about the candidate too if it was accepted. -/
theorem Accounts.offer (h : Accounts placements ledger won) (hopen : ¬ ledger.openSlots < 1) :
    Accounts placements (ledger.offer placements c).2
      (if (ledger.offer placements c).1 then won ++ [c] else won) := by
  unfold Ledger.offer
  cases hc : c.bundle? with
  | none => exact h.offerSingle hc hopen
  | some b => exact (h.offerBundle hc).2

/-- The same step by the plain rule. -/
theorem Accounts.offer_of_few (h : Accounts placements ledger won)
    (hfew : (awardedSlots (won ++ [c])).length < 2 ^ 64) (hopen : ¬ ledger.openSlots < 1) :
    Accounts placements (ledger.offer placements c).2
      (if Placeable placements won c then won ++ [c] else won) := by
  have hnext := h.offer hopen (c := c)
  rwa [if_congr (h.offer_iff hfew) rfl rfl] at hnext

end Ledger

end SlotAuction
