import SlotAuction.Proofs.Award

/-!
# Maximality — nobody who lost could still be added

Candidates lose for many reasons: no room, a skipped bundle, a walk that stopped, an exchange.  Among
honest candidates all of them leave some placement that cannot take the slots of the loser.

* Without an exchange the winners are those of the plain rule, which leaves nobody out who fits
  (`greedy_maximal`).
* With an exchange there was a tail, so every placement has all the slots it wants
  (`Fill.full_of_tail`), and the exchange does not change that.
-/

namespace SlotAuction

open Outcome (awardedSlots)
open Placement (landing landed Within locate)

variable {γ : Type} [WordSource γ] {placements : List Placement} {c : Candidate}

/-! ## One candidate -/

/-- A candidate that takes a slot, all of them going somewhere, has one go to some placement. -/
theorem exists_landing_pos (htakes : 0 < c.slots.length)
    (hlocated : ∀ slot ∈ c.slots, (locate placements slot.1).isSome) :
    ∃ i : Fin placements.length, 0 < landing placements i [c] := by
  rcases List.exists_mem_of_length_pos htakes with ⟨slot, hslot⟩
  rcases Option.isSome_iff_exists.mp (hlocated slot hslot) with ⟨position, hfound⟩
  refine ⟨⟨position, Placement.locate_lt hfound⟩, ?_⟩
  rw [landing, awardedSlots_singleton]
  exact List.countP_pos_iff.mpr ⟨slot, hslot, beq_iff_eq.mpr hfound⟩

/-! ## Losers -/

namespace Auction

/-- Where bundles were exchanged, every placement has all the slots it wants. -/
theorem step_full_of_exchanged (auction : Auction γ) {workspace : Workspace}
    {taken : List Bool} {given kept : List Candidate} {standIns : List Nat}
    (hswap : Exchange.Swapped (Fill.untried placements auction.arrange.pool) taken
      (Fill.fresh placements auction.arrange.pool).winners
      (auction.step placements workspace).award.winners
      (auction.step placements workspace).award.replaced given kept standIns)
    (hhonest : ∀ d ∈ auction.arrange.pool, d.Honest)
    (hfew : (awardedSlots auction.arrange.pool).length < 2 ^ 64)
    (htail : (Fill.fresh placements auction.arrange.pool).tail?.isSome)
    (i : Fin placements.length) :
    landing placements i (auction.step placements workspace).award.winners =
      placements[i].wanted.toNat := by
  have hwinners : ∀ d ∈ (Fill.fresh placements auction.arrange.pool).winners, d.Honest := by
    intro d hd
    exact hhonest d (Fill.mem_of_winner hd)
  have hnames := hswap.slotNames_perm_of_honest hwinners
  rw [← Fill.full_of_tail hhonest hfew htail i, Placement.landing_eq_countP_names,
    Placement.landing_eq_countP_names]
  exact hnames.countP_eq _

/-- A candidate that the winners leave out does not fit beside them. -/
theorem step_maximal (auction : Auction γ) (placements : List Placement) (workspace : Workspace)
    (hhonest : ∀ d ∈ auction.arrange.pool, d.Honest)
    (hfew : (awardedSlots auction.arrange.pool).length < 2 ^ 64)
    (hlost : (c :: (auction.step placements workspace).award.winners).Subperm auction.arrange.pool)
    (htakes : 0 < c.slots.length)
    (hlocated : ∀ slot ∈ c.slots, (locate placements slot.1).isSome) :
    ¬ Within placements ((auction.step placements workspace).award.winners ++ [c]) := by
  rcases auction.step_swaps placements workspace with ⟨taken, given, kept, standIns, hswap, hgiven⟩
  by_cases hnone : given = []
  · -- Nothing was exchanged: the winners are those of the plain rule.
    have hsame := hswap.perm_of_none_given hnone
    rw [Fill.winners_fresh hfew] at hsame
    have hclaim : c.claim = c.slots.length :=
      hhonest c (hlost.subset (List.mem_cons_self ..))
    have hlands : landed placements [c] = c.claim := by
      rw [landed_of_located hlocated, hclaim]
    have hmore : (c :: greedy placements [] auction.arrange.pool).Subperm auction.arrange.pool :=
      (hsame.symm.cons c).subperm.trans hlost
    intro hfits
    refine greedy_maximal (hclaim ▸ htakes) hlands hmore fun i => ?_
    have hperm : ([] ++ greedy placements [] auction.arrange.pool ++ [c]).Perm
        ((auction.step placements workspace).award.winners ++ [c]) :=
      hsame.symm.append_right [c]
    rw [Placement.landing_perm hperm]
    exact hfits i
  · -- Something was: no placement lacks a slot, and `c` takes one of some placement.
    intro hfits
    rcases exists_landing_pos htakes hlocated with ⟨i, hpos⟩
    have hfull := auction.step_full_of_exchanged hswap hhonest hfew (hgiven hnone).2 i
    have hle := hfits i
    rw [Placement.landing_append, hfull] at hle
    omega

end Auction

/-- Whatever the shuffle and the settings: the winners are no more than the pool holds, and an entry
of the pool that is left over, takes a slot and names only placements there are, would get some
placement more slots than it wants. -/
theorem losers_do_not_fit (auction : Auction γ) (placements : List Placement)
    (workspace : Workspace) (hhonest : ∀ c ∈ auction.pool, c.Honest)
    (hfew : (awardedSlots auction.pool).length < 2 ^ 64) :
    (auction.award placements workspace).1.Subperm auction.pool ∧
      ∀ c, (c :: (auction.award placements workspace).1).Subperm auction.pool →
        0 < c.slots.length →
        (∀ slot ∈ c.slots, (locate placements slot.1).isSome) →
        ∃ i : Fin placements.length,
          placements[i].wanted.toNat <
            landing placements i (auction.award placements workspace).1 +
              landing placements i [c] := by
  refine ⟨auction.winners_step_subperm placements workspace, ?_⟩
  intro c hlost htakes hlocated
  have hpool : ∀ d ∈ auction.arrange.pool, d.Honest := by
    intro d hd
    exact hhonest d (auction.arrange_perm.mem_iff.mp hd)
  have hslots : (awardedSlots auction.arrange.pool).length < 2 ^ 64 := by
    rwa [(awardedSlots_perm auction.arrange_perm).length_eq]
  have hover := auction.step_maximal placements workspace hpool hslots
    (hlost.trans auction.arrange_perm.symm.subperm) htakes hlocated
  by_contra hnone
  refine hover fun i => ?_
  rw [Placement.landing_append]
  by_contra hmore
  exact hnone ⟨i, not_le.mp hmore⟩

/-- The bundle that the exchange took out again has no room beside the singles. -/
theorem losers_do_not_fit_of_crowd :
    (Sample.crowd[1] :: (Sample.crowdAuction.award Sample.page Workspace.empty).1).Subperm
        Sample.crowdAuction.pool ∧
      ∃ i : Fin Sample.page.length,
        Sample.page[i].wanted.toNat <
          landing Sample.page i (Sample.crowdAuction.award Sample.page Workspace.empty).1 +
            landing Sample.page i [Sample.crowd[1]] := by
  have hwinners : (Sample.crowdAuction.award Sample.page Workspace.empty).1 =
      Sample.crowd.drop 2 := congrArg Award.winners Sample.awarded_crowd
  have hlost : (Sample.crowd[1] ::
      (Sample.crowdAuction.award Sample.page Workspace.empty).1).Subperm
        Sample.crowdAuction.pool := by
    rw [hwinners]
    exact (List.drop_sublist 1 Sample.crowd).subperm
  exact ⟨hlost, (losers_do_not_fit Sample.crowdAuction Sample.page Workspace.empty (by decide)
    (by decide)).2 Sample.crowd[1] hlost (by decide) (by decide)⟩

end SlotAuction
