import SlotAuction.Proofs.Award
import SlotAuction.Proofs.SortedSlots

/-!
# StatedBids — sums of bids are clamped once

A bundle bids the clamped sum of its parts, which may be bundles again, and a report sums the bids of the
winners, clamped at every step.  All of this comes to the exact sum of the bids that are stated, clamped
once; so neither order nor grouping has an influence.

* `Candidate.statedBids` — the bids of the ads in a candidate, at whatever depth they are;
* `Candidate.exactBid` — their exact sum;
* `Candidate.toNat_bid` — a bid is the exact sum, clamped once, by induction on the candidate;
* `Amount.totalRef_eq_total`, `Amount.getLastD_runningTotals` — the other ways to sum;
* `sums_are_clamped_once` — the same of every list of candidates, and of the value in a report.
-/

namespace SlotAuction

open scoped Arithmetic

/-! ## Other ways to sum -/

namespace Amount

theorem totalRef_eq_total {ρ : Type} (copy : ρ → Amount) (refs : List ρ) :
    totalRef copy refs = total (refs.map copy) :=
  List.foldl_map.symm

theorem getLastD_runningTotalsFrom (amounts : List Amount) (start : Amount) :
    (runningTotalsFrom start amounts).getLastD start = amounts.foldl add start := by
  induction amounts generalizing start with
  | nil => rfl
  | cons a rest ih =>
      rw [runningTotalsFrom, List.getLastD_cons]
      exact ih (start + a)

/-- The last running total is the total; of no amounts there is none, and the total is zero. -/
theorem getLastD_runningTotals (amounts : List Amount) :
    (runningTotals amounts).getLastD zero = total amounts :=
  getLastD_runningTotalsFrom amounts zero

end Amount

/-! ## Bids that are stated -/

namespace Candidate

mutual

/-- The bids that are stated rather than summed up: of an ad its bid, of a bundle of ours those of its
parts, however deep, and of whatever a partner brings the bid that the partner states. -/
def statedBids : Candidate → List Amount
  | .ad _ _ bid _ => [bid]
  | .bundle _ parts => statedBidsOf parts
  | .partnerAd _ _ bid _ => [bid]
  | .partnerBundle _ _ bid _ _ _ => [bid]

def statedBidsOf : List Candidate → List Amount
  | [] => []
  | c :: cs => statedBids c ++ statedBidsOf cs

end

theorem statedBidsOf_eq_flatMap (cs : List Candidate) : statedBidsOf cs = cs.flatMap statedBids := by
  induction cs with
  | nil => rfl
  | cons c cs ih => rw [statedBidsOf, ih, List.flatMap_cons]

/-- The exact sum of the bids that are stated in the candidates. -/
def exactBid (cs : List Candidate) : Nat :=
  ((statedBidsOf cs).map (·.raw.toNat)).sum

theorem exactBid_cons (c : Candidate) (cs : List Candidate) :
    exactBid (c :: cs) = ((statedBids c).map (·.raw.toNat)).sum + exactBid cs := by
  rw [exactBid, statedBidsOf, List.map_append, List.sum_append, exactBid]

theorem exactBid_of_perm {cs ds : List Candidate} (h : (statedBidsOf cs).Perm (statedBidsOf ds)) :
    exactBid cs = exactBid ds :=
  (h.map _).sum_nat

theorem statedBidsOf_perm {cs ds : List Candidate} (h : cs.Perm ds) :
    (statedBidsOf cs).Perm (statedBidsOf ds) := by
  rw [statedBidsOf_eq_flatMap, statedBidsOf_eq_flatMap]
  exact h.flatMap_right _

theorem min_eq_of_single (a : Amount) :
    a.raw.toNat = min (([a].map (·.raw.toNat)).sum) Word.limit := by
  have hbound := Word.toNat_le_limit a.raw
  simp only [List.map_cons, List.map_nil, List.sum_cons, List.sum_nil]
  omega

mutual

/-- A bid is the exact sum of the bids stated in the candidate, clamped once. -/
theorem toNat_bid : ∀ c : Candidate,
    c.bid.raw.toNat = min (((statedBids c).map (·.raw.toNat)).sum) Word.limit
  | .ad _ _ bid _ => min_eq_of_single bid
  | .bundle _ parts => by
      rw [bid, Amount.toNat_total, statedBids]
      exact min_sum_bids parts
  | .partnerAd _ _ bid _ => min_eq_of_single bid
  | .partnerBundle _ _ bid _ _ _ => min_eq_of_single bid

/-- Clamped sums of clamped bids are as good as exact sums. -/
theorem min_sum_bids : ∀ cs : List Candidate,
    min (((bids cs).map (·.raw.toNat)).sum) Word.limit = min (exactBid cs) Word.limit
  | [] => rfl
  | c :: cs => by
      have hfirst := toNat_bid c
      have hrest := min_sum_bids cs
      rw [exactBid_cons, bids, List.map_cons, List.sum_cons, hfirst]
      omega

end

theorem toNat_total_bids (cs : List Candidate) :
    (Amount.total (cs.map bid)).raw.toNat = min (exactBid cs) Word.limit := by
  rw [Amount.toNat_total, ← bids_eq_map]
  exact min_sum_bids cs

end Candidate

open Candidate (bid exactBid statedBidsOf)

/-- For candidates of any depth: a bid is the exact sum of the bids that are stated in it, clamped once, and
so is the sum of the bids of a list, whichever way it is summed, and the value that a report tells of its
winners.  Neither the order of the candidates nor their grouping into bundles makes a difference. -/
theorem sums_are_clamped_once :
    (∀ c : Candidate, c.bid.raw.toNat = min (exactBid [c]) Word.limit) ∧
      (∀ cs : List Candidate,
        (Amount.total (cs.map bid)).raw.toNat = min (exactBid cs) Word.limit ∧
          Amount.totalRef bid cs = Amount.total (cs.map bid) ∧
            (Amount.runningTotals (cs.map bid)).getLastD Amount.zero = Amount.total (cs.map bid)) ∧
      (∀ (γ : Type) [WordSource γ] (auction : Auction γ) (placements : List Placement)
        (workspace : Workspace),
        let report := (auction.report placements workspace).1
        report.outcome.value.raw.toNat = min (exactBid report.winners) Word.limit) ∧
      (∀ cs ds : List Candidate, cs.Perm ds →
        Amount.total (cs.map bid) = Amount.total (ds.map bid)) ∧
      ∀ cs ds : List Candidate, (statedBidsOf cs).Perm (statedBidsOf ds) →
        Amount.total (cs.map bid) = Amount.total (ds.map bid) := by
  have hgrouping : ∀ cs ds : List Candidate, (statedBidsOf cs).Perm (statedBidsOf ds) →
      Amount.total (cs.map bid) = Amount.total (ds.map bid) := by
    intro cs ds hsame
    apply Amount.eq_of_toNat_eq
    rw [Candidate.toNat_total_bids, Candidate.toNat_total_bids, Candidate.exactBid_of_perm hsame]
  refine ⟨?_, ?_, ?_, ?_, hgrouping⟩
  · intro c
    rw [Candidate.toNat_bid, exactBid, statedBidsOf, statedBidsOf, List.append_nil]
  · intro cs
    exact ⟨Candidate.toNat_total_bids cs, Amount.totalRef_eq_total bid cs,
      Amount.getLastD_runningTotals _⟩
  · intro γ _ auction placements workspace report
    exact Candidate.toNat_total_bids report.winners
  · intro cs ds hperm
    exact hgrouping cs ds (Candidate.statedBidsOf_perm hperm)

namespace Sample

/-- The greatest amount, and two ads more. -/
def rich : List Candidate :=
  [.ad "rich" "top" ⟨18446744073709551615⟩ none, priced "second" "top" 3, priced "third" "side" 2]

/-- The same ads, grouped twice over and in another order. -/
def regrouped : List Candidate :=
  [.bundle "outer" [priced "third" "side" 2,
    .bundle "inner" [.ad "rich" "top" ⟨18446744073709551615⟩ none], priced "second" "top" 3]]

end Sample

/-- The sum passes the limit within the inner bundle, in the outer one, and in the list. -/
theorem sums_are_clamped_once_of_regrouped :
    (statedBidsOf Sample.rich).Perm (statedBidsOf Sample.regrouped) ∧
      Word.limit < exactBid Sample.rich ∧
        (Amount.total (Sample.rich.map bid)) = Amount.total (Sample.regrouped.map bid) := by
  have hsame : (statedBidsOf Sample.rich).Perm (statedBidsOf Sample.regrouped) := by decide
  exact ⟨hsame, by decide, sums_are_clamped_once.2.2.2.2 _ _ hsame⟩

end SlotAuction
