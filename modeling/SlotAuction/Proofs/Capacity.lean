import SlotAuction.Proofs.Award
import SlotAuction.Proofs.History

/-!
# Capacity — no placement is ever awarded more slots than it wants

The fill keeps every placement within what it wants, whatever candidates say about their counts, and
the swap after it gives no placement more than the fill did.
-/

namespace SlotAuction

open Outcome (awardedSlots)
open Placement (landing landed Within totalWanted)

variable {γ : Type} [WordSource γ]

/-- After any history, any query and any shuffle keep every placement within what it wants, and
all of them within the clamped total. -/
theorem answer_within_wanted (settings : Settings) (source : γ) (history : List Call)
    (query : Query) (workspace : Workspace)
    (hfew : (awardedSlots (Auction.after settings source history).pool).length < 2 ^ 64) :
    Within query.placements
        (query.answer (Auction.after settings source history) workspace).1 ∧
      landed query.placements
          (query.answer (Auction.after settings source history) workspace).1 ≤
        (totalWanted query.placements).toNat := by
  generalize Auction.after settings source history = auction at hfew ⊢
  rw [Query.answer_eq]
  have hpool : (awardedSlots auction.arrange.pool).length < 2 ^ 64 := by
    rwa [(awardedSlots_perm auction.arrange_perm).length_eq]
  have haccounts := Fill.accounts_fresh query.placements hpool
  obtain ⟨_, _, _, _, hswap, _⟩ := auction.step_swaps query.placements workspace
  refine ⟨fun i => le_trans (hswap.landing_le i) (haccounts.within i), ?_⟩
  refine le_trans hswap.landed_le ?_
  have hslots := haccounts.slots
  omega

/-- A partner that counts one part of two comes to a pool that was awarded before. -/
def Sample.networkHistory : List Call :=
  [.push Sample.crowd,
   .query (.award Sample.page) Workspace.empty,
   .pushOne (.partnerBundle "network" "sidebar" (.ofUnits 4)
     [Sample.priced "network-1" "leaderboard" 2, Sample.priced "network-2" "elsewhere" 2]
     (some 1) none)]

theorem few_after_networkHistory :
    (awardedSlots (Auction.after Settings.defaults (Scripted.start [] 7)
      Sample.networkHistory).pool).length < 2 ^ 64 := by
  rw [(awardedSlots_perm (Auction.pool_after ..)).length_eq]
  decide

theorem answer_within_wanted_of_network :
    (awardedSlots (Auction.after Settings.defaults (Scripted.start [] 7)
        Sample.networkHistory).pool).length < 2 ^ 64 ∧
      Within Sample.page
          ((Query.report Sample.page).answer
            (Auction.after Settings.defaults (Scripted.start [] 7) Sample.networkHistory)
            Workspace.empty).1 ∧
        landed Sample.page
            ((Query.report Sample.page).answer
              (Auction.after Settings.defaults (Scripted.start [] 7) Sample.networkHistory)
              Workspace.empty).1 ≤
          (totalWanted Sample.page).toNat :=
  ⟨few_after_networkHistory,
    answer_within_wanted _ _ _ (Query.report Sample.page) _ few_after_networkHistory⟩

end SlotAuction
