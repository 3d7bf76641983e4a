import SlotAuction.Proofs.Award

/-!
# Coverage — everybody wins where every placement has room for all

If the whole pool stays within what every placement wants, then so does every part of it, and the walk
never meets anybody whom it has to turn away.

* `Candidate.Served` — a candidate that would win on its own, had the placements room;
* `Covers` — room for a whole pool of such candidates;
* `Fill.walk_of_covered` — the walk then takes everybody up, and is not over before the pool is;
* `everybody_wins_if_covered` — so an award is the pool in its order, with or without exchange.
-/

namespace SlotAuction

open Outcome (awardedSlots)
open Placement (landing landed Within locate)

/-! ## Room for a pool -/

/-- The candidate takes a slot, claims as many as it takes, and names only placements there are. -/
structure Candidate.Served (placements : List Placement) (c : Candidate) : Prop where
  honest : c.Honest
  takes : 0 < c.slots.length
  located : ∀ slot ∈ c.slots, (locate placements slot.1).isSome

instance (placements : List Placement) (c : Candidate) : Decidable (c.Served placements) :=
  decidable_of_iff
    (c.Honest ∧ 0 < c.slots.length ∧ ∀ slot ∈ c.slots, (locate placements slot.1).isSome)
    ⟨fun h => ⟨h.1, h.2.1, h.2.2⟩, fun h => ⟨h.honest, h.takes, h.located⟩⟩

/-- Every placement wants at least as many slots as the pool has for it. -/
structure Covers (placements : List Placement) (pool : List Candidate) : Prop where
  served : ∀ c ∈ pool, c.Served placements
  within : Within placements pool
  few : (awardedSlots pool).length < 2 ^ 64

section

variable {placements : List Placement} {won pool : List Candidate} {c : Candidate}

theorem Candidate.Served.placeable (h : c.Served placements)
    (hwithin : Within placements (won ++ [c])) : Placeable placements won c where
  claims := by
    rw [h.honest]
    exact h.takes
  lands := by
    rw [landed_of_located h.located, h.honest]
  within := hwithin

namespace Covers

theorem of_perm {others : List Candidate} (h : Covers placements pool) (hperm : others.Perm pool) :
    Covers placements others where
  served c hc := h.served c (hperm.mem_iff.mp hc)
  within := h.within.of_perm hperm
  few := by
    rw [(awardedSlots_perm hperm).length_eq]
    exact h.few

/-- There is room for nobody where there is no placement. -/
theorem eq_nil (h : Covers [] pool) : pool = [] := by
  cases pool with
  | nil => rfl
  | cons c rest =>
      have hc := h.served c (List.mem_cons_self ..)
      obtain ⟨slot, hslot⟩ := List.exists_mem_of_length_pos hc.takes
      cases hc.located slot hslot

theorem of_append (h : Covers placements (won ++ pool)) (hc : c ∈ pool) :
    Placeable placements won c := by
  have hsub : (won ++ [c]).Sublist (won ++ pool) :=
    (List.singleton_sublist.mpr hc).append_left won
  exact (h.served c (List.mem_append_right _ hc)).placeable (h.within.of_sublist hsub)

end Covers

/-! ## The walk -/

/-- Beside those who have won there is room for all the rest: the walk takes everybody up, and leaves no
tail. -/
theorem Fill.walk_of_covered {ledger : Ledger} (h : ledger.Accounts placements won)
    (hcovers : Covers placements (won ++ pool)) :
    (walk placements pool ledger).winners = pool ∧ (walk placements pool ledger).tail? = none := by
  induction pool generalizing ledger won with
  | nil => exact ⟨rfl, rfl⟩
  | cons c rest ih =>
      have hplace : Placeable placements won c := hcovers.of_append (List.mem_cons_self ..)
      have hone := few_slots_of_mem (List.mem_cons_self ..) hcovers.few
      -- What `c` claims is open, so the walk is not over yet.
      have hopen : ¬ ledger.openSlots < 1 := h.open_of_placeable hone hplace
      have hnext := h.offer_of_few hone hopen
      rw [if_pos hplace] at hnext
      have hcovers' : Covers placements ((won ++ [c]) ++ rest) := by
        simpa using hcovers
      obtain ⟨hwinners, htail⟩ := ih hnext hcovers'
      rw [walk_of_placeable h hone hopen hplace]
      exact ⟨congrArg (c :: ·) hwinners, htail⟩

theorem Award.ofPool_of_covered (settings : Settings) (workspace : Workspace)
    (h : Covers placements pool) :
    (ofPool settings pool placements workspace).1 = ⟨pool, 0⟩ := by
  obtain ⟨hwinners, htail⟩ :=
    Fill.walk_of_covered (Ledger.accounts_start placements Buffer.empty Buffer.empty) h
  rw [ofPool_fst]
  unfold Fill.fresh Fill.ofPool
  rw [htail, hwinners]

end

/-! ## Awards -/

variable {γ : Type} [WordSource γ]

/-- If every placement has room for all the slots of the pool that go to it, then the winners are the
pool as it is arranged, in its order, and nothing is exchanged, whatever the settings, the shuffle and
the workspace. -/
theorem everybody_wins_if_covered (auction : Auction γ) (placements : List Placement)
    (workspace : Workspace) (h : Covers placements auction.pool) :
    (auction.step placements workspace).award = ⟨auction.arrange.pool, 0⟩ ∧
      (auction.step placements workspace).auction.pool = auction.arrange.pool := by
  have harranged : Covers placements auction.arrange.pool := h.of_perm auction.arrange_perm
  unfold Auction.step
  by_cases hnothing : (placements.isEmpty || auction.pool.isEmpty) = true
  · -- Nothing to award: then there was nobody in the pool.
    have hpool : auction.pool = [] := by
      rcases Bool.or_eq_true_iff.mp hnothing with hnowhere | hnone
      · rw [List.isEmpty_iff.mp hnowhere] at h
        exact h.eq_nil
      · exact List.isEmpty_iff.mp hnone
    rw [if_pos hnothing, Auction.pool_arrange_of_empty hpool]
    exact ⟨rfl, hpool⟩
  · rw [if_neg hnothing]
    exact ⟨Award.ofPool_of_covered _ workspace harranged, rfl⟩

/-- As many slots as the crowd takes, and a second placement of a name that is never filled. -/
def Sample.roomyPage : List Placement :=
  [⟨"leaderboard", 4⟩, ⟨"sidebar", 3⟩, ⟨"leaderboard", 0⟩, ⟨"footer", 3⟩]

theorem everybody_wins_if_covered_of_crowd :
    Covers Sample.roomyPage Sample.crowdAuction.pool ∧
      (Sample.crowdAuction.step Sample.roomyPage Workspace.empty).award =
        ⟨Sample.crowdAuction.arrange.pool, 0⟩ := by
  have hcovers : Covers Sample.roomyPage Sample.crowdAuction.pool :=
    ⟨by decide, by decide, by decide⟩
  exact ⟨hcovers, (everybody_wins_if_covered Sample.crowdAuction Sample.roomyPage Workspace.empty
    hcovers).1⟩

end SlotAuction
