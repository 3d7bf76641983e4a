import SlotAuction.Proofs.Exchange.Sweep
import SlotAuction.Proofs.Fill.Buffers
import SlotAuction.Proofs.Fill.Walk
import SlotAuction.Proofs.Ranking
import SlotAuction.Sample

/-!
# Award — a fill, and a swap after it

Every award, whatever the buffers and the workspace, is the fill of the ranked pool with new
buffers, followed by a swap of some of its bundles for singles of its tail.

* `Award.ofPool_fst` — an award is the fill as it is, or an exchange over the tail;
* `Award.swaps` — in either case it is a swap, and an empty one without a tail;
* `Auction.step_swaps_from`, `Auction.step_swaps` — the same of every call for winners, the early
  returns included;
* `Auction.pool_arrange_of_strict`, `Auction.award_step_of_strict` — what a call does with candidates
  that do not tie.
-/

namespace SlotAuction

open Outcome (awardedSlots)
open Placement (landing landed Within totalWanted)

/-! ## Fills of a whole pool -/

namespace Fill

variable {placements : List Placement} {pool : List Candidate}

/-- The winners of a fill are those of the plain rule. -/
theorem winners_fresh (hfew : (awardedSlots pool).length < 2 ^ 64) :
    (fresh placements pool).winners = greedy placements [] pool :=
  walk_winners (Ledger.accounts_start placements Buffer.empty Buffer.empty) hfew

theorem accounts_fresh (placements : List Placement)
    (hfew : (awardedSlots pool).length < 2 ^ 64) :
    (fresh placements pool).ledger.Accounts placements (fresh placements pool).winners := by
  have h := walk_spec (Ledger.accounts_start placements Buffer.empty Buffer.empty) hfew
  rw [← h.1] at h
  exact h.2

theorem mem_of_winner {c : Candidate} (h : c ∈ (fresh placements pool).winners) : c ∈ pool :=
  (walk_winners_sublist placements pool _).subset h

/-- A tail is left only by a fill that has no slot open any more. -/
theorem closed_of_tail (hhonest : ∀ c ∈ pool, c.Honest)
    (hfew : (awardedSlots pool).length < 2 ^ 64)
    (htail : (fresh placements pool).tail?.isSome) :
    (fresh placements pool).ledger.openSlots < 1 :=
  (walk_slack (Ledger.accounts_start placements Buffer.empty Buffer.empty) hhonest hfew htail).1

theorem full_of_tail (hhonest : ∀ c ∈ pool, c.Honest)
    (hfew : (awardedSlots pool).length < 2 ^ 64)
    (htail : (fresh placements pool).tail?.isSome) (i : Fin placements.length) :
    landing placements i (fresh placements pool).winners = placements[i].wanted.toNat :=
  walk_full (Ledger.accounts_start placements Buffer.empty Buffer.empty) hhonest hfew htail i

/-- The candidates that no walk took up any more. -/
def untried (placements : List Placement) (pool : List Candidate) : List Candidate :=
  (fresh placements pool).tail?.getD []

/-- The position of the pool at which those candidates begin. -/
def tailStart (placements : List Placement) (pool : List Candidate) : Nat :=
  pool.length - (untried placements pool).length

/-- The winners of a fill come from what is before its tail. -/
theorem exists_front (placements : List Placement) (pool : List Candidate) :
    ∃ front, pool = front ++ untried placements pool ∧
      (fresh placements pool).winners.Sublist front := by
  unfold untried
  cases htail : (fresh placements pool).tail? with
  | none =>
      exact ⟨pool, by simp, walk_winners_sublist placements pool _⟩
  | some tail => exact walk_split placements pool _ htail

theorem tailStart_of_split {front : List Candidate} (h : pool = front ++ untried placements pool) :
    tailStart placements pool = front.length := by
  have hlength := congrArg List.length h
  rw [List.length_append] at hlength
  unfold tailStart
  omega

/-- Without placements no slot is open, so nobody wins and no tail is left. -/
theorem fresh_nil_placements (pool : List Candidate) :
    (fresh [] pool).winners = [] ∧ (fresh [] pool).tail? = none := by
  cases pool with
  | nil => exact ⟨rfl, rfl⟩
  | cons c rest =>
      have hclosed : (Ledger.start [] Buffer.empty Buffer.empty).openSlots < 1 := by
        show (0 : UInt64) < 1
        decide
      rw [fresh, ofPool, walk_of_closed hclosed]
      exact ⟨rfl, rfl⟩

end Fill

/-! ## Awards -/

namespace Award

variable (settings : Settings) (pool : List Candidate) (placements : List Placement)
  (workspace : Workspace)

/-- The award that an exchange comes to. -/
def ofExchange (exchanged : Exchange) : Award := ⟨exchanged.winners, exchanged.replaced⟩

/-- An award takes the winners of the fill as they are, or exchanges bundles over its tail; of the
workspace it is the buffers for the marks that it works in. -/
theorem ofPool_fst :
    (ofPool settings pool placements workspace).1 =
      match (Fill.fresh placements pool).tail? with
      | some tail =>
          if exchanges settings pool placements (Fill.fresh placements pool) then
            ofExchange (Exchange.ofFill tail (Fill.fresh placements pool).winners
              (workspace.flags.lease settings.limits).1.buffer
              (workspace.indices.lease settings.limits).1.buffer)
          else ⟨(Fill.fresh placements pool).winners, 0⟩
      | none => ⟨(Fill.fresh placements pool).winners, 0⟩ := by
  unfold ofPool
  dsimp only
  generalize hfill : Fill.ofPool placements pool
    (workspace.tallies.lease settings.limits).1.buffer
    ((workspace.tallies.lease settings.limits).2.lease settings.limits).1.buffer = fill
  have hwinners : fill.winners = (Fill.fresh placements pool).winners := by
    rw [← hfill, Fill.winners_ofPool]
  have htail : fill.tail? = (Fill.fresh placements pool).tail? := by
    rw [← hfill, Fill.tail_ofPool]
  have hgate : exchanges settings pool placements fill =
      exchanges settings pool placements (Fill.fresh placements pool) := by
    rw [exchanges, exchanges, Fill.usedSlots, Fill.usedSlots, ← hfill, Fill.openSlots_ofPool]
  unfold ofFill
  rw [htail, hgate, hwinners]
  cases (Fill.fresh placements pool).tail? with
  | none => rfl
  | some tail =>
      cases exchanges settings pool placements (Fill.fresh placements pool) with
      | false => rfl
      | true => rfl

/-- An exchange whose winners do not tie takes them up in the one order that they have. -/
theorem ofPool_fst_of_strict {tail ranked : List Candidate}
    (htail : (Fill.fresh placements pool).tail? = some tail)
    (hgate : exchanges settings pool placements (Fill.fresh placements pool) = true)
    (hperm : ranked.Perm (Fill.fresh placements pool).winners)
    (hstrict : ranked.Pairwise fun a b => Candidate.exchangeOrder a b = .lt) :
    (ofPool settings pool placements workspace).1 =
      ofExchange (Exchange.walk tail ranked tail.length
        ⟨(workspace.flags.lease settings.limits).1.buffer.resize tail.length false,
          (workspace.indices.lease settings.limits).1.buffer⟩) := by
  have hsorted : Candidate.sortForExchange (Fill.fresh placements pool).winners = ranked :=
    Candidate.mergeSort_eq_of_strict hperm hstrict
  rw [ofPool_fst, htail]
  dsimp only
  rw [if_pos hgate, Exchange.ofFill, hsorted]

/-- The entries that count as taken when an exchange over a tail of the given size begins. -/
def takenAtStart (size : Nat) : List Bool :=
  ((workspace.flags.lease settings.limits).1.buffer.resize size false).cells

/-- Every award is a swap after the fill; bundles are given up only where a tail was left and the
settings ask for it. -/
theorem swaps :
    ∃ given kept standIns,
      Exchange.Swapped (Fill.untried placements pool)
        (takenAtStart settings workspace (Fill.untried placements pool).length)
        (Fill.fresh placements pool).winners (ofPool settings pool placements workspace).1.winners
        (ofPool settings pool placements workspace).1.replaced given kept standIns ∧
      (given ≠ [] → settings.exchange = true ∧ (Fill.fresh placements pool).tail?.isSome) := by
  rw [ofPool_fst, Fill.untried]
  cases htail : (Fill.fresh placements pool).tail? with
  | none => exact ⟨[], _, [], Exchange.swapped_refl .., fun h => absurd rfl h⟩
  | some tail =>
      cases hgate : exchanges settings pool placements (Fill.fresh placements pool) with
      | false => exact ⟨[], _, [], Exchange.swapped_refl .., fun h => absurd rfl h⟩
      | true =>
          obtain ⟨given, kept, standIns, hswap⟩ := Exchange.walk_swaps tail
            (Candidate.sortForExchange (Fill.fresh placements pool).winners) tail.length
            ⟨(workspace.flags.lease settings.limits).1.buffer.resize tail.length false,
              (workspace.indices.lease settings.limits).1.buffer⟩
          have hsorted : (Fill.fresh placements pool).winners.Perm
              (Candidate.sortForExchange (Fill.fresh placements pool).winners) :=
            (List.mergeSort_perm ..).symm
          refine ⟨given, kept, standIns, hswap.of_perm hsorted, fun _ => ⟨?_, rfl⟩⟩
          unfold exchanges at hgate
          exact (Bool.and_eq_true_iff.mp hgate).1

end Award

/-! ## Calls for winners -/

namespace Auction

variable {γ : Type} [WordSource γ]

@[simp] theorem settings_arrange (auction : Auction γ) :
    auction.arrange.settings = auction.settings := by
  unfold arrange
  split <;> rfl

/-- Candidates that do not tie are arranged in one way, whatever the shuffle. -/
theorem pool_arrange_of_strict {auction : Auction γ} {ranked : List Candidate}
    (hnew : auction.arranged = false) (hperm : ranked.Perm auction.pool)
    (hstrict : ranked.Pairwise fun a b => Candidate.fillOrder a b = .lt) :
    auction.arrange.pool = ranked := by
  rw [arrange, hnew]
  exact Candidate.mergeSort_eq_of_strict (hperm.trans (shuffle_perm ..).symm) hstrict

/-- A call awards from the one order that its candidates have if they tie neither in the fill nor in the
exchange. -/
theorem award_step_of_strict {auction : Auction γ} {placements : List Placement}
    {workspace : Workspace} {pool tail ranked : List Candidate}
    (hcall : (placements.isEmpty || auction.pool.isEmpty) = false)
    (harranged : auction.arrange.pool = pool)
    (htail : (Fill.fresh placements pool).tail? = some tail)
    (hgate : Award.exchanges auction.settings pool placements (Fill.fresh placements pool) = true)
    (hperm : ranked.Perm (Fill.fresh placements pool).winners)
    (hstrict : ranked.Pairwise fun a b => Candidate.exchangeOrder a b = .lt) :
    (auction.step placements workspace).award =
      Award.ofExchange (Exchange.walk tail ranked tail.length
        ⟨(workspace.flags.lease auction.settings.limits).1.buffer.resize tail.length false,
          (workspace.indices.lease auction.settings.limits).1.buffer⟩) := by
  unfold step
  rw [hcall]
  show (Award.ofPool auction.arrange.settings auction.arrange.pool placements workspace).1 = _
  rw [settings_arrange, harranged]
  exact Award.ofPool_fst_of_strict _ _ _ _ htail hgate hperm hstrict

theorem pool_arrange_of_empty {auction : Auction γ} (h : auction.pool = []) :
    auction.arrange.pool = [] := by
  have hperm := auction.arrange_perm
  rw [h] at hperm
  exact hperm.eq_nil

/-- Where a call returns early, the fill would have no winners, and leave no tail. -/
theorem fill_of_nothing {auction : Auction γ} {placements : List Placement}
    (h : (placements.isEmpty || auction.pool.isEmpty) = true) :
    (Fill.fresh placements auction.arrange.pool).winners = [] ∧
      (Fill.fresh placements auction.arrange.pool).tail? = none := by
  rcases Bool.or_eq_true_iff.mp h with hnowhere | hnone
  · rw [List.isEmpty_iff.mp hnowhere]
    exact Fill.fresh_nil_placements _
  · rw [pool_arrange_of_empty (List.isEmpty_iff.mp hnone)]
    exact ⟨rfl, rfl⟩

/-- Without an exchange the winners are those of the fill. -/
theorem winners_step_of_no_exchange {auction : Auction γ} (h : auction.settings.exchange = false)
    (placements : List Placement) (workspace : Workspace) :
    (auction.step placements workspace).award.winners =
      (Fill.fresh placements auction.arrange.pool).winners := by
  unfold step
  by_cases hnothing : (placements.isEmpty || auction.pool.isEmpty) = true
  · rw [if_pos hnothing, (fill_of_nothing hnothing).1]
    rfl
  · have hgate : Award.exchanges auction.arrange.settings auction.arrange.pool placements
        (Fill.fresh placements auction.arrange.pool) = false := by
      rw [Award.exchanges, settings_arrange, h, Bool.false_and]
    rw [if_neg hnothing]
    dsimp only
    rw [Award.ofPool_fst, hgate]
    cases (Fill.fresh placements auction.arrange.pool).tail? <;> rfl

/-- A call for winners fills the arranged pool and swaps; an early return is no exception, as the
fill has no winners then. -/
theorem step_swaps_from (auction : Auction γ) (placements : List Placement) (workspace : Workspace) :
    ∃ given kept standIns,
      Exchange.Swapped (Fill.untried placements auction.arrange.pool)
        (Award.takenAtStart auction.settings workspace
          (Fill.untried placements auction.arrange.pool).length)
        (Fill.fresh placements auction.arrange.pool).winners
        (auction.step placements workspace).award.winners
        (auction.step placements workspace).award.replaced given kept standIns ∧
      (given ≠ [] → auction.settings.exchange = true ∧
        (Fill.fresh placements auction.arrange.pool).tail?.isSome) := by
  unfold step
  by_cases hnothing : (placements.isEmpty || auction.pool.isEmpty) = true
  · rw [if_pos hnothing]
    rw [(fill_of_nothing hnothing).1]
    exact ⟨[], [], [], Exchange.swapped_refl .., fun h => absurd rfl h⟩
  · rw [if_neg hnothing, ← settings_arrange auction]
    exact Award.swaps auction.arrange.settings auction.arrange.pool placements workspace

/-- The same, whatever the marks at the start. -/
theorem step_swaps (auction : Auction γ) (placements : List Placement) (workspace : Workspace) :
    ∃ taken given kept standIns,
      Exchange.Swapped (Fill.untried placements auction.arrange.pool) taken
        (Fill.fresh placements auction.arrange.pool).winners
        (auction.step placements workspace).award.winners
        (auction.step placements workspace).award.replaced given kept standIns ∧
      (given ≠ [] → auction.settings.exchange = true ∧
        (Fill.fresh placements auction.arrange.pool).tail?.isSome) := by
  obtain ⟨given, kept, standIns, hswap⟩ := auction.step_swaps_from placements workspace
  exact ⟨_, given, kept, standIns, hswap⟩

/-- Nobody wins more often than the pool holds them. -/
theorem winners_step_subperm (auction : Auction γ) (placements : List Placement)
    (workspace : Workspace) :
    (auction.step placements workspace).award.winners.Subperm auction.pool := by
  obtain ⟨_, _, _, _, hswap, _⟩ := auction.step_swaps placements workspace
  obtain ⟨front, hsplit, hsublist⟩ := Fill.exists_front placements auction.arrange.pool
  have hmore := hswap.subperm hsublist.subperm
  rw [← hsplit] at hmore
  exact hmore.trans auction.arrange_perm.subperm

end Auction

namespace Sample

def priced (id placement : String) (units : UInt64) : Candidate :=
  .ad id placement (.ofUnits units) none

/-- Two bundles, the wide one without room on the page, and singles that come after them. -/
def crowd : List Candidate :=
  [.bundle "wide"
     [priced "wide-1" "leaderboard" 1, priced "wide-2" "leaderboard" 1,
      priced "wide-3" "sidebar" 1, priced "wide-4" "footer" 1],
   .bundle "page"
     [priced "page-1" "leaderboard" 2, priced "page-2" "sidebar" 2, priced "page-3" "footer" 2],
   priced "lb" "leaderboard" 9, priced "sb" "sidebar" 8, priced "ft" "footer" 7]

def page : List Placement :=
  [⟨"leaderboard", 1⟩, ⟨"sidebar", 1⟩, ⟨"footer", 1⟩]

def crowdAuction : Auction Scripted :=
  (Auction.start Settings.defaults (Scripted.start [] 0)).push crowd

def early : Candidate := priced "early" "top" 5

def late : Candidate := priced "late" "top" 2

/-- The early single finds its placement taken by a bundle, and the late one comes after the page is
full. -/
def latecomers : List Candidate :=
  [.bundle "wide" [priced "wide-1" "top" 1, priced "wide-2" "top" 1, priced "wide-3" "side" 1],
   .bundle "solo" [priced "solo-1" "top" 3],
   early, priced "side" "side" 4, late]

def pair : List Placement :=
  [⟨"top", 1⟩, ⟨"side", 1⟩]

def lateAuction : Auction Scripted :=
  (Auction.start Settings.defaults (Scripted.start [] 0)).push latecomers

theorem arranged_crowd : crowdAuction.arrange.pool = crowd :=
  Auction.pool_arrange_of_strict rfl (.refl _) (by decide)

/-- The bundle that fills the page is given up for the three singles. -/
theorem awarded_crowd :
    (crowdAuction.step page Workspace.empty).award = ⟨crowd.drop 2, 1⟩ := by
  rw [Auction.award_step_of_strict rfl arranged_crowd rfl (by decide) (.refl _) (by decide)]
  rfl

theorem arranged_latecomers : lateAuction.arrange.pool = latecomers :=
  Auction.pool_arrange_of_strict rfl (.refl _) (by decide)

/-- The bundle is given up for the late single, as the early one is not in the tail. -/
theorem awarded_latecomers :
    (lateAuction.step pair Workspace.empty).award =
      ⟨[late, priced "side" "side" 4], 1⟩ := by
  rw [Auction.award_step_of_strict rfl arranged_latecomers rfl (by decide) (.refl _) (by decide)]
  rfl

end Sample

end SlotAuction
