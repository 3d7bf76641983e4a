import Mathlib.Algebra.Order.BigOperators.Group.List
import SlotAuction.Proofs.Checked.Exchange
import SlotAuction.Proofs.Checked.Fill
import SlotAuction.Proofs.Fill.Precedence
import SlotAuction.Proofs.Shelves

/-!
# Checked awards — matching never wraps, and never reaches past a list

The whole of a call for winners with its checks: what is counted up stays a word, what is counted down does
not go below nothing, and every position is one of the list that it is about.  If the slots of the pool and
the capacities that it states are words, then none of the checks fails, whatever partners say about their
candidates.

* `Award.ofPoolChecked`, `Auction.stepChecked` — the checked award;
* `Award.ofPoolChecked_eq` — it is the plain one;
* `Auction.matching_stays_in_bounds` — so it is for every pool, all placements and every shuffle.
-/

namespace SlotAuction

open scoped Arithmetic
open Outcome (awardedSlots)

/-! ## The tail of a fill -/

namespace Fill

/-- What follows from a position of the pool on. -/
def fromChecked (pool : List Candidate) (start : Nat) : Option (List Candidate) :=
  if start ≤ pool.length then some (pool.drop start) else none

variable {placements : List Placement} {pool : List Candidate} {ledger : Ledger}

theorem fromChecked_eq {tail : List Candidate} (h : (walk placements pool ledger).tail? = some tail) :
    fromChecked pool (0 + (pool.length - tail.length)) = some tail := by
  obtain ⟨before, rfl, _⟩ := walk_split placements pool ledger h
  have hstart : 0 + ((before ++ tail).length - tail.length) = before.length := by
    rw [List.length_append]
    omega
  rw [hstart, fromChecked, if_pos (by simp), List.drop_left]

/-- Every winner takes a slot. -/
theorem length_winners_le {won : List Candidate} (h : ledger.Accounts placements won) :
    (walk placements pool ledger).winners.length ≤
      (awardedSlots (walk placements pool ledger).winners).length := by
  have hone : ∀ n ∈ (walk placements pool ledger).winners.map fun c => c.slots.length, 1 ≤ n := by
    intro n hn
    obtain ⟨c, hc, rfl⟩ := List.mem_map.mp hn
    obtain ⟨_, hplace⟩ := placeable_of_winner h hc
    have hlanded := Placement.landed_le_length placements [c]
    rw [hplace.lands, awardedSlots_singleton] at hlanded
    exact Nat.lt_of_lt_of_le hplace.claims hlanded
  have hsum := List.length_le_sum_of_one_le _ hone
  rwa [List.length_map, ← List.length_flatMap] at hsum

/-- The open slots only get fewer. -/
theorem openSlots_le {won : List Candidate} (h : ledger.Accounts placements won) :
    ledger.openSlots ≤ Placement.totalWanted placements := by
  have hslots := h.slots
  exact UInt64.le_iff_toNat_le.mpr (by omega)

end Fill

/-! ## Awards -/

namespace Award

def exchangeChecked (limits : Limits) (tail winners : List Candidate) (workspace : Workspace) :
    Option (Award × Workspace) := do
  let flags := workspace.flags.lease limits
  let indices := workspace.indices.lease limits
  let done ← Exchange.ofFillChecked tail winners flags.1.buffer indices.1.buffer
  some (⟨done.winners, done.replaced⟩,
    { workspace with
      indices := indices.2.takeBack ⟨done.marks.found, limits⟩
      flags := flags.2.takeBack ⟨done.marks.taken, limits⟩ })

/-- The capacity of the pool is only summed up if the settings ask for an exchange. -/
def exchangesChecked (settings : Settings) (pool : List Candidate) (used : UInt64) : Option Bool :=
  if settings.exchange then
    (Word.sumChecked (pool.map Candidate.capacity)).map fun capacity => decide (used < capacity)
  else some false

def ofFillChecked (settings : Settings) (pool : List Candidate) (placements : List Placement)
    (fill : Fill.Indexed) (workspace : Workspace) : Option (Award × Workspace) := do
  let used ← Word.subChecked (Placement.totalWanted placements) fill.ledger.openSlots
  match fill.tailStart? with
  | some start => do
      let tail ← Fill.fromChecked pool start
      let exchanging ← exchangesChecked settings pool used
      if exchanging then exchangeChecked settings.limits tail fill.winners workspace
      else some (⟨fill.winners, 0⟩, workspace)
  | none => some (⟨fill.winners, 0⟩, workspace)

def ofPoolChecked (settings : Settings) (pool : List Candidate) (placements : List Placement)
    (workspace : Workspace) : Option (Award × Workspace) := do
  let fills := workspace.tallies.lease settings.limits
  let deltas := fills.2.lease settings.limits
  let fill ← Fill.ofPoolChecked placements pool fills.1.buffer deltas.1.buffer
  let result ← ofFillChecked settings pool placements fill { workspace with tallies := deltas.2 }
  let tallies := result.2.tallies.takeBack ⟨fill.ledger.deltas, settings.limits⟩
  some (result.1,
    { result.2 with tallies := tallies.takeBack ⟨fill.ledger.fills, settings.limits⟩ })

section

variable {settings : Settings} {pool : List Candidate} {placements : List Placement}
  {workspace : Workspace}

theorem exchangeChecked_eq {limits : Limits} {winners : List Candidate}
    (hempty : (workspace.flags.lease limits).1.buffer.cells = [])
    (hfew : winners.length ≤ Word.limit) (tail : List Candidate) :
    exchangeChecked limits tail winners workspace =
      some (exchange limits tail winners workspace) := by
  rw [exchangeChecked, Exchange.ofFillChecked_eq hempty hfew]
  simp [exchange, Exchange.progress, Exchange.winners]

theorem exchangesChecked_eq (hcapacity : (pool.map (·.capacity.toNat)).sum ≤ Word.limit)
    (used : UInt64) :
    exchangesChecked settings pool used =
      some (settings.exchange && decide (used < Candidate.totalCapacity pool)) := by
  have hwords : ((pool.map Candidate.capacity).map UInt64.toNat).sum ≤ Word.limit := by
    rwa [List.map_map]
  rw [exchangesChecked, Word.sumChecked_eq hwords]
  cases settings.exchange with
  | true => rfl
  | false => rfl

/-- The award of a fill: what is used is what is not open any more, and the tail is where the walk stopped. -/
theorem ofFillChecked_eq {ledger : Ledger} (h : ledger.Accounts placements [])
    (hempty : (workspace.flags.lease settings.limits).1.buffer.cells = [])
    (hfew : (awardedSlots pool).length ≤ Word.limit)
    (hcapacity : (pool.map (·.capacity.toNat)).sum ≤ Word.limit) :
    ofFillChecked settings pool placements ((Fill.walk placements pool ledger).indexed 0 pool)
        workspace =
      some (ofFill settings pool placements (Fill.walk placements pool ledger) workspace) := by
  have hopen := Fill.openSlots_le (Fill.walk_accounts h pool)
  have hwinners : (Fill.walk placements pool ledger).winners.length ≤ Word.limit := by
    have hslots := awardedSlots_sublist (Fill.walk_winners_sublist placements pool ledger)
    exact (Fill.length_winners_le h).trans (hslots.length_le.trans hfew)
  unfold ofFillChecked ofFill Fill.indexed
  dsimp only
  rw [Word.subChecked_eq hopen]
  cases htail : (Fill.walk placements pool ledger).tail? with
  | none => rfl
  | some tail =>
      simp only [Option.bind_eq_bind, Option.bind_some, Option.map_some, Fill.fromChecked_eq htail,
        exchangesChecked_eq hcapacity, exchangeChecked_eq hempty hwinners]
      rw [exchanges, Fill.usedSlots]
      split
      · rfl
      · rfl

theorem ofPoolChecked_eq (h : workspace.Reached) (hfew : (awardedSlots pool).length ≤ Word.limit)
    (hcapacity : (pool.map (·.capacity.toNat)).sum ≤ Word.limit) :
    ofPoolChecked settings pool placements workspace =
      some (ofPool settings pool placements workspace) := by
  unfold ofPoolChecked ofPool
  dsimp only
  generalize workspace.tallies.lease settings.limits = fills
  generalize fills.2.lease settings.limits = deltas
  have haccounts := Ledger.accounts_start placements fills.1.buffer deltas.1.buffer
  have hfew' : (awardedSlots ([] ++ pool)).length < 2 ^ 64 := Nat.lt_of_le_pred (by decide) hfew
  have hfill : Fill.ofPoolChecked placements pool fills.1.buffer deltas.1.buffer =
      some ((Fill.ofPool placements pool fills.1.buffer deltas.1.buffer).indexed 0 pool) :=
    Fill.walkChecked_eq haccounts hfew' 0
  have hresult : ofFillChecked settings pool placements
      ((Fill.ofPool placements pool fills.1.buffer deltas.1.buffer).indexed 0 pool)
      { workspace with tallies := deltas.2 } =
        some (ofFill settings pool placements
          (Fill.ofPool placements pool fills.1.buffer deltas.1.buffer)
          { workspace with tallies := deltas.2 }) :=
    ofFillChecked_eq haccounts (lease_flags_cells h settings) hfew hcapacity
  rw [hfill]
  simp only [Option.bind_eq_bind, Option.bind_some, hresult]
  rfl

end

end Award
/-! ## Calls for winners -/

namespace Auction

variable {γ : Type} [WordSource γ]

def stepChecked (auction : Auction γ) (placements : List Placement) (workspace : Workspace) :
    Option (Step γ) :=
  if placements.isEmpty || auction.pool.isEmpty then some ⟨Award.nothing, auction, workspace⟩
  else do
    let arranged := auction.arrange
    let result ← Award.ofPoolChecked arranged.settings arranged.pool placements workspace
    some ⟨result.1, arranged, result.2⟩

/-- The slots that the winners state are summed up for the report. -/
def reportChecked (auction : Auction γ) (placements : List Placement) (workspace : Workspace) :
    Option (Report × Auction γ × Workspace) := do
  let step ← auction.stepChecked placements workspace
  let winners := step.award.winners
  let filled ← Word.sumChecked (winners.map Candidate.capacity)
  let outcome := Outcome.ofWinners placements step.auction.pool winners step.award.replaced
  some (⟨winners, { outcome with slotsFilled := filled }⟩, step.auction, step.workspace)

theorem stepChecked_eq {auction : Auction γ} {workspace : Workspace} (h : workspace.Reached)
    (hslots : (awardedSlots auction.pool).length ≤ Word.limit)
    (hcapacity : (auction.pool.map (·.capacity.toNat)).sum ≤ Word.limit)
    (placements : List Placement) :
    auction.stepChecked placements workspace = some (auction.step placements workspace) := by
  have hperm := auction.arrange_perm
  have hslots' : (awardedSlots auction.arrange.pool).length ≤ Word.limit :=
    (awardedSlots_perm hperm).length_eq.trans_le hslots
  have hcapacity' : (auction.arrange.pool.map (·.capacity.toNat)).sum ≤ Word.limit :=
    (hperm.map _).sum_eq.trans_le hcapacity
  unfold stepChecked step
  by_cases hnothing : (placements.isEmpty || auction.pool.isEmpty) = true
  · rw [if_pos hnothing, if_pos hnothing]
  · rw [if_neg hnothing, if_neg hnothing]
    dsimp only
    rw [Award.ofPoolChecked_eq h hslots' hcapacity']
    rfl

/-- Winners state no more slots than the pool does. -/
theorem sum_capacity_winners_le (auction : Auction γ) (placements : List Placement)
    (workspace : Workspace) :
    ((auction.step placements workspace).award.winners.map (·.capacity.toNat)).sum ≤
      (auction.pool.map (·.capacity.toNat)).sum := by
  obtain ⟨chosen, hperm, hsub⟩ := auction.winners_step_subperm placements workspace
  rw [← (hperm.map _).sum_eq]
  exact (hsub.map _).sum_le_sum fun _ _ => Nat.zero_le _

/-- No check of a match ever fails, if the slots of the pool and its capacities are words: whatever the
candidates say, whatever the placements want, and however the pool is shuffled. -/
theorem matching_stays_in_bounds (auction : Auction γ) (placements : List Placement)
    {workspace : Workspace} (h : workspace.Reached)
    (hslots : (awardedSlots auction.pool).length < 2 ^ 64)
    (hcapacity : (auction.pool.map (·.capacity.toNat)).sum < 2 ^ 64) :
    auction.stepChecked placements workspace = some (auction.step placements workspace) ∧
      auction.reportChecked placements workspace = some (auction.report placements workspace) := by
  have hstep := stepChecked_eq h (Nat.le_pred_of_lt hslots) (Nat.le_pred_of_lt hcapacity) placements
  refine ⟨hstep, ?_⟩
  have hwinners := auction.sum_capacity_winners_le placements workspace
  have hwords : (((auction.step placements workspace).award.winners.map Candidate.capacity).map
      UInt64.toNat).sum ≤ Word.limit := by
    rw [List.map_map]
    exact hwinners.trans (Nat.le_pred_of_lt hcapacity)
  rw [reportChecked, hstep]
  simp only [Option.bind_eq_bind, Option.bind_some, Word.sumChecked_eq hwords]
  rfl

end Auction

namespace Sample

/-- Partners come to the crowd: one counts as many parts as a word can say, the other one too few. -/
def boasters : List Candidate :=
  crowd ++
    [.partnerBundle "much" "sidebar" (.ofUnits 4)
       [priced "much-1" "leaderboard" 2, priced "much-2" "elsewhere" 2]
       (some 18446744073709551615) (some 1),
     .partnerBundle "little" "footer" (.ofUnits 3)
       [priced "little-1" "leaderboard" 1, priced "little-2" "footer" 2] (some 1) none]

def boastAuction : Auction Scripted :=
  (Auction.start Settings.defaults (Scripted.start [] 0)).push boasters

end Sample

theorem Auction.matching_stays_in_bounds_of_boasters :
    Workspace.empty.Reached ∧ (awardedSlots Sample.boastAuction.pool).length < 2 ^ 64 ∧
      (Sample.boastAuction.pool.map (·.capacity.toNat)).sum < 2 ^ 64 ∧
        Sample.boastAuction.stepChecked Sample.page Workspace.empty =
          some (Sample.boastAuction.step Sample.page Workspace.empty) ∧
        Sample.boastAuction.reportChecked Sample.page Workspace.empty =
          some (Sample.boastAuction.report Sample.page Workspace.empty) := by
  have hslots : (awardedSlots Sample.boastAuction.pool).length < 2 ^ 64 := by decide
  have hcapacity : (Sample.boastAuction.pool.map (·.capacity.toNat)).sum < 2 ^ 64 := by decide
  exact ⟨Workspace.reached_empty, hslots, hcapacity,
    Auction.matching_stays_in_bounds Sample.boastAuction Sample.page Workspace.reached_empty hslots
      hcapacity⟩

end SlotAuction
