import SlotAuction.Proofs.Award

/-!
# ExactExchange — an award with exchange against the same award without

Both awards fill alike.  The exchange then takes some bundles out of the winners, by their positions
in the pool, and puts as many singles of the tail in as the bundles had parts, for the same names.

* `ExactExchange` — the relation between the winners of both awards;
* `ExactExchange.slotNames_perm`, `ExactExchange.totalCapacity_eq` — such winners take the same
  slots, by name and in number;
* `Exchange.Swapped.exists_positions` — a swap, read as positions of the pool;
* `exchange_is_exact` — for plain candidates the two awards are so related.
-/

namespace SlotAuction

open Outcome (awardedSlots)
open scoped List

/-- From `before` to `after`, the winners at the positions `given` of the pool go, those at `kept`
stay, and those at `standIns` come.  No position is counted twice; what goes is bundles, what comes
is singles from `tailStart` on, for the same names. -/
structure ExactExchange (pool : List Candidate) (tailStart : Nat) (before after : List Candidate)
    (replaced : Nat) (given kept standIns : List Nat) : Prop where
  distinct : (given ++ kept ++ standIns).Nodup
  inPool : ∀ position ∈ given ++ kept ++ standIns, position < pool.length
  before_perm : before.Perm (entriesAt pool (given ++ kept))
  after_perm : after.Perm (entriesAt pool (kept ++ standIns))
  count : given.length = replaced
  bundles : ∀ c ∈ entriesAt pool given, c.isBundle = true
  singles : ∀ c ∈ entriesAt pool standIns, c.isSingle = true
  inTail : ∀ position ∈ standIns, tailStart ≤ position
  names : (slotNames (entriesAt pool standIns)).Perm (slotNames (entriesAt pool given))

namespace ExactExchange

variable {pool before after : List Candidate} {tailStart replaced : Nat}
  {given kept standIns : List Nat}

theorem mem_pool_before
    (h : ExactExchange pool tailStart before after replaced given kept standIns) :
    ∀ c ∈ before, c ∈ pool := by
  intro c hc
  exact mem_of_mem_entriesAt (h.before_perm.mem_iff.mp hc)

theorem mem_pool_after
    (h : ExactExchange pool tailStart before after replaced given kept standIns) :
    ∀ c ∈ after, c ∈ pool := by
  intro c hc
  exact mem_of_mem_entriesAt (h.after_perm.mem_iff.mp hc)

/-- Name by name, the winners take the same slots. -/
theorem slotNames_perm
    (h : ExactExchange pool tailStart before after replaced given kept standIns) :
    (slotNames after).Perm (slotNames before) := by
  calc slotNames after
      ~ slotNames (entriesAt pool kept) ++ slotNames (entriesAt pool standIns) := by
        simpa using SlotAuction.slotNames_perm h.after_perm
    _ ~ slotNames (entriesAt pool kept) ++ slotNames (entriesAt pool given) :=
        h.names.append_left _
    _ ~ slotNames (entriesAt pool given) ++ slotNames (entriesAt pool kept) :=
        List.perm_append_comm
    _ ~ slotNames before := by
        simpa using (SlotAuction.slotNames_perm h.before_perm).symm

/-- Plain candidates say that they take as many slots as they take, so the capacities agree too. -/
theorem totalCapacity_eq
    (h : ExactExchange pool tailStart before after replaced given kept standIns)
    (hplain : ∀ c ∈ pool, c.Plain) :
    Candidate.totalCapacity after = Candidate.totalCapacity before := by
  have hbefore : ∀ c ∈ before, c.Plain := fun c hc => hplain c (h.mem_pool_before c hc)
  have hafter : ∀ c ∈ after, c.Plain := fun c hc => hplain c (h.mem_pool_after c hc)
  have hlength : (awardedSlots after).length = (awardedSlots before).length := by
    rw [← length_slotNames, ← length_slotNames, h.slotNames_perm.length_eq]
  rw [Candidate.totalCapacity_of_plain hafter, Candidate.totalCapacity_of_plain hbefore, hlength]

end ExactExchange

/-! ## Positions of a swap -/

namespace Exchange.Swapped

variable {tail before after given kept : List Candidate} {taken : List Bool} {replaced : Nat}
  {standIns : List Nat}

theorem exists_positions (h : Swapped tail taken before after replaced given kept standIns)
    (hhonest : ∀ c ∈ before, c.Honest) {front : List Candidate} (hfront : before.Subperm front) :
    ∃ gone stayed came, ExactExchange (front ++ tail) front.length before after replaced
      gone stayed came := by
  obtain ⟨positions, hdistinct, hrange, hentries⟩ :=
    SlotAuction.exists_positions (h.split.symm.subperm.trans hfront)
  obtain ⟨gone, stayed, rfl, hgone, hstayed⟩ := List.filterMap_eq_append_iff.mp hentries
  have hgoneRange : ∀ p ∈ gone, p < front.length := fun p hp =>
    hrange p (List.mem_append_left _ hp)
  have hstayedRange : ∀ p ∈ stayed, p < front.length := fun p hp =>
    hrange p (List.mem_append_right _ hp)
  have hgoneEntries : entriesAt (front ++ tail) gone = given := by
    rw [entriesAt_front front tail hgoneRange]
    exact hgone
  have hstayedEntries : entriesAt (front ++ tail) stayed = kept := by
    rw [entriesAt_front front tail hstayedRange]
    exact hstayed
  have hgiven : ∀ c ∈ given, c.Honest := fun c hc =>
    hhonest c (h.split.mem_iff.mpr (List.mem_append_left _ hc))
  -- The stand-ins are found in the tail, which stands behind the front in the pool.
  refine ⟨gone, stayed, standIns.map (front.length + ·), ?_, ?_, ?_, ?_, ?_, ?_, ?_, ?_, ?_⟩
  · exact nodup_append_shift hdistinct h.distinct hrange
  · exact lt_of_mem_append_shift hrange fun p hp => (h.free p hp).lt
  · rw [entriesAt_append, hgoneEntries, hstayedEntries]
    exact h.split
  · rw [entriesAt_append, hstayedEntries, entriesAt_tail]
    exact h.result
  · rw [← h.count, ← hgone, ← entriesAt, length_entriesAt hgoneRange]
  · rw [hgoneEntries]
    exact h.bundles
  · rw [entriesAt_tail]
    exact Marks.isSingle_of_free h.free
  · intro p hp
    obtain ⟨r, _, rfl⟩ := List.mem_map.mp hp
    omega
  · rw [entriesAt_tail, hgoneEntries]
    exact h.names_perm hgiven

end Exchange.Swapped

/-! ## Two awards from one state -/

variable {γ : Type} [WordSource γ]

namespace Auction

/-- The same auction, set to exchange or not to. -/
def exchanging (auction : Auction γ) (exchange : Bool) : Auction γ :=
  { auction with settings := { auction.settings with exchange := exchange } }

theorem pool_arrange_exchanging (auction : Auction γ) (exchange : Bool) :
    (auction.exchanging exchange).arrange.pool = auction.arrange.pool := by
  unfold arrange exchanging
  split <;> rfl

/-- Without exchange the winners are those of the fill. -/
theorem winners_step_of_not_exchanging (auction : Auction γ) (placements : List Placement)
    (workspace : Workspace) :
    ((auction.exchanging false).step placements workspace).award.winners.Perm
      (Fill.fresh placements auction.arrange.pool).winners := by
  have hoff : (auction.exchanging false).settings.exchange = false := rfl
  rw [winners_step_of_no_exchange hoff, pool_arrange_exchanging]

end Auction

/-- From one state, whatever the shuffle and the workspaces: the winners with exchange are those
without, except that the bundles counted as exchanged made way for as many singles of the tail as
they had parts, name for name.  So every name gets as many slots, and as many are filled. -/
theorem exchange_is_exact (auction : Auction γ) (placements : List Placement)
    (workspace workspace' : Workspace) (hplain : ∀ c ∈ auction.pool, c.Plain) :
    (∃ given kept standIns,
      ExactExchange auction.arrange.pool (Fill.tailStart placements auction.arrange.pool)
        ((auction.exchanging false).report placements workspace).1.winners
        ((auction.exchanging true).report placements workspace').1.winners
        ((auction.exchanging true).step placements workspace').award.replaced
        given kept standIns) ∧
      (∀ name,
        (slotNames ((auction.exchanging true).report placements workspace').1.winners).count name =
          (slotNames ((auction.exchanging false).report placements workspace).1.winners).count
            name) ∧
      ((auction.exchanging true).report placements workspace').1.outcome.slotsFilled =
        ((auction.exchanging false).report placements workspace).1.outcome.slotsFilled := by
  have hpool : ∀ c ∈ auction.arrange.pool, c.Plain := by
    intro c hc
    exact hplain c (auction.arrange_perm.mem_iff.mp hc)
  have hbefore := auction.winners_step_of_not_exchanging placements workspace
  obtain ⟨taken, given, kept, standIns, hswap, _⟩ :=
    (auction.exchanging true).step_swaps placements workspace'
  rw [Auction.pool_arrange_exchanging] at hswap
  obtain ⟨front, hsplit, hsublist⟩ := Fill.exists_front placements auction.arrange.pool
  have hfront : ((auction.exchanging false).step placements workspace).award.winners.Subperm
      front :=
    hbefore.subperm.trans hsublist.subperm
  have hhonest : ∀ c ∈ ((auction.exchanging false).step placements workspace).award.winners,
      c.Honest := by
    intro c hc
    have hmem : c ∈ auction.arrange.pool := by
      rw [hsplit]
      exact List.mem_append_left _ (hfront.subset hc)
    exact (hpool c hmem).honest
  obtain ⟨gone, stayed, came, hexact⟩ := (hswap.of_perm hbefore).exists_positions hhonest hfront
  have hstart : Fill.tailStart placements auction.arrange.pool = front.length := by
    have hlength := congrArg List.length hsplit
    rw [List.length_append] at hlength
    unfold Fill.tailStart
    omega
  rw [← hsplit, ← hstart] at hexact
  refine ⟨⟨gone, stayed, came, hexact⟩, ?_, hexact.totalCapacity_eq hpool⟩
  intro name
  exact hexact.slotNames_perm.count_eq name

theorem exchange_is_exact_of_crowd :
    (∀ c ∈ Sample.crowdAuction.pool, c.Plain) ∧
      (∃ given kept standIns,
        ExactExchange Sample.crowdAuction.arrange.pool
          (Fill.tailStart Sample.page Sample.crowdAuction.arrange.pool)
          ((Sample.crowdAuction.exchanging false).report Sample.page Workspace.empty).1.winners
          ((Sample.crowdAuction.exchanging true).report Sample.page Workspace.empty).1.winners
          ((Sample.crowdAuction.exchanging true).step Sample.page Workspace.empty).award.replaced
          given kept standIns) ∧
        ((Sample.crowdAuction.exchanging true).report
            Sample.page Workspace.empty).1.outcome.slotsFilled =
          ((Sample.crowdAuction.exchanging false).report
            Sample.page Workspace.empty).1.outcome.slotsFilled := by
  have hplain : ∀ c ∈ Sample.crowdAuction.pool, c.Plain := by decide
  have hexact := exchange_is_exact Sample.crowdAuction Sample.page Workspace.empty Workspace.empty
    hplain
  exact ⟨hplain, hexact.1, hexact.2.2⟩

end SlotAuction
