import SlotAuction.Proofs.Fill.Precedence
import SlotAuction.Proofs.Shelves

/-!
# Outbidding — when a losing single bids more than a winning one

Singles for one placement are taken up in the order of their bids, so the fill never takes one and
leaves a higher one behind.  An exchange looks for its stand-ins in the tail, where it takes them in
the same order; but a single that the fill passed over is not in the tail, and is not asked again.

* `FirstServed` — winners by their positions, and which rivals that lost may come before them;
* `Exchange.Swapped.firstServed` — a swap after a fill leaves the winners so;
* `loser_outbids_only_standIn` — in an award, nobody but a stand-in bids less than a rival that lost;
* `early_outbids_late` — and there is an award where one does.
-/

namespace SlotAuction

/-- The winners stand at the positions `won`, and a single that won stands before its rivals that
lost; unless the rival stands before the tail, and the single in it. -/
structure FirstServed (pool : List Candidate) (tailStart : Nat) (winners : List Candidate)
    (won : List Nat) : Prop extends StandsAt pool winners won where
  served : ∀ p q x y, pool[p]? = some x → pool[q]? = some y → Rivals x y → p ∉ won → q ∈ won →
    q < p ∨ p < tailStart ∧ tailStart ≤ q

namespace Exchange.Swapped

variable {pool tail front before after given kept : List Candidate} {taken : List Bool}
  {replaced : Nat} {standIns picked : List Nat}

/-- The positions of the winners before, sorted into those given up and those kept. -/
theorem exists_split (h : Swapped tail taken before after replaced given kept standIns)
    (hentries : entriesAt pool picked = before) (hrange : ∀ p ∈ picked, p < pool.length) :
    ∃ gone stayed, (gone ++ stayed).Perm picked ∧ entriesAt pool gone = given ∧
      entriesAt pool stayed = kept := by
  subst hentries
  obtain ⟨positions, hperm, hsorted⟩ := exists_perm_positions hrange h.split
  obtain ⟨gone, stayed, rfl, hgone, hstayed⟩ := List.filterMap_eq_append_iff.mp hsorted
  exact ⟨gone, stayed, hperm, hgone, hstayed⟩

/-- A single is never given up. -/
theorem not_mem_gone (h : Swapped tail taken before after replaced given kept standIns)
    {gone : List Nat} (hgone : entriesAt pool gone = given) {p : Nat} {x : Candidate}
    (hx : pool[p]? = some x) (hsingle : x.isSingle = true) : p ∉ gone := by
  intro hmem
  have hbundle : x.isBundle = true := h.bundles x (hgone ▸ mem_entriesAt.mpr ⟨p, hmem, hx⟩)
  exact Candidate.not_isSingle_of_isBundle hbundle hsingle

/-- The positions that a swap leaves a fill with: those that stayed before the tail, and the stand-ins
in it. -/
theorem firstServed {fill : Fill}
    (h : Swapped tail taken fill.winners after replaced given kept standIns)
    (hleads : LeadsRivals tail standIns) (hpicks : Fill.Picks pool fill picked)
    (htail : fill.tail?.getD [] = tail) (hpool : pool = front ++ tail) :
    ∃ stayed, (∀ p ∈ stayed, p < front.length) ∧
      FirstServed pool front.length after (stayed ++ standIns.map (front.length + ·)) := by
  subst hpool
  have hbefore : ∀ p ∈ picked, p < front.length := by
    intro p hp
    have hlt := hpicks.beforeTail p hp
    rw [htail, List.length_append] at hlt
    omega
  have hpickedRange : ∀ p ∈ picked, p < (front ++ tail).length := by
    intro p hp
    rw [List.length_append]
    exact Nat.lt_add_right _ (hbefore p hp)
  obtain ⟨gone, stayed, hperm, hgone, hstayed⟩ := h.exists_split hpicks.entries hpickedRange
  have hdistinct : (gone ++ stayed).Nodup := hperm.nodup_iff.mpr hpicks.distinct
  have hstayedPicked : ∀ p ∈ stayed, p ∈ picked := fun p hp =>
    hperm.mem_iff.mp (List.mem_append_right _ hp)
  have hstayedRange : ∀ p ∈ stayed, p < front.length := fun p hp => hbefore p (hstayedPicked p hp)
  have hstandIns : ∀ p ∈ standIns, p < tail.length := fun p hp => (h.free p hp).lt
  refine ⟨stayed, hstayedRange, ⟨?_, lt_of_mem_append_shift hstayedRange hstandIns, ?_⟩, ?_⟩
  · exact nodup_append_shift (List.nodup_append.mp hdistinct).2.1 h.distinct hstayedRange
  · rw [entriesAt_append, entriesAt_tail, hstayed]
    exact h.result
  · intro p q x y hx hy hrivals hp hq
    rcases List.mem_append.mp hq with hqstayed | hqcame
    · -- The fill took `y`, and it did not take `x`, which would have stayed.
      left
      have hplost : p ∉ picked := by
        intro hmem
        rcases List.mem_append.mp (hperm.mem_iff.mpr hmem) with hpgone | hpstayed
        · exact h.not_mem_gone hgone hx hrivals.left hpgone
        · exact hp (List.mem_append_left _ hpstayed)
      exact hpicks.leads p q x y hx hy hrivals hplost (hstayedPicked q hqstayed)
    · obtain ⟨r, hr, rfl⟩ := List.mem_map.mp hqcame
      by_cases hfront : p < front.length
      · right
        exact ⟨hfront, Nat.le_add_right _ _⟩
      · -- Both stand in the tail, where the exchange takes the first one first.
        left
        obtain ⟨s, rfl⟩ := Nat.exists_eq_add_of_le (Nat.le_of_not_lt hfront)
        have hslost : s ∉ standIns := fun hmem =>
          hp (List.mem_append_right _ (mem_map_shift.mpr hmem))
        rw [List.getElem?_append_right (Nat.le_add_right _ _), Nat.add_sub_cancel_left] at hx hy
        exact Nat.add_lt_add_left (hleads s r x y hx hy hrivals hslost hr) _

end Exchange.Swapped

variable {γ : Type} [WordSource γ]

/-- Every call for winners leaves them first served, and stand-ins come from an exchange. -/
theorem Auction.step_firstServed (auction : Auction γ) (placements : List Placement)
    {workspace : Workspace} (h : workspace.Reached) :
    ∃ won, FirstServed auction.arrange.pool (Fill.tailStart placements auction.arrange.pool)
        (auction.step placements workspace).award.winners won ∧
      ∀ q ∈ won, Fill.tailStart placements auction.arrange.pool ≤ q →
        auction.settings.exchange = true ∧
          0 < (auction.step placements workspace).award.replaced := by
  obtain ⟨given, kept, standIns, hswap, hgiven⟩ := auction.step_swaps_from placements workspace
  obtain ⟨picked, hpicks⟩ := Fill.fresh_picks placements auction.arrange.pool
  obtain ⟨front, hsplit, _⟩ := Fill.exists_front placements auction.arrange.pool
  rw [Fill.tailStart_of_split hsplit]
  rw [Award.takenAtStart_of_reached h] at hswap
  have hleads : LeadsRivals (Fill.untried placements auction.arrange.pool) standIns :=
    hswap.leads.leadsRivals fun p hp => by simp [hp]
  obtain ⟨stayed, hstayed, hserved⟩ := hswap.firstServed hleads hpicks rfl hsplit
  refine ⟨_, hserved, fun q hq hintail => ?_⟩
  -- Somebody stands in the tail, so a bundle was given up.
  have hsome : given ≠ [] := by
    rintro rfl
    have hnone : standIns = [] := List.length_eq_zero_iff.mp hswap.claims
    subst hnone
    have := hstayed q (by simpa using hq)
    omega
  refine ⟨(hgiven hsome).1, ?_⟩
  rw [← hswap.count]
  exact List.length_pos_iff.mpr hsome

/-- A single that is ranked before a rival bids no less for its slot. -/
theorem Auction.Ranked.bid_of_lt {auction : Auction γ} (h : auction.Ranked) {p q : Nat}
    {x y : Candidate} (hx : auction.arrange.pool[p]? = some x)
    (hy : auction.arrange.pool[q]? = some y) (hrivals : Rivals x y) (hlt : q < p) :
    (compare x.perSlotValue y.perSlotValue).isLE = true := by
  obtain ⟨hp, rfl⟩ := List.getElem?_eq_some_iff.mp hx
  obtain ⟨hq, rfl⟩ := List.getElem?_eq_some_iff.mp hy
  have hranked := List.pairwise_iff_getElem.mp h.arrange q p hq hp hlt
  rwa [Candidate.fillOrder_of_singles hrivals.right hrivals.left] at hranked

/-- After any history, in any award: if a single that lost bids more for a slot than a winning single
for the same placement, the loser stands before the tail, and the winner in the tail, from where an
exchange called it in. -/
theorem loser_outbids_only_standIn (settings : Settings) (source : γ) (history : List Call)
    (query : Query) (workspace : Workspace) (h : workspace.Reached) :
    let auction := Auction.after settings source history
    let pool := auction.arrange.pool
    let tailStart := Fill.tailStart query.placements pool
    ∃ won, StandsAt pool (query.answer auction workspace).1 won ∧
      ∀ p q x y, pool[p]? = some x → pool[q]? = some y → Rivals x y → p ∉ won → q ∈ won →
        (compare x.perSlotValue y.perSlotValue).isLE = true ∨
          p < tailStart ∧ tailStart ≤ q ∧ auction.settings.exchange = true ∧
            0 < (auction.step query.placements workspace).award.replaced := by
  intro auction pool tailStart
  obtain ⟨won, hserved, htail⟩ := auction.step_firstServed query.placements h
  refine ⟨won, ?_, ?_⟩
  · rw [Query.answer_eq]
    exact hserved.toStandsAt
  · intro p q x y hx hy hrivals hp hq
    rcases hserved.served p q x y hx hy hrivals hp hq with hlt | ⟨hfront, hintail⟩
    · left
      exact (Auction.ranked_after settings source history).bid_of_lt hx hy hrivals hlt
    · right
      exact ⟨hfront, hintail, htail q hq hintail⟩

theorem loser_outbids_only_standIn_of_latecomers :
    Workspace.empty.Reached ∧
      ∃ won, StandsAt Sample.lateAuction.arrange.pool
          ((Query.award Sample.pair).answer Sample.lateAuction Workspace.empty).1 won ∧
        ∀ p q x y, Sample.lateAuction.arrange.pool[p]? = some x →
          Sample.lateAuction.arrange.pool[q]? = some y → Rivals x y → p ∉ won → q ∈ won →
            (compare x.perSlotValue y.perSlotValue).isLE = true ∨
              p < Fill.tailStart Sample.pair Sample.lateAuction.arrange.pool ∧
                Fill.tailStart Sample.pair Sample.lateAuction.arrange.pool ≤ q ∧
                  Sample.lateAuction.settings.exchange = true ∧
                    0 < (Sample.lateAuction.step Sample.pair Workspace.empty).award.replaced :=
  ⟨Workspace.reached_empty,
    loser_outbids_only_standIn Settings.defaults (Scripted.start [] 0) [.push Sample.latecomers]
      (.award Sample.pair) Workspace.empty Workspace.reached_empty⟩

/-! ## A single that is not asked again -/

theorem Sample.winners_of_latecomers :
    ((Query.award pair).answer lateAuction Workspace.empty).1 =
      [late, priced "side" "side" 4] :=
  congrArg Award.winners awarded_latecomers

/-- The fill passed over the early single for a bundle, and the late one stands in for the bundle,
although it bids less. -/
theorem early_outbids_late :
    Sample.early ∈ Sample.lateAuction.pool ∧ Rivals Sample.early Sample.late ∧
      (Placement.locate Sample.pair Sample.early.placement).isSome = true ∧
        Sample.early ∉ ((Query.award Sample.pair).answer Sample.lateAuction Workspace.empty).1 ∧
        Sample.late ∈ ((Query.award Sample.pair).answer Sample.lateAuction Workspace.empty).1 ∧
          (compare Sample.early.perSlotValue Sample.late.perSlotValue).isLE = false := by
  rw [Sample.winners_of_latecomers]
  refine ⟨?_, ⟨rfl, rfl, rfl⟩, rfl, ?_, List.mem_cons_self .., by decide⟩
  · show Sample.early ∈ [] ++ Sample.latecomers
    simp [Sample.latecomers]
  · simp [Sample.early, Sample.late, Sample.priced]

end SlotAuction
