import SlotAuction.Proofs.Outbidding

/-!
# StandIns — the tail is called upon from the head of each line

An exchange marks the entries of the tail that it calls in.  However many bundles it gave up, and however
many searches came to nothing before, the singles called for a placement are the first ones of its line,
and the line is ranked: nobody who was left behind offers more than one who was called.

* `Exchange.standIns` — the entries of the tail that an exchange marked;
* `Exchange.Swept.standIns_eq_take`, `Exchange.Swept.left_eq_drop` — of each line the first ones, and the
  others;
* `Award.exchange?`, `Auction.standIns` — the exchange that an award runs, and whom it calls;
* `Auction.step_award_eq_exchange` — the award is what that exchange comes to;
* `standIns_head_their_lines` — in every award, whoever is called stands at the head of a line.
-/

namespace SlotAuction

/-- Whether the entry at the position names the placement. -/
def namesAt (tail : List Candidate) (name : String) (p : Nat) : Bool :=
  tail[p]?.any fun c => c.placement == name

theorem lt_of_mem_lineFor {tail : List Candidate} {name : String} {p : Nat}
    (h : p ∈ lineFor tail name) : p < tail.length := by
  obtain ⟨c, hc, _⟩ := mem_lineFor.mp h
  exact (List.getElem?_eq_some_iff.mp hc).1

/-- If all but the first ones of a row are left out, the first ones remain. -/
theorem filter_eq_take {row : List Nat} (hdistinct : row.Nodup) {chosen : Nat → Prop}
    [DecidablePred chosen] {k : Nat} (h : row.filter (¬ chosen ·) = row.drop k) :
    row.filter chosen = row.take k := by
  have hsplit : (row.take k ++ row.drop k).Nodup := by rwa [List.take_append_drop]
  have hfirst : ∀ p ∈ row.take k, decide (chosen p) = true := by
    intro p hp
    by_contra hnot
    have hleft : p ∈ row.drop k := by
      rw [← h]
      exact List.mem_filter.mpr ⟨List.mem_of_mem_take hp, by simpa using hnot⟩
    exact (List.nodup_append.mp hsplit).2.2 p hp p hleft rfl
  have hlater : ∀ p ∈ row.drop k, ¬ decide (chosen p) = true := by
    intro p hp
    rw [← h] at hp
    simpa using (List.mem_filter.mp hp).2
  calc row.filter chosen
      = (row.take k ++ row.drop k).filter chosen := by rw [List.take_append_drop]
    _ = row.take k := by
        rw [List.filter_append, List.filter_eq_self.mpr hfirst, List.filter_eq_nil_iff.mpr hlater,
          List.append_nil]

/-! ## Whom an exchange calls -/

namespace Exchange

open Marks (waiting)

/-- The positions that are marked as taken, in the order of the tail. -/
def standIns (tail : List Candidate) (e : Exchange) : List Nat :=
  (List.range tail.length).filter fun p => e.marks.taken.cells[p]? == some true

/-- The marks of an exchange over a tail, with new buffers: nobody is taken. -/
def startMarks (tail : List Candidate) : Marks :=
  ⟨Buffer.empty.resize tail.length false, Buffer.empty⟩

theorem cells_startMarks (tail : List Candidate) :
    (startMarks tail).taken.cells = List.replicate tail.length false := by
  simp [startMarks, Buffer.empty]

section

variable {tail winners given refused : List Candidate} {available : Nat} {e : Exchange}
  {positions : List Nat}

/-- The entries that are marked in the end are those that the sweep took. -/
theorem Swept.mem_standIns
    (h : Swept tail winners available (startMarks tail) e given refused positions) {p : Nat} :
    p ∈ e.standIns tail ↔ p ∈ positions := by
  rw [standIns, List.mem_filter, List.mem_range, beq_iff_eq, h.marked, cells_startMarks]
  constructor
  · rintro ⟨_, hmarked⟩
    by_contra hnot
    rw [if_neg hnot, List.getElem?_replicate] at hmarked
    split at hmarked <;> cases hmarked
  · intro hp
    exact ⟨(h.free p hp).lt, if_pos hp⟩

theorem Swept.standIns_perm
    (h : Swept tail winners available (startMarks tail) e given refused positions) :
    (e.standIns tail).Perm positions :=
  (List.perm_ext_iff_of_nodup (List.nodup_range.filter _) h.distinct).mpr fun _ => h.mem_standIns

/-- Whoever still waits in the end was not called. -/
theorem Swept.waiting_eq
    (h : Swept tail winners available (startMarks tail) e given refused positions) (name : String) :
    waiting tail e.marks.taken.cells name =
      (lineFor tail name).filter (· ∉ e.standIns tail) := by
  refine List.filter_congr fun p hp => ?_
  rw [h.marked, cells_startMarks, List.getElem?_replicate, if_pos (lt_of_mem_lineFor hp)]
  by_cases hcalled : p ∈ positions
  · simp [hcalled, h.mem_standIns]
  · simp [hcalled, h.mem_standIns]

/-- Those of a line who are not called are all but the first ones. -/
theorem Swept.left_eq_drop
    (h : Swept tail winners available (startMarks tail) e given refused positions) (name : String) :
    ∃ k, (lineFor tail name).filter (· ∉ e.standIns tail) = (lineFor tail name).drop k := by
  obtain ⟨k, hk⟩ := h.served name
  -- Nobody is taken at the start, so the whole line waits.
  have hstart : waiting tail (startMarks tail).taken.cells name = lineFor tail name := by
    refine List.filter_eq_self.mpr fun p hp => ?_
    rw [cells_startMarks, List.getElem?_replicate, if_pos (lt_of_mem_lineFor hp)]
    rfl
  rw [hstart, h.waiting_eq] at hk
  exact ⟨k, hk⟩

/-- Those who are called for a placement are singles, and so they stand in its line. -/
theorem Swept.filter_namesAt
    (h : Swept tail winners available (startMarks tail) e given refused positions) (name : String) :
    (e.standIns tail).filter (namesAt tail name) =
      (lineFor tail name).filter (· ∈ e.standIns tail) := by
  have hsame : ∀ p ∈ List.range tail.length,
      (namesAt tail name p && (e.marks.taken.cells[p]? == some true)) =
        (decide (p ∈ e.standIns tail) &&
          tail[p]?.any fun c => c.isSingle && c.placement == name) := by
    intro p hp
    by_cases hcalled : p ∈ e.standIns tail
    · obtain ⟨_, c, hc, hsingle⟩ := h.free p (h.mem_standIns.mp hcalled)
      have hmarked := (List.mem_filter.mp hcalled).2
      simp [namesAt, hc, hsingle, hmarked, hcalled]
    · have hmarked : (e.marks.taken.cells[p]? == some true) = false :=
        Bool.eq_false_iff.mpr fun hmarked => hcalled (List.mem_filter.mpr ⟨hp, hmarked⟩)
      simp [hmarked, hcalled]
  rw [lineFor, List.filter_filter, ← List.filter_congr hsame, ← List.filter_filter]
  rfl

/-- For each placement, those who are called are the first ones of its line. -/
theorem Swept.standIns_eq_take
    (h : Swept tail winners available (startMarks tail) e given refused positions) (name : String) :
    ∃ k, (e.standIns tail).filter (namesAt tail name) = (lineFor tail name).take k := by
  obtain ⟨k, hk⟩ := h.left_eq_drop name
  have hdistinct : (lineFor tail name).Nodup :=
    (lineFor_pairwise tail name).imp Nat.ne_of_lt
  exact ⟨k, (h.filter_namesAt name).trans (filter_eq_take hdistinct hk)⟩

end

end Exchange

/-! ## The exchange of an award -/

namespace Award

/-- The exchange that an award runs, with new buffers, if it runs one. -/
def exchange? (settings : Settings) (pool : List Candidate) (placements : List Placement) :
    Option Exchange :=
  (Fill.fresh placements pool).tail?.bind fun tail =>
    if exchanges settings pool placements (Fill.fresh placements pool) then
      some (Exchange.ofFill tail (Fill.fresh placements pool).winners Buffer.empty Buffer.empty)
    else none

variable {settings : Settings} {pool : List Candidate} {placements : List Placement}

theorem fresh_eq (settings : Settings) (pool : List Candidate) (placements : List Placement) :
    fresh settings pool placements =
      match exchange? settings pool placements with
      | some e => ofExchange e
      | none => ⟨(Fill.fresh placements pool).winners, 0⟩ := by
  rw [fresh, ofPool_fst, exchange?]
  cases (Fill.fresh placements pool).tail? with
  | none => rfl
  | some tail =>
      dsimp only [Option.bind_some]
      split
      · rfl
      · rfl

/-- An exchange goes over the tail of the fill, and sweeps the bundles that lead among the winners. -/
theorem sweep_of_exchange? {e : Exchange} (h : exchange? settings pool placements = some e) :
    ∃ given refused positions,
      Exchange.Swept (Fill.untried placements pool)
        (Candidate.sortForExchange (Fill.fresh placements pool).winners)
        (Fill.untried placements pool).length
        (Exchange.startMarks (Fill.untried placements pool)) e given refused positions := by
  unfold exchange? at h
  obtain ⟨tail, htail, hruns⟩ := Option.bind_eq_some_iff.mp h
  have huntried : Fill.untried placements pool = tail := by
    rw [Fill.untried, htail, Option.getD_some]
  split at hruns
  · cases hruns
    rw [huntried]
    exact Exchange.walk_sweeps ..
  · cases hruns

end Award

variable {γ : Type} [WordSource γ]

namespace Auction

/-- The positions in the tail of those whom an award calls in; without an exchange it calls nobody. -/
def standIns (auction : Auction γ) (placements : List Placement) : List Nat :=
  match Award.exchange? auction.settings auction.arrange.pool placements with
  | some e => e.standIns (Fill.untried placements auction.arrange.pool)
  | none => []

/-- Every call for winners gives what its exchange comes to, or else the winners of the fill. -/
theorem step_award_eq_exchange {workspace : Workspace} (h : workspace.Reached)
    (auction : Auction γ) (placements : List Placement) :
    (auction.step placements workspace).award =
      match Award.exchange? auction.settings auction.arrange.pool placements with
      | some e => Award.ofExchange e
      | none => ⟨(Fill.fresh placements auction.arrange.pool).winners, 0⟩ := by
  rw [step_award_eq_fresh h]
  by_cases hnothing : (placements.isEmpty || auction.pool.isEmpty) = true
  · obtain ⟨hnobody, hnotail⟩ := fill_of_nothing hnothing
    rw [if_pos hnothing, Award.exchange?, hnotail, hnobody]
    rfl
  · rw [if_neg hnothing]
    exact Award.fresh_eq ..

end Auction

/-! ## Calls in line -/

/-- From the winners `before` an exchange made those `after`.  It called in singles of the tail, for each
placement the first ones of the line, and left nobody behind who offers more for a slot. -/
structure CalledInLine (tail before after : List Candidate) (replaced : Nat) (standIns : List Nat) :
    Prop where
  result : ∃ given kept, before.Perm (given ++ kept) ∧ given.length = replaced ∧
    (∀ c ∈ given, c.isBundle = true) ∧ after.Perm (kept ++ entriesAt tail standIns)
  singles : ∀ c ∈ entriesAt tail standIns, c.isSingle = true
  heads : ∀ name, ∃ k, standIns.filter (namesAt tail name) = (lineFor tail name).take k
  noBetter : ∀ p q x y, tail[p]? = some x → tail[q]? = some y → Rivals x y → p ∉ standIns →
    q ∈ standIns → (compare x.perSlotValue y.perSlotValue).isLE = true

theorem calledInLine_nobody (tail winners : List Candidate) :
    CalledInLine tail winners winners 0 [] where
  result := ⟨[], winners, List.Perm.refl _, rfl, by simp, by simp⟩
  singles := by simp
  heads _ := ⟨0, rfl⟩
  noBetter _ _ _ _ _ _ _ _ hq := by cases hq

/-- Two singles of a line are ranked as they stand in the tail. -/
theorem Auction.Ranked.bid_of_lt_untried {auction : Auction γ} (h : auction.Ranked)
    {placements : List Placement} {p q : Nat} {x y : Candidate}
    (hx : (Fill.untried placements auction.arrange.pool)[p]? = some x)
    (hy : (Fill.untried placements auction.arrange.pool)[q]? = some y) (hrivals : Rivals x y)
    (hlt : q < p) : (compare x.perSlotValue y.perSlotValue).isLE = true := by
  obtain ⟨front, hsplit, _⟩ := Fill.exists_front placements auction.arrange.pool
  have hentry : ∀ r, auction.arrange.pool[front.length + r]? =
      (Fill.untried placements auction.arrange.pool)[r]? := by
    intro r
    rw [hsplit, List.getElem?_append_right (Nat.le_add_right _ _), Nat.add_sub_cancel_left, ← hsplit]
  rw [← hentry] at hx hy
  exact h.bid_of_lt hx hy hrivals (Nat.add_lt_add_left hlt _)

/-- After any history, in every award: the singles that an exchange calls in for a placement are the first
ones of its line in the tail, whatever became of other bundles before.  So of two singles in the tail for
one placement, the one that is left behind offers no more for a slot than the one that is called. -/
theorem standIns_head_their_lines (settings : Settings) (source : γ) (history : List Call)
    (query : Query) (workspace : Workspace) (h : workspace.Reached) :
    let auction := Auction.after settings source history
    CalledInLine (Fill.untried query.placements auction.arrange.pool)
      (Fill.fresh query.placements auction.arrange.pool).winners
      (query.answer auction workspace).1
      (auction.step query.placements workspace).award.replaced
      (auction.standIns query.placements) := by
  intro auction
  rw [Query.answer_eq, Auction.step_award_eq_exchange h, Auction.standIns]
  cases hruns : Award.exchange? auction.settings auction.arrange.pool query.placements with
  | none => exact calledInLine_nobody _ _
  | some e =>
      obtain ⟨given, refused, positions, hswept⟩ := Award.sweep_of_exchange? hruns
      have hcalled := entriesAt_perm (Fill.untried query.placements auction.arrange.pool)
        hswept.standIns_perm
      let ranked := Candidate.sortForExchange
        (Fill.fresh query.placements auction.arrange.pool).winners
      refine ⟨⟨given, refused ++ ranked.dropWhile Candidate.isBundle, ?_, hswept.count,
        hswept.bundles, ?_⟩, ?_, hswept.standIns_eq_take, ?_⟩
      · exact (List.mergeSort_perm ..).symm.trans hswept.split
      · exact hswept.result.trans (hcalled.symm.append_left _)
      · intro c hc
        exact Marks.isSingle_of_free hswept.free c (hcalled.mem_iff.mp hc)
      · intro p q x y hx hy hrivals hp hq
        -- The one that is called stands before the one that is not, and the pool is ranked.
        have hleads : LeadsRivals (Fill.untried query.placements auction.arrange.pool) positions :=
          hswept.leads.leadsRivals fun r hr => by simp [Exchange.cells_startMarks, hr]
        have hlt : q < p := hleads p q x y hx hy hrivals (mt hswept.mem_standIns.mpr hp)
          (hswept.mem_standIns.mp hq)
        exact (Auction.ranked_after settings source history).bid_of_lt_untried hx hy hrivals hlt

theorem standIns_head_their_lines_of_latecomers :
    Workspace.empty.Reached ∧
      CalledInLine (Fill.untried Sample.pair Sample.lateAuction.arrange.pool)
        (Fill.fresh Sample.pair Sample.lateAuction.arrange.pool).winners
        ((Query.award Sample.pair).answer Sample.lateAuction Workspace.empty).1
        (Sample.lateAuction.step Sample.pair Workspace.empty).award.replaced
        (Sample.lateAuction.standIns Sample.pair) :=
  ⟨Workspace.reached_empty,
    standIns_head_their_lines Settings.defaults (Scripted.start [] 0) [.push Sample.latecomers]
      (.award Sample.pair) Workspace.empty Workspace.reached_empty⟩

end SlotAuction
