import SlotAuction.Proofs.Stability

/-!
# Reuse — awards in buffers that others have used

All auctions lease their buffers from the same shelves, so an award may get a buffer that any number of
awards have written to, before it or beside it.  Neither they nor the limits on what is kept show in its
reply.

* `Visit`, `Workspace.afterVisits` — queries to auctions of all kinds, and the shelves after them;
* `Award.fresh_congr` — with new buffers, limits decide nothing;
* `reply_in_used_buffers` — so a reply is the one that new buffers give, whoever leased and gave back.
-/

namespace SlotAuction

/-! ## Visits to the shelves -/

/-- A query to an auction, which has settings and a source of its own. -/
structure Visit where
  {γ : Type}
  [source : WordSource γ]
  auction : Auction γ
  query : Query

attribute [instance] Visit.source

/-- The workspace as the visit leaves it. -/
def Visit.leave (visit : Visit) (workspace : Workspace) : Workspace :=
  (visit.query.answer visit.auction workspace).2.2

namespace Workspace

/-- The workspace after one visit after another, at first with nothing on its shelves. -/
def afterVisits (visits : List Visit) : Workspace :=
  visits.foldl (fun workspace visit => visit.leave workspace) empty

theorem Reached.leave {w : Workspace} (h : w.Reached) (visit : Visit) : (visit.leave w).Reached :=
  h.answer visit.query visit.auction

theorem Reached.foldl_leave {w : Workspace} (h : w.Reached) (visits : List Visit) :
    (visits.foldl (fun workspace visit => visit.leave workspace) w).Reached := by
  induction visits generalizing w with
  | nil => exact h
  | cons visit rest ih => exact ih (h.leave visit)

theorem reached_afterVisits (visits : List Visit) : (afterVisits visits).Reached :=
  reached_empty.foldl_leave visits

end Workspace

/-! ## Limits -/

/-- New buffers come without a shelf, so it does not matter how many a shelf would keep. -/
theorem Award.fresh_congr {settings settings' : Settings}
    (h : settings.exchange = settings'.exchange) (pool : List Candidate)
    (placements : List Placement) :
    fresh settings pool placements = fresh settings' pool placements := by
  have hgate : exchanges settings pool placements (Fill.fresh placements pool) =
      exchanges settings' pool placements (Fill.fresh placements pool) := by
    rw [exchanges, exchanges, h]
  rw [fresh, fresh, ofPool_fst, ofPool_fst, hgate]
  rfl

namespace Auction

variable {γ : Type}

/-- The same auction under other limits. -/
def withLimits (auction : Auction γ) (limits : Limits) : Auction γ :=
  { auction with settings := { auction.settings with limits := limits } }

variable [WordSource γ]

theorem pool_arrange_withLimits (auction : Auction γ) (limits : Limits) :
    (auction.withLimits limits).arrange.pool = auction.arrange.pool := by
  unfold arrange withLimits
  split <;> rfl

theorem pool_step_withLimits (auction : Auction γ) (limits : Limits) (placements : List Placement)
    (workspace workspace' : Workspace) :
    ((auction.withLimits limits).step placements workspace).auction.pool =
      (auction.step placements workspace').auction.pool := by
  have hpool : (auction.withLimits limits).pool = auction.pool := rfl
  unfold step
  rw [hpool]
  split
  · rfl
  · exact auction.pool_arrange_withLimits limits

/-- Limits and shelves decide nothing about an award. -/
theorem award_step_withLimits {workspace workspace' : Workspace} (h : workspace.Reached)
    (h' : workspace'.Reached) (auction : Auction γ) (limits : Limits)
    (placements : List Placement) :
    ((auction.withLimits limits).step placements workspace).award =
      (auction.step placements workspace').award := by
  -- On shelves that were reached either award is the one with new buffers, where limits are not read.
  have hexchange : (auction.withLimits limits).settings.exchange = auction.settings.exchange := rfl
  rw [step_award_eq_fresh h, step_award_eq_fresh h', pool_arrange_withLimits,
    Award.fresh_congr hexchange]
  rfl

end Auction

/-- Shelves that leases and returns lead to might as well be empty, and the limits might as well be
others. -/
theorem Query.reply_withLimits {γ : Type} [WordSource γ] {workspace workspace' : Workspace}
    (h : workspace.Reached) (h' : workspace'.Reached) (query : Query) (auction : Auction γ)
    (limits : Limits) :
    query.reply (auction.withLimits limits) workspace = query.reply auction workspace' := by
  rw [Query.reply_eq, Query.reply_eq, Auction.award_step_withLimits h h',
    Auction.pool_step_withLimits auction limits query.placements workspace workspace']

/-- Whoever used the shelves, with leases and returns in whatever order, and whatever is kept on them: the
reply to a query, winners and outcome, is that of the same auction under any other limits with nothing on
the shelves, where every lease is a new buffer.  This covers every history of visits: it leads to such
shelves. -/
theorem reply_in_used_buffers {γ : Type} [WordSource γ] (auction : Auction γ)
    (limits limits' : Limits) (query : Query) :
    (∀ workspace : Workspace, workspace.Reached →
      query.reply (auction.withLimits limits) workspace =
        query.reply (auction.withLimits limits') Workspace.empty) ∧
      ∀ visits, (Workspace.afterVisits visits).Reached :=
  ⟨fun _ h => Query.reply_withLimits h Workspace.reached_empty query (auction.withLimits limits') limits,
    Workspace.reached_afterVisits⟩

namespace Sample

/-- Two leases at a time, and both buffers come back with marks in them. -/
def busyFlags : Shelf Bool :=
  (((Shelf.empty.lease ⟨2, 64⟩).2.lease ⟨1, 8⟩).2.takeBack
    ⟨Buffer.empty.hold [true, true, true], ⟨1, 8⟩⟩).takeBack ⟨Buffer.empty.hold [true], ⟨2, 64⟩⟩

def busyShelves : Workspace :=
  { Workspace.empty with flags := busyFlags }

theorem reached_busyFlags : busyFlags.Reached :=
  (((Shelf.Reached.empty.lease _).lease _).takeBack _).takeBack _

theorem reached_busyShelves : busyShelves.Reached :=
  ⟨.empty, .empty, reached_busyFlags⟩

end Sample

/-- An award that may keep no buffer at all finds two on the shelf that were written to. -/
theorem reply_in_used_buffers_of_busy :
    Sample.busyShelves.Reached ∧ Sample.busyShelves.flags.idle.length = 2 ∧
      (Query.award Sample.page).reply (Sample.crowdAuction.withLimits ⟨0, 0⟩) Sample.busyShelves =
        ⟨Sample.crowd.drop 2, none⟩ ∧
      (Workspace.afterVisits [⟨Sample.lateAuction, .award Sample.pair⟩]).Reached := by
  obtain ⟨hreply, hvisits⟩ := reply_in_used_buffers Sample.crowdAuction ⟨0, 0⟩
    Settings.defaults.limits (.award Sample.page)
  have hfresh : (Query.award Sample.page).reply
      (Sample.crowdAuction.withLimits Settings.defaults.limits) Workspace.empty =
        ⟨Sample.crowd.drop 2, none⟩ := by
    show (⟨(Sample.crowdAuction.step Sample.page Workspace.empty).award.winners, none⟩ : Reply) = _
    rw [Sample.awarded_crowd]
  exact ⟨Sample.reached_busyShelves, rfl, (hreply _ Sample.reached_busyShelves).trans hfresh,
    hvisits _⟩

end SlotAuction
