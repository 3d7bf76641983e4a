import SlotAuction.Proofs.Award
import SlotAuction.Proofs.History

/-!
# Conservation — no candidate is lost, invented, or awarded twice

Calls add candidates and move them about.  Winners are found in the pool, by the fill before the tail
and by the exchange in it, so each of them is one of the candidates that were added, and each
candidate that was added wins once at most.

* `Auction.winners_standAt_pushed` — where winners stand among what was pushed;
* `candidates_are_conserved` — that, and what the pool is, after any history of calls.
-/

namespace SlotAuction

variable {γ : Type} [WordSource γ]

/-- The winners, in their order, stand at distinct positions of whatever the pool was collected
from. -/
theorem Auction.winners_standAt_pushed {auction : Auction γ} {pushed : List Candidate}
    (h : auction.pool.Perm pushed) (placements : List Placement) (workspace : Workspace) :
    ∃ handles : List Nat, handles.Nodup ∧ (∀ handle ∈ handles, handle < pushed.length) ∧
      entriesAt pushed handles = (auction.step placements workspace).award.winners :=
  exists_positions ((auction.winners_step_subperm placements workspace).trans h.subperm)

/-- After any history of calls the pool is all that was pushed, in some order, and ranked if it counts
as arranged.  And the winners of any award are candidates that were pushed, told apart by when they
were, and none of them wins twice. -/
theorem candidates_are_conserved (settings : Settings) (source : γ) (history : List Call)
    (query : Query) (workspace : Workspace) :
    let auction := Auction.after settings source history
    let pushed := history.flatMap Call.candidates
    auction.pool.Perm pushed ∧
      (auction.arranged = true →
        auction.pool.Pairwise fun a b => (Candidate.fillOrder a b).isLE = true) ∧
        ∃ handles : List Nat, handles.Nodup ∧ (∀ handle ∈ handles, handle < pushed.length) ∧
          (query.answer auction workspace).1 = entriesAt pushed handles := by
  intro auction pushed
  have hpool : auction.pool.Perm pushed := Auction.pool_after settings source history
  refine ⟨hpool, Auction.ranked_after settings source history, ?_⟩
  obtain ⟨handles, hdistinct, hrange, hentries⟩ :=
    Auction.winners_standAt_pushed hpool query.placements workspace
  refine ⟨handles, hdistinct, hrange, ?_⟩
  rw [Query.answer_eq]
  exact hentries.symm

end SlotAuction
