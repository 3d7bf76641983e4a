import SlotAuction.Auction
import SlotAuction.Proofs.Ranking

/-!
# History — an auction after any sequence of calls

* `Query` — the three ways to ask an auction for winners, which all come down to one step
  (`Query.answer_eq`);
* `Call` — a query, or candidates that are added;
* `Auction.after` — the auction after a list of calls;
* `Auction.pool_after` — whose pool is all that the calls added, in some order;
* `Auction.Ranked` — a pool that counts as arranged is ranked, after every history
  (`Auction.ranked_after`).

The workspace is shared with other auctions, so every query brings the one that it finds.
-/

namespace SlotAuction

variable {γ : Type} [WordSource γ]

/-! ## Queries -/

inductive Query where
  | award (placements : List Placement)
  | awardRequest (request : Request)
  | report (placements : List Placement)

namespace Query

def placements : Query → List Placement
  | award placements => placements
  | awardRequest request => request.placements
  | report placements => placements

/-- The winners, and the auction and the workspace after it. -/
def answer (query : Query) (auction : Auction γ) (workspace : Workspace) :
    List Candidate × Auction γ × Workspace :=
  match query with
  | award placements => auction.award placements workspace
  | awardRequest request => auction.awardRequest request workspace
  | report placements =>
      let answer := auction.report placements workspace
      (answer.1.winners, answer.2)

theorem answer_eq (query : Query) (auction : Auction γ) (workspace : Workspace) :
    query.answer auction workspace =
      ((auction.step query.placements workspace).award.winners,
        (auction.step query.placements workspace).auction,
        (auction.step query.placements workspace).workspace) := by
  cases query <;> rfl

end Query

/-! ## Calls -/

inductive Call where
  | push (candidates : List Candidate)
  | pushOne (candidate : Candidate)
  | query (query : Query) (workspace : Workspace)

/-- The candidates that the call adds. -/
def Call.candidates : Call → List Candidate
  | .push candidates => candidates
  | .pushOne candidate => [candidate]
  | .query _ _ => []

namespace Auction

def perform (auction : Auction γ) : Call → Auction γ
  | .push candidates => auction.push candidates
  | .pushOne candidate => auction.pushOne candidate
  | .query query workspace => (query.answer auction workspace).2.1

/-- The auction after a history of calls. -/
def after (settings : Settings) (source : γ) (history : List Call) : Auction γ :=
  history.foldl perform (start settings source)

theorem step_pool (auction : Auction γ) (placements : List Placement) (workspace : Workspace) :
    (auction.step placements workspace).auction.pool.Perm auction.pool := by
  unfold step
  split
  · exact List.Perm.refl _
  · exact auction.arrange_perm

theorem perform_pool (auction : Auction γ) (call : Call) :
    (auction.perform call).pool.Perm (auction.pool ++ call.candidates) := by
  cases call with
  | push candidates => exact List.Perm.refl _
  | pushOne candidate => exact List.Perm.refl _
  | query query workspace =>
      rw [Call.candidates, List.append_nil, perform, Query.answer_eq]
      exact auction.step_pool query.placements workspace

theorem foldl_perform_pool (history : List Call) (auction : Auction γ) :
    (history.foldl perform auction).pool.Perm
      (auction.pool ++ history.flatMap Call.candidates) := by
  induction history generalizing auction with
  | nil => simp
  | cons call history ih =>
      rw [List.flatMap_cons, ← List.append_assoc]
      exact (ih (auction.perform call)).trans ((auction.perform_pool call).append_right _)

/-- Queries move the candidates about, and that is all they do to them. -/
theorem pool_after (settings : Settings) (source : γ) (history : List Call) :
    (after settings source history).pool.Perm (history.flatMap Call.candidates) :=
  foldl_perform_pool history (start settings source)

/-! ## Ranked pools -/

/-- If the pool counts as arranged, nobody in it comes before a candidate that outranks them. -/
def Ranked (auction : Auction γ) : Prop :=
  auction.arranged = true →
    auction.pool.Pairwise fun a b => (Candidate.fillOrder a b).isLE = true

theorem Ranked.arrange {auction : Auction γ} (h : auction.Ranked) :
    auction.arrange.pool.Pairwise fun a b => (Candidate.fillOrder a b).isLE = true := by
  unfold Auction.arrange
  by_cases harranged : auction.arranged = true
  · rw [if_pos harranged]
    exact h harranged
  · rw [if_neg harranged]
    exact Candidate.sortForFill_pairwise _

theorem Ranked.perform {auction : Auction γ} (h : auction.Ranked) (call : Call) :
    (auction.perform call).Ranked := by
  cases call with
  | push candidates =>
      intro harranged
      cases harranged
  | pushOne candidate =>
      intro harranged
      cases harranged
  | query query workspace =>
      rw [Auction.perform, Query.answer_eq]
      unfold step
      split
      · exact h
      · intro _
        exact h.arrange

theorem ranked_foldl_perform (history : List Call) {auction : Auction γ} (h : auction.Ranked) :
    (history.foldl perform auction).Ranked := by
  induction history generalizing auction with
  | nil => exact h
  | cons call history ih => exact ih (h.perform call)

theorem ranked_after (settings : Settings) (source : γ) (history : List Call) :
    (after settings source history).Ranked := by
  refine ranked_foldl_perform history ?_
  intro harranged
  cases harranged

end Auction
end SlotAuction
