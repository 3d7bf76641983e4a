import SlotAuction.Proofs.Anonymity
import SlotAuction.Proofs.Stability

/-!
# Ties — the shuffle settles ties, and nothing else

A ranked pool is settled up to ties by the candidates in it, whatever the order that they came in.  So if
candidates that tie are twins, then two ranked pools of the same candidates are one with all struck out in
which twins differ, and awards go by nothing else.

* `Candidate.map_anonymous_of_ranked` — ranked pools of the same candidates, in two orders;
* `shuffle_decides_ties_only` — two auctions of them, with any sources of words and any histories.
-/

namespace SlotAuction

open Candidate (Twins)

namespace Candidate

/-- Candidates that tie are twins. -/
def TiesAreTwins (pool : List Candidate) : Prop :=
  ∀ a ∈ pool, ∀ b ∈ pool, fillOrder a b = .eq → Twins a b

instance (pool : List Candidate) : Decidable (TiesAreTwins pool) :=
  inferInstanceAs (Decidable (∀ a ∈ pool, ∀ b ∈ pool, _))

variable {pool others : List Candidate}

theorem TiesAreTwins.of_perm (h : TiesAreTwins pool) (hperm : others.Perm pool) :
    TiesAreTwins others := by
  intro a ha b hb
  exact h a (hperm.mem_iff.mp ha) b (hperm.mem_iff.mp hb)

theorem pairwise_map_anonymous
    (h : pool.Pairwise fun a b => (fillOrder a b).isLE = true) :
    (pool.map anonymous).Pairwise fun a b => (fillOrder a b).isLE = true := by
  rw [List.pairwise_map]
  refine h.imp fun hle => ?_
  rwa [fillOrder_anonymous]

/-- Whoever stands at some place of one ranked pool ties with whoever stands there in another one of the
same candidates. -/
theorem map_anonymous_of_ranked (hties : TiesAreTwins pool) (hperm : others.Perm pool)
    (hpool : pool.Pairwise fun a b => (fillOrder a b).isLE = true)
    (hothers : others.Pairwise fun a b => (fillOrder a b).isLE = true) :
    others.map anonymous = pool.map anonymous := by
  refine List.Perm.eq_of_pairwise ?_ (pairwise_map_anonymous hothers) (pairwise_map_anonymous hpool)
    (hperm.map _)
  -- Sorted lists of the same entries are equal where the order is antisymmetric, and with all struck out
  -- in which twins differ it is so on the candidates at hand.
  intro a b ha hb hab hba
  obtain ⟨x, hx, rfl⟩ := List.mem_map.mp ha
  obtain ⟨y, hy, rfl⟩ := List.mem_map.mp hb
  rw [fillOrder_anonymous] at hab hba
  exact twins_iff.mp (hties x (hperm.mem_iff.mp hx) y hy (Std.OrientedCmp.isLE_antisymm hab hba))

end Candidate

/-! ## Two auctions -/

/-- The replies name twins in the same places, and have the same outcome if one was asked for. -/
structure Reply.Twins (r s : Reply) : Prop where
  winners : List.Forall₂ Candidate.Twins r.winners s.winners
  outcome : r.outcome? = s.outcome?

variable {γ δ : Type} [WordSource γ] [WordSource δ] {auction : Auction γ} {other : Auction δ}

namespace Auction

theorem settings_perform (auction : Auction γ) (call : Call) :
    (auction.perform call).settings = auction.settings := by
  cases call with
  | push candidates => rfl
  | pushOne candidate => rfl
  | query query workspace =>
      rw [perform, Query.answer_eq]
      unfold step
      split
      · rfl
      · exact auction.settings_arrange

theorem settings_after (settings : Settings) (source : γ) (history : List Call) :
    (after settings source history).settings = settings := by
  have hfold : ∀ auction : Auction γ,
      (history.foldl perform auction).settings = auction.settings := by
    induction history with
    | nil =>
        intro auction
        rfl
    | cons call history ih =>
        intro auction
        exact (ih (auction.perform call)).trans (auction.settings_perform call)
  exact hfold (start settings source)

theorem map_anonymous_arrange (hranked : auction.Ranked) (hranked' : other.Ranked)
    (hsame : other.pool.Perm auction.pool) (hties : Candidate.TiesAreTwins auction.pool) :
    other.arrange.pool.map Candidate.anonymous = auction.arrange.pool.map Candidate.anonymous := by
  have hperm : other.arrange.pool.Perm auction.arrange.pool :=
    other.arrange_perm.trans (hsame.trans auction.arrange_perm.symm)
  exact Candidate.map_anonymous_of_ranked (hties.of_perm auction.arrange_perm) hperm hranked.arrange
    hranked'.arrange

theorem step_award_anonymous (hranked : auction.Ranked) (hranked' : other.Ranked)
    (hsettings : other.settings = auction.settings) (hsame : other.pool.Perm auction.pool)
    (hties : Candidate.TiesAreTwins auction.pool) {workspace workspace' : Workspace}
    (h : workspace.Reached) (h' : workspace'.Reached) (placements : List Placement) :
    (other.step placements workspace').award.anonymous =
      (auction.step placements workspace).award.anonymous := by
  have hempty : other.pool.isEmpty = auction.pool.isEmpty := hsame.isEmpty_eq
  rw [step_award_eq_fresh h, step_award_eq_fresh h', hempty, hsettings]
  by_cases hnothing : (placements.isEmpty || auction.pool.isEmpty) = true
  · rw [if_pos hnothing, if_pos hnothing]
  · rw [if_neg hnothing, if_neg hnothing, ← Award.fresh_anonymous, ← Award.fresh_anonymous,
      map_anonymous_arrange hranked hranked' hsame hties]

end Auction

/-- From awards that are one with nobody known, replies name twins. -/
theorem Query.twins_replyOf (query : Query) {pool others : List Candidate} {award award' : Award}
    (hpool : others.length = pool.length) (h : award'.anonymous = award.anonymous) :
    Reply.Twins (query.replyOf pool award) (query.replyOf others award') := by
  obtain ⟨hwinners, hreplaced⟩ := Award.agree_of_anonymous h
  refine ⟨Candidate.forall₂_twins_iff.mpr hwinners.symm, ?_⟩
  cases query with
  | award placements => rfl
  | awardRequest request => rfl
  | report placements =>
      have houtcome := Outcome.ofWinners_congr placements hpool hwinners award.replaced
      show some _ = some (Outcome.ofWinners placements others award'.winners award'.replaced)
      rw [hreplaced, houtcome]

/-- Two auctions of the same candidates, whatever they draw their words from, in whatever order the
candidates came and whatever was asked in between: if candidates that tie are twins, then any query is
answered with twins in the same places, with the same outcome, and after as many exchanges. -/
theorem shuffle_decides_ties_only (settings : Settings) (source : γ) (source' : δ)
    (history history' : List Call) (query : Query) {workspace workspace' : Workspace}
    (h : workspace.Reached) (h' : workspace'.Reached)
    (hsame : (Auction.after settings source' history').pool.Perm
      (Auction.after settings source history).pool)
    (hties : Candidate.TiesAreTwins (Auction.after settings source history).pool) :
    Reply.Twins (query.reply (Auction.after settings source history) workspace)
        (query.reply (Auction.after settings source' history') workspace') ∧
      ((Auction.after settings source' history').step query.placements workspace').award.replaced =
        ((Auction.after settings source history).step query.placements workspace).award.replaced := by
  -- Of the histories it matters that they leave ranked pools, and the settings as they were.
  have hranked := Auction.ranked_after settings source history
  have hranked' := Auction.ranked_after settings source' history'
  have hsettings : (Auction.after settings source' history').settings =
      (Auction.after settings source history).settings := by
    rw [Auction.settings_after, Auction.settings_after]
  generalize Auction.after settings source history = auction at *
  generalize Auction.after settings source' history' = other at *
  have haward := Auction.step_award_anonymous hranked hranked' hsettings hsame hties h h'
    query.placements
  have hpool : (other.step query.placements workspace').auction.pool.length =
      (auction.step query.placements workspace).auction.pool.length := by
    calc (other.step query.placements workspace').auction.pool.length
        = other.pool.length := (other.step_pool query.placements workspace').length_eq
      _ = auction.pool.length := hsame.length_eq
      _ = (auction.step query.placements workspace).auction.pool.length :=
          (auction.step_pool query.placements workspace).length_eq.symm
  rw [Query.reply_eq, Query.reply_eq]
  exact ⟨query.twins_replyOf hpool haward, (Award.agree_of_anonymous haward).2⟩

/-- Two bundles tie, and so do the singles that could stand in for them. -/
def Sample.tied : List Candidate :=
  [.bundle "wide" [priced "wide-1" "top" 1, priced "wide-2" "top" 1, priced "wide-3" "side" 1],
   .bundle "solo-a" [priced "a-1" "top" 3], .bundle "solo-b" [priced "b-1" "top" 3],
   priced "late-a" "top" 2, priced "late-b" "top" 2, priced "side" "side" 4]

/-- The singles come first, and are awarded alone once. -/
def Sample.tiedHistory : List Call :=
  [.push (tied.drop 3), .query (.report pair) Workspace.empty, .push (tied.take 3)]

theorem Sample.tiesAreTwins_tied : Candidate.TiesAreTwins Sample.tied := by
  decide

theorem Sample.tiedHistory_perm :
    (Auction.after Settings.defaults (Scripted.start [] 8) Sample.tiedHistory).pool.Perm
      (Auction.after Settings.defaults (Scripted.start [] 7) [.push Sample.tied]).pool := by
  refine (Auction.pool_after ..).trans ?_
  show (tied.drop 3 ++ tied.take 3).Perm (tied.take 3 ++ tied.drop 3)
  exact List.perm_append_comm

theorem shuffle_decides_ties_only_of_tied :
    (Auction.after Settings.defaults (Scripted.start [] 8) Sample.tiedHistory).pool.Perm
        (Auction.after Settings.defaults (Scripted.start [] 7) [.push Sample.tied]).pool ∧
      Candidate.TiesAreTwins
        (Auction.after Settings.defaults (Scripted.start [] 7) [.push Sample.tied]).pool ∧
      Reply.Twins
        ((Query.report Sample.pair).reply
          (Auction.after Settings.defaults (Scripted.start [] 7) [.push Sample.tied])
          Workspace.empty)
        ((Query.report Sample.pair).reply
          (Auction.after Settings.defaults (Scripted.start [] 8) Sample.tiedHistory)
          Workspace.empty) := by
  have hties : Candidate.TiesAreTwins
      (Auction.after Settings.defaults (Scripted.start [] 7) [.push Sample.tied]).pool :=
    Sample.tiesAreTwins_tied
  exact ⟨Sample.tiedHistory_perm, hties,
    (shuffle_decides_ties_only _ _ _ _ Sample.tiedHistory (.report Sample.pair)
      Workspace.reached_empty Workspace.reached_empty Sample.tiedHistory_perm hties).1⟩

end SlotAuction
