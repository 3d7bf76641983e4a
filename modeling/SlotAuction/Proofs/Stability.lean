import SlotAuction.Proofs.Shelves

/-!
# Stability — awards repeated without new candidates

The first query that has something to award shuffles and ranks the pool.  From then on the pool stays
as it is, nothing is drawn from the source any more, and every reply is read off that pool, with
buffers that might as well be new.

* `Query.reply`, `Auction.replies` — what a query gives, and what one query after another gives;
* `Auction.afterQueries_of_arranged` — queries leave an arranged auction as it is;
* `Query.standingReply` — the reply of the pool as it stands, without shuffle or workspace;
* `Auction.replies_of_arranged` — every reply of an arranged auction is that one;
* `repeated_awards_agree` — so equal placements are answered alike.

Every query comes with the workspace that it finds, as other auctions use the same shelves in between.
-/

namespace SlotAuction

variable {γ : Type} [WordSource γ]

/-! ## Replies -/

/-- What a query gives back: the winners, and the outcome if a report was asked for. -/
structure Reply where
  winners : List Candidate
  outcome? : Option Outcome

namespace Query

def reply (query : Query) (auction : Auction γ) (workspace : Workspace) : Reply :=
  match query with
  | award placements => ⟨(auction.award placements workspace).1, none⟩
  | awardRequest request => ⟨(auction.awardRequest request workspace).1, none⟩
  | report placements =>
      let report := (auction.report placements workspace).1
      ⟨report.winners, some report.outcome⟩

/-- The reply that tells of an award from the pool. -/
def replyOf (query : Query) (pool : List Candidate) (award : Award) : Reply where
  winners := award.winners
  outcome? :=
    match query with
    | report placements => some (Outcome.ofWinners placements pool award.winners award.replaced)
    | _ => none

theorem reply_eq (query : Query) (auction : Auction γ) (workspace : Workspace) :
    query.reply auction workspace =
      query.replyOf (auction.step query.placements workspace).auction.pool
        (auction.step query.placements workspace).award := by
  cases query <;> rfl

end Query

namespace Auction

/-- The auction after one query after another. -/
def afterQueries (auction : Auction γ) (queries : List (Query × Workspace)) : Auction γ :=
  queries.foldl (fun auction call => (call.1.answer auction call.2).2.1) auction

/-- Each query with its reply. -/
def replies (auction : Auction γ) : List (Query × Workspace) → List (Query × Reply)
  | [] => []
  | (query, workspace) :: rest =>
      (query, query.reply auction workspace) ::
        replies (query.answer auction workspace).2.1 rest

/-! ## The arranged auction -/

theorem arranged_arrange (auction : Auction γ) : auction.arrange.arranged = true := by
  unfold arrange
  split
  · assumption
  · rfl

theorem arrange_of_arranged {auction : Auction γ} (h : auction.arranged = true) :
    auction.arrange = auction := by
  rw [arrange, if_pos h]

theorem isEmpty_pool_arrange (auction : Auction γ) :
    auction.arrange.pool.isEmpty = auction.pool.isEmpty := by
  rw [Bool.eq_iff_iff, List.isEmpty_iff_length_eq_zero, List.isEmpty_iff_length_eq_zero,
    auction.arrange_perm.length_eq]

/-- With something to award, the auction afterwards is arranged. -/
theorem step_auction_of_nonempty {auction : Auction γ} {placements : List Placement}
    (hplacements : placements ≠ []) (hpool : auction.pool ≠ []) (workspace : Workspace) :
    (auction.step placements workspace).auction = auction.arrange := by
  have hsomething : ¬ (placements.isEmpty || auction.pool.isEmpty) = true := by
    simp [hplacements, hpool]
  rw [step, if_neg hsomething]

theorem step_auction_of_arranged {auction : Auction γ} (h : auction.arranged = true)
    (placements : List Placement) (workspace : Workspace) :
    (auction.step placements workspace).auction = auction := by
  unfold step
  split
  · rfl
  · exact arrange_of_arranged h

theorem answer_of_arranged {auction : Auction γ} (h : auction.arranged = true) (query : Query)
    (workspace : Workspace) : (query.answer auction workspace).2.1 = auction := by
  rw [Query.answer_eq]
  exact step_auction_of_arranged h query.placements workspace

/-- Queries change nothing about an arranged auction: not the pool, not the source, not the settings. -/
theorem afterQueries_of_arranged {auction : Auction γ} (h : auction.arranged = true)
    (queries : List (Query × Workspace)) : auction.afterQueries queries = auction := by
  induction queries with
  | nil => rfl
  | cons call rest ih =>
      show afterQueries (call.1.answer auction call.2).2.1 rest = auction
      rw [answer_of_arranged h]
      exact ih

/-! ## Replies of the pool as it stands -/

/-- The award of the pool as it stands, with new buffers. -/
def standingAward (auction : Auction γ) (placements : List Placement) : Award :=
  if placements.isEmpty || auction.pool.isEmpty then Award.nothing
  else Award.fresh auction.settings auction.pool placements

theorem step_award_eq_standing {workspace : Workspace} (h : workspace.Reached)
    (auction : Auction γ) (placements : List Placement) :
    (auction.step placements workspace).award = auction.arrange.standingAward placements := by
  rw [step_award_eq_fresh h, standingAward, isEmpty_pool_arrange, settings_arrange]

end Auction

/-- The reply of the pool as it stands. -/
def Query.standingReply (query : Query) (auction : Auction γ) : Reply :=
  query.replyOf auction.pool (auction.standingAward query.placements)

namespace Auction

theorem reply_of_nonempty {auction : Auction γ} {query : Query} {workspace : Workspace}
    (h : workspace.Reached) (hplacements : query.placements ≠ []) (hpool : auction.pool ≠ []) :
    query.reply auction workspace = query.standingReply auction.arrange := by
  rw [Query.reply_eq, step_award_eq_standing h, step_auction_of_nonempty hplacements hpool]
  rfl

theorem reply_of_arranged {auction : Auction γ} {workspace : Workspace} (h : workspace.Reached)
    (harranged : auction.arranged = true) (query : Query) :
    query.reply auction workspace = query.standingReply auction := by
  rw [Query.reply_eq, step_award_eq_standing h, step_auction_of_arranged harranged,
    arrange_of_arranged harranged]
  rfl

/-- The run of the queries: as the auction never changes, each has the reply that it would have
alone. -/
theorem replies_of_arranged {auction : Auction γ} (harranged : auction.arranged = true)
    {queries : List (Query × Workspace)} (h : ∀ call ∈ queries, call.2.Reached) :
    auction.replies queries = queries.map fun call => (call.1, call.1.standingReply auction) := by
  induction queries with
  | nil => rfl
  | cons call rest ih =>
      have hcall : call.2.Reached := h call (List.mem_cons_self ..)
      have hrest := ih fun other hmem => h other (List.mem_cons_of_mem _ hmem)
      rw [replies, reply_of_arranged hcall harranged, answer_of_arranged harranged, hrest]
      rfl

end Auction

omit [WordSource γ] in
/-- Placements decide a reply but for the form that it has. -/
theorem Query.standingReply_agree (auction : Auction γ) {query query' : Query}
    (h : query.placements = query'.placements) :
    (query.standingReply auction).winners = (query'.standingReply auction).winners ∧
      ∀ outcome outcome', (query.standingReply auction).outcome? = some outcome →
        (query'.standingReply auction).outcome? = some outcome' → outcome = outcome' := by
  constructor
  · show (auction.standingAward query.placements).winners = _
    rw [h]
    rfl
  · -- Only a report has an outcome, and it is made from the placements, the pool and the award.
    intro outcome outcome' houtcome houtcome'
    cases query with
    | award placements => cases houtcome
    | awardRequest request => cases houtcome
    | report placements =>
        cases query' with
        | award placements' => cases houtcome'
        | awardRequest request' => cases houtcome'
        | report placements' =>
            have hsame : placements = placements' := h
            subst hsame
            exact Option.some.inj (houtcome.symm.trans houtcome')

/-- From any state: once there was something to award, further queries leave the auction as it is, and
of all these queries, the first included, those with equal placements have the same winners in the
same order, and the same outcome where they ask for it. -/
theorem repeated_awards_agree (auction : Auction γ) (first : Query) (workspace : Workspace)
    (later : List (Query × Workspace)) (hplacements : first.placements ≠ [])
    (hpool : auction.pool ≠ []) (h : ∀ call ∈ (first, workspace) :: later, call.2.Reached) :
    auction.afterQueries ((first, workspace) :: later) = (first.answer auction workspace).2.1 ∧
      ∀ query reply query' reply',
        (query, reply) ∈ auction.replies ((first, workspace) :: later) →
        (query', reply') ∈ auction.replies ((first, workspace) :: later) →
        query.placements = query'.placements →
          reply.winners = reply'.winners ∧
            ∀ outcome outcome', reply.outcome? = some outcome → reply'.outcome? = some outcome' →
              outcome = outcome' := by
  -- The first query arranges the auction, and its own reply is already that of the arranged pool.
  have hfirst : (first.answer auction workspace).2.1 = auction.arrange := by
    rw [Query.answer_eq]
    exact Auction.step_auction_of_nonempty hplacements hpool workspace
  have harranged : auction.arrange.arranged = true := auction.arranged_arrange
  constructor
  · show Auction.afterQueries (first.answer auction workspace).2.1 later = _
    rw [hfirst]
    exact Auction.afterQueries_of_arranged harranged later
  · have hlater : ∀ call ∈ later, call.2.Reached :=
      fun call hmem => h call (List.mem_cons_of_mem _ hmem)
    have hreplies : auction.replies ((first, workspace) :: later) =
        ((first, workspace) :: later).map fun call =>
          (call.1, call.1.standingReply auction.arrange) := by
      rw [Auction.replies, Auction.reply_of_nonempty (h _ (List.mem_cons_self ..)) hplacements
        hpool, hfirst, Auction.replies_of_arranged harranged hlater]
      rfl
    rw [hreplies]
    intro query reply query' reply' hreply hreply' hsame
    obtain ⟨call, _, hcall⟩ := List.mem_map.mp hreply
    obtain ⟨call', _, hcall'⟩ := List.mem_map.mp hreply'
    cases hcall
    cases hcall'
    exact Query.standingReply_agree auction.arrange hsame

/-- The page is asked for again, after nothing and after one placement. -/
def Sample.pageQueries : List (Query × Workspace) :=
  [(.award [], Workspace.empty), (.awardRequest ⟨[⟨"sidebar", 1⟩]⟩, Workspace.empty),
   (.report Sample.page, Workspace.empty)]

theorem repeated_awards_agree_of_crowd :
    Sample.page ≠ [] ∧ Sample.crowdAuction.pool ≠ [] ∧
      (∀ call ∈ (Query.report Sample.page, Workspace.empty) :: Sample.pageQueries,
        call.2.Reached) ∧
      Sample.crowdAuction.afterQueries
          ((.report Sample.page, Workspace.empty) :: Sample.pageQueries) =
        ((Query.report Sample.page).answer Sample.crowdAuction Workspace.empty).2.1 ∧
      ∀ query reply query' reply',
        (query, reply) ∈ Sample.crowdAuction.replies
          ((.report Sample.page, Workspace.empty) :: Sample.pageQueries) →
        (query', reply') ∈ Sample.crowdAuction.replies
          ((.report Sample.page, Workspace.empty) :: Sample.pageQueries) →
        query.placements = query'.placements →
          reply.winners = reply'.winners ∧
            ∀ outcome outcome', reply.outcome? = some outcome → reply'.outcome? = some outcome' →
              outcome = outcome' := by
  have hplacements : Sample.page ≠ [] := by decide
  have hpool : Sample.crowdAuction.pool ≠ [] := by
    intro hnone
    cases hnone
  have hreached : ∀ call ∈ (Query.report Sample.page, Workspace.empty) :: Sample.pageQueries,
      call.2.Reached := by
    simp [Sample.pageQueries, Workspace.reached_empty]
  exact ⟨hplacements, hpool, hreached,
    repeated_awards_agree Sample.crowdAuction (.report Sample.page) Workspace.empty
      Sample.pageQueries hplacements hpool hreached⟩

end SlotAuction
