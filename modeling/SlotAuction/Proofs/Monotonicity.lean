import SlotAuction.Proofs.ExactExchange
import SlotAuction.Proofs.Fill.Precedence
import SlotAuction.Proofs.Ties

/-!
# Monotonicity — a winner that bids more still wins

A single that bids more is taken up earlier.  By then fewer slots are booked, so there is room for it
if there was room later on, and the walk has not stopped yet if it had not stopped later on.

* `Candidate.withBid` — the same single with another bid;
* `Candidate.NoTies` — no two candidates tie, so that they can be ranked in one way only;
* `Candidate.NoTies.exists_passed` — the single that bids more moves up past some others, and nobody
  else moves;
* `Fill.winner_of_earlier` — whoever wins would win if taken up earlier;
* `higher_bid_still_wins` — in auctions without exchange, whatever the shuffle.
-/

namespace SlotAuction

/-! ## Another bid -/

namespace Candidate

/-- The same single with another bid; bundles are left as they are. -/
def withBid (bid : Amount) : Candidate → Candidate
  | .ad id placement _ rejection => .ad id placement bid rejection
  | .partnerAd id placement _ capacity => .partnerAd id placement bid capacity
  | .bundle id parts => .bundle id parts
  | .partnerBundle id placement own parts count capacity =>
      .partnerBundle id placement own parts count capacity

theorem placement_withBid (c : Candidate) (bid : Amount) :
    (c.withBid bid).placement = c.placement := by
  cases c <;> simp [withBid, placement]

theorem bid_withBid {c : Candidate} (h : c.isSingle = true) (bid : Amount) :
    (c.withBid bid).bid = bid := by
  cases c with
  | ad => simp [withBid, Candidate.bid]
  | partnerAd => simp [withBid, Candidate.bid]
  | bundle => cases h
  | partnerBundle => cases h

theorem OneSlot.withBid {c : Candidate} (h : c.OneSlot) (bid : Amount) :
    (c.withBid bid).OneSlot := by
  cases c with
  | ad => exact ⟨rfl, rfl⟩
  | partnerAd => exact ⟨rfl, h.capacity⟩
  | bundle => cases h.single
  | partnerBundle => cases h.single

/-! ## Rankings without ties -/

variable {x y : Candidate} {rest ranked raised : List Candidate}

/-- No two candidates of the pool tie. -/
def NoTies (pool : List Candidate) : Prop :=
  pool.Pairwise fun a b => fillOrder a b ≠ .eq

instance (pool : List Candidate) : Decidable (NoTies pool) :=
  inferInstanceAs (Decidable (List.Pairwise _ pool))

theorem fillOrder_self (c : Candidate) : fillOrder c c = .eq :=
  Std.ReflCmp.compare_self

theorem NoTies.tail (h : NoTies (x :: rest)) : NoTies rest :=
  (List.pairwise_cons.mp h).2

theorem NoTies.ne_of_mem (h : NoTies (x :: rest)) (hy : y ∈ rest) : fillOrder x y ≠ .eq :=
  (List.pairwise_cons.mp h).1 y hy

/-- Takes one candidate out of a ranking. -/
theorem exists_place (hperm : ranked.Perm (x :: rest))
    (hdown : ranked.Pairwise fun a b => (fillOrder a b).isLE = true) :
    ∃ before after, ranked = before ++ x :: after ∧ (before ++ after).Perm rest ∧
      (before ++ after).Pairwise fun a b => (fillOrder a b).isLE = true := by
  have hmem : x ∈ ranked := hperm.mem_iff.mpr (List.mem_cons_self ..)
  obtain ⟨before, after, rfl⟩ := List.append_of_mem hmem
  refine ⟨before, after, rfl, ?_, ?_⟩
  · exact (List.perm_middle.symm.trans hperm).cons_inv
  · exact hdown.sublist ((List.sublist_cons_self x after).append_left before)

/-- If `y` comes in the place of `x`, and ranks no lower, then it moves up past some others, and
nobody else moves. -/
theorem NoTies.exists_passed (hties : NoTies (y :: rest)) (hle : (fillOrder y x).isLE = true)
    (hperm : ranked.Perm (x :: rest)) (hperm' : raised.Perm (y :: rest))
    (hdown : ranked.Pairwise fun a b => (fillOrder a b).isLE = true)
    (hdown' : raised.Pairwise fun a b => (fillOrder a b).isLE = true) :
    ∃ front passed back, ranked = front ++ (passed ++ x :: back) ∧
      raised = front ++ y :: (passed ++ back) := by
  obtain ⟨before, after, rfl, hrest, hothers⟩ := exists_place hperm hdown
  obtain ⟨before', after', rfl, hrest', hothers'⟩ := exists_place hperm' hdown'
  -- Without `x` and `y` the two rankings are one.
  have hsame : before ++ after = before' ++ after' :=
    eq_of_ranked hties.tail hrest hrest' hothers hothers'
  rcases List.append_eq_append_iff.mp hsame with ⟨passed, rfl, rfl⟩ | ⟨passed, rfl, rfl⟩
  · cases passed with
    | nil => exact ⟨before, [], after', rfl, by simp⟩
    | cons q passed =>
        -- `q` would come after `x` and before `y`.
        have hxq : (fillOrder x q).isLE = true := by
          have hlater := (List.pairwise_append.mp hdown).2.1
          exact (List.pairwise_cons.mp hlater).1 q (by simp)
        have hqy : (fillOrder q y).isLE = true := by
          have hacross := (List.pairwise_append.mp hdown').2.2
          exact hacross q (by simp) y (List.mem_cons_self ..)
        have hyq : (fillOrder y q).isLE = true := Std.TransCmp.isLE_trans hle hxq
        have hq : q ∈ rest := hrest.mem_iff.mp (by simp)
        exact absurd (Std.OrientedCmp.isLE_antisymm hyq hqy) (hties.ne_of_mem hq)
  · exact ⟨before', passed, after, by simp, rfl⟩

end Candidate

/-! ## An earlier turn -/

/-- Room is told by the names of the slots, whoever they are for. -/
theorem Placeable.of_names {placements : List Placement} {won : List Candidate} {c d : Candidate}
    (h : Placeable placements won c) (hclaim : d.claim = c.claim)
    (hnames : slotNames [d] = slotNames [c]) : Placeable placements won d where
  claims := by
    rw [hclaim]
    exact h.claims
  lands := by
    rw [Placement.landed_eq_countP_names, hnames, ← Placement.landed_eq_countP_names, hclaim]
    exact h.lands
  within := by
    intro i
    rw [Placement.landing_eq_countP_names, slotNames_append, hnames, ← slotNames_append,
      ← Placement.landing_eq_countP_names]
    exact h.within i

namespace Fill

variable {placements : List Placement} {ledger : Ledger} {won pool front rest back : List Candidate}
  {x y : Candidate}

/-- While a walk still finds winners, a slot is open. -/
theorem open_of_winner (hx : x ∈ (walk placements pool ledger).winners) :
    ¬ ledger.openSlots < 1 := by
  intro hclosed
  cases pool with
  | nil => cases hx
  | cons c rest =>
      rw [walk_of_closed hclosed] at hx
      cases hx

/-- Whoever wins in the end was placeable all along. -/
theorem placeable_from_start (h : ledger.Accounts placements won)
    (hx : x ∈ (walk placements pool ledger).winners) : Placeable placements won x := by
  obtain ⟨_, hplace⟩ := placeable_of_winner h hx
  have hsub : (won ++ [x]).Sublist (won ++ (walk placements pool ledger).winners) :=
    (List.singleton_sublist.mpr hx).append_left won
  exact ⟨hplace.claims, hplace.lands, (walk_accounts h pool).within.of_sublist hsub⟩

/-- If `x` wins among those who come after `front`, then so does a rival who comes right after it. -/
theorem winner_of_earlier (h : ledger.Accounts placements won) (hrivals : Rivals x y)
    (hfront : x ∉ front) (hx : x ∈ (walk placements (front ++ rest) ledger).winners) :
    y ∈ (walk placements (front ++ y :: back) ledger).winners := by
  -- Up to the end of `front` both walks make the same offers, and keep the same ledger.
  induction front generalizing ledger won with
  | nil =>
      have hopen : ¬ ledger.openSlots < 1 := open_of_winner hx
      have hxnone : x.bundle? = none := Option.isNone_iff_eq_none.mp hrivals.left
      have hynone : y.bundle? = none := Option.isNone_iff_eq_none.mp hrivals.right
      have hclaim : y.claim = x.claim := by
        rw [Candidate.claim_of_single hxnone, Candidate.claim_of_single hynone]
      have hnames : slotNames [y] = slotNames [x] := by
        rw [slotNames_of_singles (by simp [hrivals.right]),
          slotNames_of_singles (by simp [hrivals.left])]
        simp [hrivals.placement]
      have hplace : Placeable placements won y :=
        (placeable_from_start h hx).of_names hclaim hnames
      have hyes : (ledger.offer placements y).1 = true := by
        refine (h.offer_iff_of_open hopen).mpr ⟨?_, hplace⟩
        rw [Candidate.claim_of_single hynone]
        exact Ledger.one_le_of_open hopen
      rw [List.nil_append, walk_of_open hopen, hyes]
      exact List.mem_cons_self ..
  | cons c front ih =>
      have hopen : ¬ ledger.openSlots < 1 := open_of_winner hx
      have hnext := h.offer hopen (c := c)
      have hlater : x ∉ front := fun hmem => hfront (List.mem_cons_of_mem c hmem)
      rw [List.cons_append, walk_of_open hopen] at hx ⊢
      cases hyes : (ledger.offer placements c).1 with
      | false =>
          simp only [hyes] at hnext hx ⊢
          exact ih hnext hlater hx
      | true =>
          simp only [hyes] at hnext hx ⊢
          rcases List.mem_cons.mp hx with rfl | hx
          · exact absurd (List.mem_cons_self ..) hfront
          · exact List.mem_cons_of_mem c (ih hnext hlater hx)

end Fill

/-! ## Auctions without exchange -/

namespace Auction

variable {γ : Type} [WordSource γ]

/-- Without exchange the winners of an award are those of the fill. -/
theorem mem_winners_iff {auction : Auction γ} (hoff : auction.settings.exchange = false)
    (placements : List Placement) (workspace : Workspace) {c : Candidate} :
    c ∈ (auction.step placements workspace).award.winners ↔
      c ∈ (Fill.fresh placements auction.arrange.pool).winners := by
  have hsame : auction.exchanging false = auction := by
    rw [exchanging, ← hoff]
  have hperm := auction.winners_step_of_not_exchanging placements workspace
  rw [hsame] at hperm
  exact hperm.mem_iff

variable {δ : Type} [WordSource δ] {auction : Auction γ} {other : Auction δ} {x y : Candidate}
  {rest : List Candidate}

/-- If `x` wins, then `y` wins in its place, as long as it is a rival that ranks no lower. -/
theorem winner_of_raised (hranked : auction.Ranked) (hranked' : other.Ranked)
    (hoff : auction.settings.exchange = false) (hoff' : other.settings.exchange = false)
    (hrivals : Rivals x y) (hle : (Candidate.fillOrder y x).isLE = true)
    (hties : Candidate.NoTies (x :: rest)) (hties' : Candidate.NoTies (y :: rest))
    (hpool : auction.pool.Perm (x :: rest)) (hpool' : other.pool.Perm (y :: rest))
    {placements : List Placement} {workspace : Workspace} (workspace' : Workspace)
    (hwins : x ∈ (auction.step placements workspace).award.winners) :
    y ∈ (other.step placements workspace').award.winners := by
  rw [mem_winners_iff hoff] at hwins
  rw [mem_winners_iff hoff']
  have hperm : auction.arrange.pool.Perm (x :: rest) := auction.arrange_perm.trans hpool
  have hperm' : other.arrange.pool.Perm (y :: rest) := other.arrange_perm.trans hpool'
  obtain ⟨front, passed, back, hsplit, hsplit'⟩ :=
    hties'.exists_passed hle hperm hperm' hranked.arrange hranked'.arrange
  have hfront : x ∉ front := by
    -- A second `x` would tie with the first.
    intro hmem
    have htwice : (x :: (front ++ (passed ++ back))).Perm (x :: rest) := by
      refine List.Perm.trans ?_ hperm
      rw [hsplit, ← List.append_assoc, ← List.append_assoc]
      exact List.perm_middle.symm
    have hother : x ∈ rest := htwice.cons_inv.mem_iff.mp (List.mem_append_left _ hmem)
    exact hties.ne_of_mem hother (Candidate.fillOrder_self x)
  rw [hsplit] at hwins
  rw [hsplit']
  exact Fill.winner_of_earlier (Ledger.accounts_start placements Buffer.empty Buffer.empty) hrivals
    hfront hwins

end Auction

/-- In auctions without exchange, whatever their histories and their shuffles, where no candidates tie:
a single that wins among some others also wins among them in any other auction, with the same bid or
with a higher one. -/
theorem higher_bid_still_wins {γ δ : Type} [WordSource γ] [WordSource δ]
    (settings settings' : Settings) (source : γ) (source' : δ) (history history' : List Call)
    (query : Query) (workspace workspace' : Workspace) {x : Candidate} {bid : Amount}
    {rest : List Candidate} (hoff : settings.exchange = false) (hoff' : settings'.exchange = false)
    (hx : x.OneSlot) (hbid : x.bid ≤ bid) (hties : Candidate.NoTies (x :: rest))
    (hties' : Candidate.NoTies (x.withBid bid :: rest))
    (hpool : (Auction.after settings source history).pool.Perm (x :: rest))
    (hwins : x ∈ (query.answer (Auction.after settings source history) workspace).1) :
    ((Auction.after settings' source' history').pool.Perm (x :: rest) →
        x ∈ (query.answer (Auction.after settings' source' history') workspace').1) ∧
      ((Auction.after settings' source' history').pool.Perm (x.withBid bid :: rest) →
        x.withBid bid ∈ (query.answer (Auction.after settings' source' history') workspace').1) := by
  have hranked := Auction.ranked_after settings source history
  have hranked' := Auction.ranked_after settings' source' history'
  have hoff : (Auction.after settings source history).settings.exchange = false := by
    rw [Auction.settings_after, hoff]
  have hoff' : (Auction.after settings' source' history').settings.exchange = false := by
    rw [Auction.settings_after, hoff']
  have hraised : (x.withBid bid).OneSlot := hx.withBid bid
  rw [Query.answer_eq] at hwins ⊢
  constructor
  · intro hpool'
    have hself : (Candidate.fillOrder x x).isLE = true := by
      rw [Candidate.fillOrder_self]
      rfl
    exact Auction.winner_of_raised hranked hranked' hoff hoff' ⟨hx.single, hx.single, rfl⟩ hself hties
      hties hpool hpool' workspace' hwins
  · intro hpool'
    have hhigher : (Candidate.fillOrder (x.withBid bid) x).isLE = true := by
      rw [Candidate.isLE_fillOrder_of_singles hraised.single hx.single hraised.capacity hx.capacity,
        Candidate.bid_withBid hx.single]
      exact hbid
    have hrivals : Rivals x (x.withBid bid) :=
      ⟨hx.single, hraised.single, (x.placement_withBid bid).symm⟩
    exact Auction.winner_of_raised hranked hranked' hoff hoff' hrivals hhigher hties hties' hpool
      hpool' workspace' hwins

namespace Sample

def duo : Candidate :=
  .bundle "duo" [priced "duo-1" "top" 1, priced "duo-2" "side" 1]

def riser : Candidate := priced "riser" "top" 2

/-- The bundle takes one of two slots, and the riser the other one. -/
def field : List Candidate :=
  [duo, priced "elsewhere" "footer" 9, priced "side" "side" 5, priced "low" "top" 1]

def widePair : List Placement :=
  [⟨"top", 2⟩, ⟨"side", 1⟩]

def unexchanged : Settings := { Settings.defaults with exchange := false }

theorem field_winners :
    ((Query.award widePair).answer
      (Auction.after unexchanged (Scripted.start [] 0) [.push (riser :: field)])
      Workspace.empty).1 = [duo, riser] := by
  have harranged : (Auction.after unexchanged (Scripted.start [] 0)
      [.push (riser :: field)]).arrange.pool =
        [duo, priced "elsewhere" "footer" 9, priced "side" "side" 5] ++
          riser :: [priced "low" "top" 1] :=
    Auction.pool_arrange_of_strict rfl List.perm_middle (by decide)
  rw [Query.answer_eq]
  dsimp only
  rw [Auction.winners_step_of_no_exchange rfl, harranged]
  rfl

end Sample

/-- The riser bids seven instead of two, by which it moves up past another single. -/
theorem higher_bid_still_wins_of_riser :
    Sample.riser.OneSlot ∧ Sample.riser.bid ≤ .ofUnits 7 ∧
      Candidate.NoTies (Sample.riser :: Sample.field) ∧
      Candidate.NoTies (Sample.riser.withBid (.ofUnits 7) :: Sample.field) ∧
      Sample.riser ∈ ((Query.award Sample.widePair).answer
        (Auction.after Sample.unexchanged (Scripted.start [] 0)
          [.push (Sample.riser :: Sample.field)]) Workspace.empty).1 ∧
      Sample.riser.withBid (.ofUnits 7) ∈ ((Query.award Sample.widePair).answer
        (Auction.after Sample.unexchanged (Scripted.start [] 1)
          [.push Sample.field, .pushOne (Sample.riser.withBid (.ofUnits 7))]) Workspace.empty).1 := by
  have hx : Sample.riser.OneSlot := ⟨rfl, rfl⟩
  have hbid : Sample.riser.bid ≤ .ofUnits 7 := by decide
  have hties : Candidate.NoTies (Sample.riser :: Sample.field) := by decide
  have hties' : Candidate.NoTies (Sample.riser.withBid (.ofUnits 7) :: Sample.field) := by decide
  have hpool : (Auction.after Sample.unexchanged (Scripted.start [] 0)
      [.push (Sample.riser :: Sample.field)]).pool.Perm (Sample.riser :: Sample.field) :=
    Auction.pool_after ..
  have hpool' : (Auction.after Sample.unexchanged (Scripted.start [] 1)
      [.push Sample.field, .pushOne (Sample.riser.withBid (.ofUnits 7))]).pool.Perm
        (Sample.riser.withBid (.ofUnits 7) :: Sample.field) :=
    (Auction.pool_after ..).trans List.perm_append_comm
  have hwins : Sample.riser ∈ ((Query.award Sample.widePair).answer
      (Auction.after Sample.unexchanged (Scripted.start [] 0)
        [.push (Sample.riser :: Sample.field)]) Workspace.empty).1 := by
    rw [Sample.field_winners]
    simp
  have hraised := higher_bid_still_wins Sample.unexchanged Sample.unexchanged (Scripted.start [] 0)
    (Scripted.start [] 1) [.push (Sample.riser :: Sample.field)]
    [.push Sample.field, .pushOne (Sample.riser.withBid (.ofUnits 7))] (.award Sample.widePair)
    Workspace.empty Workspace.empty rfl rfl hx hbid hties hties' hpool hwins
  exact ⟨hx, hbid, hties, hties', hwins, hraised.2 hpool'⟩

end SlotAuction
