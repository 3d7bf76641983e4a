import SlotAuction.Proofs.Fill.Precedence
import SlotAuction.Proofs.Stability

/-!
# Withdrawal — losers of a fill might as well not be there

A candidate that is turned away leaves its traces in a ledger: the deltas that were counted for it, and the
mark that a bundle was skipped.  No later answer depends on either, so without an exchange the winners
remain the same if any losers are withdrawn from the ranked pool.

* `Ledger.SameRoom` — ledgers with the same open slots and the same counts, which answer alike;
* `Fill.wonFrom`, `Auction.wonAt` — the positions of the pool at which a walk books somebody;
* `remaining` — a list without the entries at some positions;
* `Fill.winners_remaining` — a walk over what remains has the same winners, if only losers are gone;
* `withdrawn_losers_change_nothing` — the same of every query without an exchange.

None of this asks how many slots there are, or what partners claim.
-/

namespace SlotAuction

variable {placements : List Placement}

/-! ## Ledgers with the same room -/

namespace Ledger

/-- As many slots are open, and every placement has the same counts. -/
structure SameRoom (l m : Ledger) : Prop where
  openSlots : l.openSlots = m.openSlots
  fills : l.fills.cells = m.fills.cells

variable {l m n : Ledger} {c : Candidate}

theorem SameRoom.trans (h : SameRoom l m) (h' : SameRoom m n) : SameRoom l n :=
  ⟨h.openSlots.trans h'.openSlots, h.fills.trans h'.fills⟩

theorem Alike.sameRoom (h : Alike l m) : SameRoom l m :=
  ⟨h.openSlots, h.fills⟩

/-- Whether a bundle was skipped before makes no difference to an offer. -/
theorem offer_of_skipped (m : Ledger) (placements : List Placement) (c : Candidate) (skipped : Bool) :
    ({ m with bundleSkipped := skipped }.offer placements c).1 = (m.offer placements c).1 ∧
      SameRoom ({ m with bundleSkipped := skipped }.offer placements c).2
        (m.offer placements c).2 := by
  unfold offer
  cases c.bundle? with
  | none =>
      dsimp only [offerSingle]
      cases Placement.locate placements c.placement with
      | none => exact ⟨rfl, rfl, rfl⟩
      | some position =>
          dsimp only
          split <;> exact ⟨rfl, rfl, rfl⟩
  | some b =>
      dsimp only [offerBundle]
      split <;> exact ⟨rfl, rfl, rfl⟩

theorem SameRoom.offer (h : SameRoom l m) (placements : List Placement) (c : Candidate) :
    (l.offer placements c).1 = (m.offer placements c).1 ∧
      SameRoom (l.offer placements c).2 (m.offer placements c).2 := by
  have halike : Alike l { m with bundleSkipped := l.bundleSkipped } :=
    ⟨h.openSlots, rfl, h.fills⟩
  obtain ⟨hanswer, hnext⟩ := halike.offer placements c
  obtain ⟨hanswer', hnext'⟩ := m.offer_of_skipped placements c l.bundleSkipped
  exact ⟨hanswer.trans hanswer', hnext.sameRoom.trans hnext'⟩

/-- Whoever is turned away takes no room. -/
theorem sameRoom_of_refused (h : (l.offer placements c).1 = false) :
    SameRoom (l.offer placements c).2 l := by
  unfold Ledger.offer at h ⊢
  cases hc : c.bundle? with
  | none =>
      rw [hc] at h
      rcases offerSingle_cases l placements c.placement with hno | ⟨_, _, hyes⟩
      · simp only [hno]
        exact ⟨rfl, rfl⟩
      · simp only [hyes] at h
        cases h
  | some b =>
      rw [hc] at h
      rcases offerBundle_cases l placements b with ⟨_, _, hno⟩ | ⟨_, _, hyes⟩
      · simp only [hno]
        exact ⟨rfl, rfl⟩
      · simp only [hyes] at h
        cases h

end Ledger

/-! ## What remains of a list -/

/-- The entries of the list that are not gone, in their order. -/
def remaining (gone : Nat → Bool) (cs : List Candidate) : List Candidate :=
  entriesAt cs ((List.range cs.length).filter fun p => !gone p)

theorem remaining_cons (gone : Nat → Bool) (c : Candidate) (rest : List Candidate) :
    remaining gone (c :: rest) =
      if gone 0 then remaining (fun p => gone (1 + p)) rest
      else c :: remaining (fun p => gone (1 + p)) rest := by
  have hshift : entriesAt (c :: rest) (((List.range rest.length).filter fun p => !gone (1 + p)).map
      (1 + ·)) = remaining (fun p => gone (1 + p)) rest :=
    entriesAt_tail [c] rest _
  have hlater : ((List.range rest.length).map Nat.succ).filter (fun p => !gone p) =
      ((List.range rest.length).filter fun p => !gone (1 + p)).map (1 + ·) := by
    rw [List.filter_map]
    simp only [Function.comp_def, Nat.add_comm 1]
  rw [remaining, List.length_cons, List.range_succ_eq_map, List.filter_cons, hlater]
  cases gone 0 with
  | true => exact hshift
  | false =>
      refine (entriesAt_cons List.getElem?_cons_zero _).trans ?_
      rw [hshift, if_neg Bool.false_ne_true]

/-! ## Walks over what remains -/

namespace Fill

/-- The positions at which a walk books the candidate of the pool that stands there. -/
def wonFrom (placements : List Placement) : List Candidate → Ledger → List Nat
  | [], _ => []
  | c :: rest, ledger =>
      if ledger.openSlots < 1 then []
      else
        (if (ledger.offer placements c).1 then [0] else []) ++
          (wonFrom placements rest (ledger.offer placements c).2).map (1 + ·)

theorem wonFrom_of_open {ledger : Ledger} (h : ¬ ledger.openSlots < 1) (c : Candidate)
    (rest : List Candidate) :
    wonFrom placements (c :: rest) ledger =
      (if (ledger.offer placements c).1 then [0] else []) ++
        (wonFrom placements rest (ledger.offer placements c).2).map (1 + ·) := by
  rw [wonFrom, if_neg h]

/-- A walk has the winners that stand at the positions it books. -/
theorem entriesAt_wonFrom (placements : List Placement) (pool : List Candidate) (ledger : Ledger) :
    entriesAt pool (wonFrom placements pool ledger) = (walk placements pool ledger).winners := by
  induction pool generalizing ledger with
  | nil => rfl
  | cons c rest ih =>
      by_cases hclosed : ledger.openSlots < 1
      · rw [wonFrom, if_pos hclosed, walk_of_closed hclosed]
        rfl
      · have hlater : entriesAt (c :: rest)
            ((wonFrom placements rest (ledger.offer placements c).2).map (1 + ·)) =
              (walk placements rest (ledger.offer placements c).2).winners :=
          (entriesAt_tail [c] rest _).trans (ih _)
        rw [wonFrom_of_open hclosed, walk_of_open hclosed, entriesAt_append, hlater]
        cases (ledger.offer placements c).1 with
        | true => rfl
        | false => rfl

theorem winners_of_closed {ledger : Ledger} (h : ledger.openSlots < 1) (pool : List Candidate) :
    (walk placements pool ledger).winners = [] := by
  cases pool with
  | nil => rfl
  | cons c rest => rw [walk_of_closed h]

/-- If only losers are gone, a walk over what remains has the same winners, from any ledger with the same
room. -/
theorem winners_remaining {pool : List Candidate} {gone : Nat → Bool} {l m : Ledger}
    (hroom : Ledger.SameRoom l m) (hlost : ∀ p, gone p = true → p ∉ wonFrom placements pool l) :
    (walk placements (remaining gone pool) m).winners = (walk placements pool l).winners := by
  -- The walks come to the next candidate with ledgers that differ in what losers left behind.
  induction pool generalizing gone l m with
  | nil => rfl
  | cons c rest ih =>
      by_cases hclosed : l.openSlots < 1
      · rw [winners_of_closed hclosed, winners_of_closed (hroom.openSlots ▸ hclosed)]
      · have hopen : ¬ m.openSlots < 1 := hroom.openSlots ▸ hclosed
        have hlater : ∀ p, gone (1 + p) = true →
            p ∉ wonFrom placements rest (l.offer placements c).2 := by
          intro p hp hwon
          refine hlost (1 + p) hp ?_
          rw [wonFrom_of_open hclosed]
          exact List.mem_append_right _ (mem_map_shift.mpr hwon)
        rw [remaining_cons, walk_of_open hclosed]
        cases hgone : gone 0 with
        | true =>
            -- The candidate was turned away, so it may be missing as well.
            have hrefused : (l.offer placements c).1 = false := by
              apply Bool.eq_false_of_not_eq_true
              intro hyes
              refine hlost 0 hgone ?_
              rw [wonFrom_of_open hclosed, hyes]
              exact List.mem_cons_self ..
            rw [hrefused]
            exact ih ((Ledger.sameRoom_of_refused hrefused).trans hroom) hlater
        | false =>
            obtain ⟨hanswer, hnext⟩ := hroom.offer placements c
            have hsame := ih hnext hlater
            rw [if_neg Bool.false_ne_true, walk_of_open hopen, ← hanswer]
            cases (l.offer placements c).1 with
            | true => exact congrArg (c :: ·) hsame
            | false => exact hsame

end Fill

/-! ## Queries -/

namespace Auction

variable {γ : Type} [WordSource γ]

/-- The positions of the arranged pool whose candidates a fill for the placements books. -/
def wonAt (auction : Auction γ) (placements : List Placement) : List Nat :=
  Fill.wonFrom placements auction.arrange.pool (Ledger.start placements Buffer.empty Buffer.empty)

/-- The arranged auction, with some candidates withdrawn from its pool. -/
def withdraw (auction : Auction γ) (gone : Nat → Bool) : Auction γ :=
  { auction.arrange with pool := remaining gone auction.arrange.pool }

end Auction

/-- Without an exchange, for every auction and whatever partners claim: the winners are the entries of the
arranged pool at the positions that a fill books, and they stay the same, in the same order, if any
entries at other positions are withdrawn. -/
theorem withdrawn_losers_change_nothing {γ : Type} [WordSource γ] (auction : Auction γ) (query : Query)
    (workspace workspace' : Workspace) (gone : Nat → Bool)
    (hoff : auction.settings.exchange = false)
    (hlost : ∀ p, gone p = true → p ∉ auction.wonAt query.placements) :
    (query.answer auction workspace).1 =
        entriesAt auction.arrange.pool (auction.wonAt query.placements) ∧
      (query.answer (auction.withdraw gone) workspace').1 = (query.answer auction workspace).1 := by
  have hoff' : (auction.withdraw gone).settings.exchange = false :=
    (congrArg Settings.exchange auction.settings_arrange).trans hoff
  have hpool : (auction.withdraw gone).arrange.pool = remaining gone auction.arrange.pool := by
    rw [Auction.arrange_of_arranged]
    · rfl
    · exact auction.arranged_arrange
  have hroom : ∀ l : Ledger, l.SameRoom l := fun l => ⟨rfl, rfl⟩
  rw [Query.answer_eq, Query.answer_eq]
  dsimp only
  rw [Auction.winners_step_of_no_exchange hoff, Auction.winners_step_of_no_exchange hoff', hpool]
  exact ⟨(Fill.entriesAt_wonFrom ..).symm, Fill.winners_remaining (hroom _) hlost⟩

/-- The wide bundle is skipped and the three singles find no slot; the page bundle alone gives the same. -/
theorem withdrawn_losers_change_nothing_of_crowd :
    let auction : Auction Scripted :=
      { Sample.crowdAuction with settings := { Settings.defaults with exchange := false } }
    let gone : Nat → Bool := fun p => p != 1
    auction.settings.exchange = false ∧ auction.wonAt Sample.page = [1] ∧
      (∀ p, gone p = true → p ∉ auction.wonAt Sample.page) ∧
        (auction.withdraw gone).pool.length = 1 ∧
          ((Query.award Sample.page).answer (auction.withdraw gone) Workspace.empty).1 =
            ((Query.award Sample.page).answer auction Workspace.empty).1 := by
  intro auction gone
  have harranged : auction.arrange.pool = Sample.crowd := Sample.arranged_crowd
  have hwon : auction.wonAt Sample.page = [1] := by
    rw [Auction.wonAt, harranged]
    rfl
  have hleft : (auction.withdraw gone).pool.length = 1 := by
    rw [Auction.withdraw, harranged]
    rfl
  have hlost : ∀ p, gone p = true → p ∉ auction.wonAt Sample.page := by
    intro p hp
    rw [hwon, List.mem_singleton]
    exact bne_iff_ne.mp hp
  exact ⟨rfl, hwon, hlost, hleft, (withdrawn_losers_change_nothing auction (.award Sample.page)
    Workspace.empty Workspace.empty gone rfl hlost).2⟩

end SlotAuction
