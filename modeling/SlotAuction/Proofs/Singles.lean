import SlotAuction.Proofs.Award
import SlotAuction.Proofs.History
import SlotAuction.Proofs.SortedSlots

/-!
# Singles — auctions without bundles are solved exactly

Without bundles nothing is skipped and nothing is exchanged, so the winners are those of the plain
rule.  The rule takes singles by their bids, and what one placement takes does not depend on what the
others do: each gets the greatest bids for it.

* `TopBids` — every name has the greatest bids for it among the winners;
* `contenders_greedy` — the plain rule, seen from one placement;
* `TopBids.slots_perm` — two such lists of winners take the same slots for the same amounts;
* `singles_are_solved_exactly` — the winners are such a list, after every history, and the record of
  the award does not depend on the history or the shuffle.
-/

namespace SlotAuction

open Outcome (awardedSlots)
open Placement (landing landed locate Within)

/-! ## Bids for one name -/

/-- Those who name one placement. -/
def contenders (name : String) (cs : List Candidate) : List Candidate :=
  cs.filter fun c => c.placement == name

theorem contenders_cons_of_eq {name : String} {c : Candidate} (h : c.placement = name)
    (cs : List Candidate) : contenders name (c :: cs) = c :: contenders name cs :=
  List.filter_cons_of_pos (beq_iff_eq.mpr h)

theorem contenders_cons_of_ne {name : String} {c : Candidate} (h : c.placement ≠ name)
    (cs : List Candidate) : contenders name (c :: cs) = contenders name cs :=
  List.filter_cons_of_neg fun hsame => h (beq_iff_eq.mp hsame)

/-- What those bid who name one placement. -/
def bidsFor (name : String) (cs : List Candidate) : List Amount :=
  (contenders name cs).map Candidate.bid

theorem bidsFor_perm {cs ds : List Candidate} (h : cs.Perm ds) (name : String) :
    (bidsFor name cs).Perm (bidsFor name ds) :=
  (h.filter _).map _

theorem count_awardedSlots_of_singles {cs : List Candidate} (h : ∀ c ∈ cs, c.isSingle = true)
    (name : String) (bid : Amount) :
    (awardedSlots cs).count (name, bid) = (bidsFor name cs).count bid := by
  rw [awardedSlots_of_singles h, bidsFor, contenders, List.count, List.count, List.countP_map, List.countP_map,
    List.countP_filter]
  refine List.countP_congr fun c _ => ?_
  simp [Candidate.slot, and_comm]

/-- Singles take the same slots for the same amounts if they bid the same for every name. -/
theorem awardedSlots_perm_of_bidsFor {cs ds : List Candidate} (hcs : ∀ c ∈ cs, c.isSingle = true)
    (hds : ∀ c ∈ ds, c.isSingle = true) (h : ∀ name, (bidsFor name cs).Perm (bidsFor name ds)) :
    (awardedSlots cs).Perm (awardedSlots ds) := by
  rw [List.perm_iff_count]
  rintro ⟨name, bid⟩
  rw [count_awardedSlots_of_singles hcs, count_awardedSlots_of_singles hds]
  exact (h name).count_eq bid

/-! ## The greatest bids -/

/-- Among the winners each name of a placement has the greatest bids for it in the pool, as many as
the first placement of the name wants; and the winners name nothing else. -/
structure TopBids (placements : List Placement) (pool winners : List Candidate) : Prop where
  top : ∀ position p, placements[position]? = some p → locate placements p.id = some position →
    (bidsFor p.id winners).Perm (Amount.greatest p.wanted.toNat (bidsFor p.id pool))
  located : ∀ c ∈ winners, (locate placements c.placement).isSome

namespace TopBids

variable {placements : List Placement} {pool winners others : List Candidate}

theorem of_perm {pool' : List Candidate} (h : TopBids placements pool winners)
    (hpool : pool'.Perm pool) (hwinners : others.Perm winners) :
    TopBids placements pool' others where
  top position p hp hfirst := by
    rw [Amount.greatest_perm (bidsFor_perm hpool _)]
    exact (bidsFor_perm hwinners _).trans (h.top position p hp hfirst)
  located c hc := h.located c (hwinners.mem_iff.mp hc)

theorem bidsFor_of_unlocated (h : TopBids placements pool winners) {name : String}
    (hnowhere : locate placements name = none) : bidsFor name winners = [] := by
  have hnobody : contenders name winners = [] := by
    refine List.filter_eq_nil_iff.mpr fun c hc hname => ?_
    have hlocated := h.located c hc
    rw [beq_iff_eq.mp hname, hnowhere] at hlocated
    cases hlocated
  rw [bidsFor, hnobody]
  rfl

/-- The pool settles what the winners bid for every name. -/
theorem bidsFor_winners_perm (h : TopBids placements pool winners)
    (h' : TopBids placements pool others) (name : String) :
    (bidsFor name winners).Perm (bidsFor name others) := by
  cases hfound : locate placements name with
  | none =>
      rw [h.bidsFor_of_unlocated hfound, h'.bidsFor_of_unlocated hfound]
  | some position =>
      have hlt : position < placements.length := Placement.locate_lt hfound
      have hid : placements[position].id = name := Placement.id_of_locate hlt hfound
      have hp : placements[position]? = some placements[position] := List.getElem?_eq_getElem hlt
      subst hid
      exact (h.top position _ hp hfound).trans (h'.top position _ hp hfound).symm

theorem slots_perm (h : TopBids placements pool winners) (h' : TopBids placements pool others)
    (hwinners : ∀ c ∈ winners, c.OneSlot) (hothers : ∀ c ∈ others, c.OneSlot) :
    (awardedSlots winners).Perm (awardedSlots others) :=
  awardedSlots_perm_of_bidsFor (fun c hc => (hwinners c hc).single)
    (fun c hc => (hothers c hc).single) (h.bidsFor_winners_perm h')

end TopBids

/-! ## The plain rule for one placement -/

section

variable {placements : List Placement} {won pool : List Candidate}

/-- Of those who name a placement, the rule takes the first ones, while the placement lacks slots. -/
theorem contenders_greedy (hsingles : ∀ c ∈ pool, c.OneSlot)
    (hwithin : Within placements won) {position : Nat} {p : Placement}
    (hp : placements[position]? = some p) (hfirst : locate placements p.id = some position) :
    contenders p.id (greedy placements won pool) =
      (contenders p.id pool).take (p.wanted.toNat - landing placements position won) := by
  obtain ⟨hlt, rfl⟩ := List.getElem?_eq_some_iff.mp hp
  induction pool generalizing won with
  | nil => simp [greedy, contenders]
  | cons c rest ih =>
      have hc : c.bundle? = none := (hsingles c (List.mem_cons_self ..)).bundle?_eq_none
      have hrest : ∀ d ∈ rest, d.OneSlot := fun d hd => hsingles d (List.mem_cons_of_mem _ hd)
      by_cases hname : c.placement = placements[position].id
      · have hfound : locate placements c.placement = some position := by
          rw [hname, hfirst]
        have hland : landing placements position [c] = 1 := by
          rw [landing_of_single hc, if_pos hfound]
        by_cases hplaceable : Placeable placements won c
        · -- `c` wins, and the placement lacks one slot less.
          have hless : landing placements position won < placements[position].wanted.toNat :=
            (placeable_single_iff hwithin hc hfound hlt).mp hplaceable
          have hlack : placements[position].wanted.toNat - landing placements position won =
              placements[position].wanted.toNat - landing placements position (won ++ [c]) + 1 := by
            rw [Placement.landing_append, hland]
            omega
          rw [greedy_of_placeable hplaceable, contenders_cons_of_eq hname,
            contenders_cons_of_eq hname, ih hrest hplaceable.within, hlack, List.take_succ_cons]
        · -- `c` loses, as the placement lacks no slot any more.
          have hfull : placements[position].wanted.toNat - landing placements position won = 0 := by
            have hnot := (placeable_single_iff hwithin hc hfound hlt).not.mp hplaceable
            exact Nat.sub_eq_zero_of_le (Nat.le_of_not_lt hnot)
          rw [greedy_of_not_placeable hplaceable, ih hrest hwithin, hfull, List.take_zero,
            List.take_zero]
      · have hother : locate placements c.placement ≠ some position := by
          intro hfound
          exact hname (Placement.id_of_locate hlt hfound).symm
        have hland : landing placements position [c] = 0 := by
          rw [landing_of_single hc, if_neg hother]
        rw [contenders_cons_of_ne hname]
        by_cases hplaceable : Placeable placements won c
        · rw [greedy_of_placeable hplaceable, contenders_cons_of_ne hname,
            ih hrest hplaceable.within, Placement.landing_append, hland, Nat.add_zero]
        · rw [greedy_of_not_placeable hplaceable, ih hrest hwithin]

theorem located_of_greedy (hsingles : ∀ c ∈ pool, c.OneSlot) :
    ∀ c ∈ greedy placements won pool, (locate placements c.placement).isSome := by
  induction pool generalizing won with
  | nil =>
      intro c hc
      cases hc
  | cons d rest ih =>
      have hrest : ∀ c ∈ rest, c.OneSlot := fun c hc => hsingles c (List.mem_cons_of_mem _ hc)
      by_cases hplaceable : Placeable placements won d
      · intro c hc
        rw [greedy_of_placeable hplaceable] at hc
        rcases List.mem_cons.mp hc with rfl | hlater
        · by_contra hnowhere
          refine not_placeable_of_unlocated ?_ ?_ hplaceable
          · exact (hsingles c (List.mem_cons_self ..)).bundle?_eq_none
          · simpa using hnowhere
        · exact ih hrest c hlater
      · rw [greedy_of_not_placeable hplaceable]
        exact ih hrest

/-- Over a pool with the higher bids first, the winners by the rule are the greatest bids. -/
theorem topBids_greedy (placements : List Placement) (hsingles : ∀ c ∈ pool, c.OneSlot)
    (hdown : pool.Pairwise fun a b => b.bid ≤ a.bid) :
    TopBids placements pool (greedy placements [] pool) where
  top position p hp hfirst := by
    have hwithin : Within placements [] := fun j => Nat.zero_le _
    have hnamed : (bidsFor p.id pool).Pairwise fun a b => b ≤ a :=
      List.pairwise_map.mpr (hdown.filter _)
    rw [← Amount.take_eq_greatest (List.Perm.refl _) hnamed, bidsFor, bidsFor,
      contenders_greedy hsingles hwithin hp hfirst, List.map_take, Placement.landing_nil,
      Nat.sub_zero]
  located := located_of_greedy hsingles

end

/-! ## Records of singles -/

/-- The records agree on the slots, their value and how many they are. -/
structure Outcome.SameAward (o o' : Outcome) : Prop where
  root : o.root = o'.root
  value : o.value = o'.value
  slotsFilled : o.slotsFilled = o'.slotsFilled
  winners : o.winners = o'.winners

theorem map_snd_awardedSlots {cs : List Candidate} (h : ∀ c ∈ cs, c.OneSlot) :
    (awardedSlots cs).map Prod.snd = cs.map Candidate.bid := by
  rw [awardedSlots_of_singles fun c hc => (h c hc).single, List.map_map]
  rfl

theorem length_awardedSlots {cs : List Candidate} (h : ∀ c ∈ cs, c.OneSlot) :
    (awardedSlots cs).length = cs.length := by
  rw [awardedSlots_of_singles fun c hc => (h c hc).single, List.length_map]

/-- For singles the slots settle the record. -/
theorem Outcome.sameAward_of_slots_perm {winners others : List Candidate}
    (hwinners : ∀ c ∈ winners, c.OneSlot) (hothers : ∀ c ∈ others, c.OneSlot)
    (h : (awardedSlots winners).Perm (awardedSlots others)) (placements : List Placement)
    (pool pool' : List Candidate) (exchanged exchanged' : Nat) :
    SameAward (ofWinners placements pool winners exchanged)
      (ofWinners placements pool' others exchanged') where
  root := slotRoot_perm h
  value := by
    have hbids := h.map Prod.snd
    rw [map_snd_awardedSlots hwinners, map_snd_awardedSlots hothers] at hbids
    exact Amount.total_perm hbids
  slotsFilled := by
    show Candidate.totalCapacity winners = Candidate.totalCapacity others
    rw [Candidate.totalCapacity_of_plain fun c hc => (hwinners c hc).plain,
      Candidate.totalCapacity_of_plain fun c hc => (hothers c hc).plain, h.length_eq]
  winners := by
    have hlength := h.length_eq
    rw [length_awardedSlots hwinners, length_awardedSlots hothers] at hlength
    exact congrArg UInt64.ofNat hlength

/-! ## Auctions of singles -/

theorem bids_descending {pool : List Candidate} (hsingles : ∀ c ∈ pool, c.OneSlot)
    (hranked : pool.Pairwise fun a b => (Candidate.fillOrder a b).isLE = true) :
    pool.Pairwise fun a b => b.bid ≤ a.bid := by
  refine hranked.imp_of_mem fun ha hb hle => ?_
  exact (Candidate.isLE_fillOrder_of_singles (hsingles _ ha).single (hsingles _ hb).single
    (hsingles _ ha).capacity (hsingles _ hb).capacity).mp hle

namespace Auction

variable {γ : Type} [WordSource γ]

theorem oneSlot_of_winner {auction : Auction γ} (hsingles : ∀ c ∈ auction.pool, c.OneSlot)
    (placements : List Placement) (workspace : Workspace) :
    ∀ c ∈ (auction.step placements workspace).award.winners, c.OneSlot := by
  intro c hc
  exact hsingles c ((auction.winners_step_subperm placements workspace).subset hc)

theorem step_topBids {auction : Auction γ} (hranked : auction.Ranked)
    (hsingles : ∀ c ∈ auction.pool, c.OneSlot) (hfew : auction.pool.length < 2 ^ 64)
    (placements : List Placement) (workspace : Workspace) :
    TopBids placements auction.pool (auction.step placements workspace).award.winners := by
  have hpool : ∀ c ∈ auction.arrange.pool, c.OneSlot := by
    intro c hc
    exact hsingles c (auction.arrange_perm.mem_iff.mp hc)
  have hslots : (awardedSlots auction.arrange.pool).length < 2 ^ 64 := by
    rw [length_awardedSlots hpool, auction.arrange_perm.length_eq]
    exact hfew
  have hnotail : (Fill.fresh placements auction.arrange.pool).tail? = none := by
    refine Fill.walk_tail_of_singles placements (fun c hc => ?_) rfl
    rw [Candidate.isBundle, (hpool c hc).bundle?_eq_none]
    rfl
  rcases auction.step_swaps placements workspace with ⟨_, given, _, _, hswap, hgiven⟩
  have hnone : given = [] := by
    by_contra hsome
    have htail := (hgiven hsome).2
    rw [hnotail] at htail
    cases htail
  have hsame := hswap.perm_of_none_given hnone
  rw [Fill.winners_fresh hslots] at hsame
  have htop := topBids_greedy placements hpool (bids_descending hpool hranked.arrange)
  exact htop.of_perm auction.arrange_perm.symm hsame

end Auction

/-- An auction of singles gives every placement the greatest bids for it, and nobody else anything.
Two auctions of the same singles, however they came by them and shuffled them, have equal roots,
values, numbers of slots and numbers of winners. -/
theorem singles_are_solved_exactly {γ δ : Type} [WordSource γ] [WordSource δ]
    (settings settings' : Settings) (source : γ) (source' : δ) (history history' : List Call)
    (placements : List Placement) (workspace workspace' : Workspace)
    (hsingles : ∀ c ∈ (Auction.after settings source history).pool, c.OneSlot)
    (hfew : (Auction.after settings source history).pool.length < 2 ^ 64)
    (hsame : (Auction.after settings' source' history').pool.Perm
      (Auction.after settings source history).pool) :
    TopBids placements (Auction.after settings source history).pool
        ((Auction.after settings source history).report placements workspace).1.winners ∧
      Outcome.SameAward
        ((Auction.after settings source history).report placements workspace).1.outcome
        ((Auction.after settings' source' history').report placements workspace').1.outcome := by
  have hsingles' : ∀ c ∈ (Auction.after settings' source' history').pool, c.OneSlot := by
    intro c hc
    exact hsingles c (hsame.mem_iff.mp hc)
  have hfew' : (Auction.after settings' source' history').pool.length < 2 ^ 64 := by
    rwa [hsame.length_eq]
  have htop := Auction.step_topBids (Auction.ranked_after settings source history) hsingles hfew
    placements workspace
  have htop' := Auction.step_topBids (Auction.ranked_after settings' source' history') hsingles'
    hfew' placements workspace'
  have hwinners := Auction.oneSlot_of_winner hsingles placements workspace
  have hothers := Auction.oneSlot_of_winner hsingles' placements workspace'
  have hslots := htop.slots_perm (htop'.of_perm hsame.symm (List.Perm.refl _)) hwinners hothers
  exact ⟨htop, Outcome.sameAward_of_slots_perm hwinners hothers hslots placements _ _ _ _⟩

/-- Three bids for the page, two of them for one placement, and one for nothing on it. -/
def Sample.bidders : List Candidate :=
  [priced "lb-1" "leaderboard" 3, priced "lb-2" "leaderboard" 5, priced "sb" "sidebar" 5,
   priced "lost" "elsewhere" 9]

/-- The same bidders, two of whom come after an award to the others. -/
def Sample.biddersHistory : List Call :=
  [.push (bidders.drop 2), .query (.report page) Workspace.empty, .push (bidders.take 2)]

theorem Sample.biddersHistory_perm :
    (Sample.biddersHistory.flatMap Call.candidates).Perm Sample.bidders := by
  show (bidders.drop 2 ++ bidders.take 2).Perm (bidders.take 2 ++ bidders.drop 2)
  exact List.perm_append_comm

theorem biddersHistory_pool :
    (Auction.after Settings.defaults (Scripted.start [] 8) Sample.biddersHistory).pool.Perm
      (Auction.after Settings.defaults (Scripted.start [] 7) [.push Sample.bidders]).pool :=
  (Auction.pool_after ..).trans Sample.biddersHistory_perm

theorem singles_are_solved_exactly_of_bidders :
    (∀ c ∈ (Auction.after Settings.defaults (Scripted.start [] 7) [.push Sample.bidders]).pool,
        c.OneSlot) ∧
      (Auction.after Settings.defaults (Scripted.start [] 8) Sample.biddersHistory).pool.Perm
        (Auction.after Settings.defaults (Scripted.start [] 7) [.push Sample.bidders]).pool ∧
      TopBids Sample.page Sample.bidders
        ((Auction.after Settings.defaults (Scripted.start [] 7) [.push Sample.bidders]).report
          Sample.page Workspace.empty).1.winners ∧
      Outcome.SameAward
        ((Auction.after Settings.defaults (Scripted.start [] 7) [.push Sample.bidders]).report
          Sample.page Workspace.empty).1.outcome
        ((Auction.after Settings.defaults (Scripted.start [] 8) Sample.biddersHistory).report
          Sample.page Workspace.empty).1.outcome := by
  have hsingles : ∀ c ∈
      (Auction.after Settings.defaults (Scripted.start [] 7) [.push Sample.bidders]).pool,
      c.OneSlot := by decide
  exact ⟨hsingles, biddersHistory_pool,
    singles_are_solved_exactly _ Settings.defaults _ _ _ Sample.biddersHistory Sample.page
      Workspace.empty Workspace.empty hsingles (by decide) biddersHistory_pool⟩

end SlotAuction
