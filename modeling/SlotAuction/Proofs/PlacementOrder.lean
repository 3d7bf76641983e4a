import SlotAuction.Proofs.Shelves

/-!
# PlacementOrder — an award does not depend on the order of the placements

A walk finds placements by name and counts slots by position.  If placements are put in another order, the
counts move with them, and a name stands for the same placement as before, as long as those that share a
name keep their order.

* `Placement.Reordered` — such another order;
* `Placement.named`, `Placement.within_iff_named` — room, told by names instead of positions;
* `Fill.Agree` — fills with the same winners, tail and number of open slots;
* `Fill.walk_reordered` — two walks, each with ledgers over its own order of the placements;
* `order_of_placements_is_irrelevant` — equal winners in equal order, and equal outcomes.
-/

namespace SlotAuction

namespace Placement

variable {placements others : List Placement} {cs : List Candidate} {name : String}

/-! ## Placements in another order -/

/-- The same placements, where those of one name come in the same order. -/
structure Reordered (placements others : List Placement) : Prop where
  perm : others.Perm placements
  order : ∀ name, (others.filter fun p => p.id == name) = placements.filter fun p => p.id == name

theorem length_filter_le_one (h : (placements.map id).Nodup) (name : String) :
    (placements.filter fun p => p.id == name).length ≤ 1 := by
  have hcount := List.nodup_iff_count_le_one.mp h name
  rw [List.count, List.countP_map] at hcount
  rw [← List.countP_eq_length_filter]
  exact hcount

/-- Where no name is given twice, any order will do. -/
theorem reordered_of_distinct (hdistinct : (placements.map id).Nodup)
    (hperm : others.Perm placements) : Reordered placements others where
  perm := hperm
  order name := by
    have hfiltered := hperm.filter fun p => p.id == name
    have hone := length_filter_le_one hdistinct name
    -- At most one placement has the name, and a list of one has one order.
    cases hnamed : placements.filter fun p => p.id == name with
    | nil =>
        rw [hnamed] at hfiltered
        exact hfiltered.eq_nil
    | cons p rest =>
        have hnone : rest = [] := by
          rw [hnamed] at hone
          exact List.length_eq_zero_iff.mp (Nat.le_zero.mp (Nat.le_of_succ_le_succ hone))
        rw [hnamed, hnone] at hfiltered
        rw [hnone]
        exact List.perm_singleton.mp hfiltered

/-! ## Placements by name -/

/-- The placement that a name stands for. -/
def named (placements : List Placement) (name : String) : Option Placement :=
  placements.find? fun p => p.id == name

theorem Reordered.named (h : Reordered placements others) (name : String) :
    named others name = named placements name := by
  rw [Placement.named, Placement.named, ← List.head?_filter, ← List.head?_filter, h.order]

theorem named_eq_bind_locate (placements : List Placement) (name : String) :
    named placements name = (locate placements name).bind (placements[·]?) :=
  List.find?_eq_bind_findIdx?_getElem?

theorem isSome_named (placements : List Placement) (name : String) :
    (named placements name).isSome = (locate placements name).isSome := by
  rw [locate_isSome, named, List.isSome_find?]

theorem Reordered.totalWanted (h : Reordered placements others) :
    totalWanted others = totalWanted placements := by
  rw [← UInt64.toNat_inj, Placement.totalWanted, Placement.totalWanted, Word.toNat_sumClamped,
    Word.toNat_sumClamped, ((h.perm.map _).map _).sum_nat]

theorem Reordered.landed (h : Reordered placements others) (cs : List Candidate) :
    landed others cs = landed placements cs := by
  refine List.countP_congr fun slot _ => ?_
  rw [← isSome_named, ← isSome_named, h.named]

/-! ## Room by name -/

/-- The slots that go to a placement are those that have its name, if it comes first among those of the
name. -/
theorem landing_eq_count {position : Nat} (h : locate placements name = some position) :
    landing placements position cs = (slotNames cs).count name := by
  have hlt : position < placements.length := locate_lt h
  rw [landing_eq_countP_names]
  refine List.countP_congr fun other _ => ?_
  rw [beq_iff_eq, beq_iff_eq]
  constructor
  · intro hother
    exact (id_of_locate hlt hother).symm.trans (id_of_locate hlt h)
  · intro hsame
    rw [hsame]
    exact h

theorem within_iff_named :
    Within placements cs ↔
      ∀ name p, named placements name = some p → (slotNames cs).count name ≤ p.wanted.toNat := by
  constructor
  · intro h name p hp
    rw [named_eq_bind_locate, Option.bind_eq_some_iff] at hp
    rcases hp with ⟨position, hfound, hentry⟩
    obtain ⟨hlt, rfl⟩ := List.getElem?_eq_some_iff.mp hentry
    rw [← landing_eq_count hfound]
    exact h ⟨position, hlt⟩
  · intro h i
    rcases Nat.eq_zero_or_pos (landing placements i cs) with hnone | hsome
    · rw [hnone]
      exact Nat.zero_le _
    · -- Somebody's slot goes there, so the position is that of a name.
      rcases List.countP_pos_iff.mp hsome with ⟨slot, _, hslot⟩
      have hfound : locate placements slot.1 = some (i : Nat) := beq_iff_eq.mp hslot
      rw [landing_eq_count hfound]
      apply h slot.1 placements[i]
      rw [named_eq_bind_locate, hfound]
      exact List.getElem?_eq_getElem i.isLt

theorem Reordered.within_iff (h : Reordered placements others) :
    Within others cs ↔ Within placements cs := by
  rw [within_iff_named, within_iff_named]
  simp only [h.named]

end Placement

open Placement (landed totalWanted Reordered)

variable {placements others : List Placement} {won pool : List Candidate}

theorem Placeable.reordered {c : Candidate} (h : Reordered placements others) :
    Placeable others won c ↔ Placeable placements won c := by
  constructor
  · intro hplace
    exact ⟨hplace.claims, (h.landed [c]).symm.trans hplace.lands, h.within_iff.mp hplace.within⟩
  · intro hplace
    exact ⟨hplace.claims, (h.landed [c]).trans hplace.lands, h.within_iff.mpr hplace.within⟩

/-! ## Two ledgers -/

/-- Two ledgers over the same placements in two orders, that are right about the same winners and have
both seen a bundle skipped or not. -/
structure Ledger.Parallel (placements others : List Placement) (won : List Candidate)
    (ledger ledger' : Ledger) : Prop where
  left : ledger.Accounts placements won
  right : ledger'.Accounts others won
  bundleSkipped : ledger'.bundleSkipped = ledger.bundleSkipped

namespace Ledger.Parallel

variable {ledger ledger' : Ledger}

theorem openSlots (h : Parallel placements others won ledger ledger')
    (hsame : Reordered placements others) : ledger'.openSlots = ledger.openSlots := by
  -- Either number is what the same winners leave of the same total.
  have hleft := h.left.slots
  have hright := h.right.slots
  rw [hsame.landed, hsame.totalWanted] at hright
  apply UInt64.toNat_inj.mp
  omega

theorem offer (h : Parallel placements others won ledger ledger')
    (hsame : Reordered placements others) (hopen : ¬ ledger.openSlots < 1) (c : Candidate) :
    (ledger'.offer others c).1 = (ledger.offer placements c).1 ∧
      Parallel placements others (if (ledger.offer placements c).1 then won ++ [c] else won)
        (ledger.offer placements c).2 (ledger'.offer others c).2 := by
  have hslots := h.openSlots hsame
  have hopen' : ¬ ledger'.openSlots < 1 := by
    rw [hslots]
    exact hopen
  -- Whether an offer is accepted is told without positions: by what is open, and by names.
  have hanswer : (ledger'.offer others c).1 = (ledger.offer placements c).1 := by
    rw [Bool.eq_iff_iff, h.left.offer_iff_of_open hopen, h.right.offer_iff_of_open hopen', hslots,
      Placeable.reordered hsame]
  refine ⟨hanswer, h.left.offer hopen, ?_, ?_⟩
  · have hnext := h.right.offer hopen' (c := c)
    rw [hanswer] at hnext
    exact hnext
  · rw [Fill.offer_bundleSkipped, Fill.offer_bundleSkipped, h.bundleSkipped, hslots]

end Ledger.Parallel

/-! ## Two fills -/

/-- The fills leave the same winners, the same tail, and as many slots open. -/
structure Fill.Agree (f g : Fill) : Prop where
  winners : g.winners = f.winners
  tail : g.tail? = f.tail?
  openSlots : g.ledger.openSlots = f.ledger.openSlots

namespace Fill

theorem Agree.cons {f g : Fill} (h : Agree f g) (c : Candidate) :
    Agree { f with winners := c :: f.winners } { g with winners := c :: g.winners } :=
  ⟨congrArg (c :: ·) h.winners, h.tail, h.openSlots⟩

/-- The run of both walks: offer by offer the ledgers stay parallel, so both take up the same
candidates and stop at the same one. -/
theorem walk_reordered {ledger ledger' : Ledger}
    (h : Ledger.Parallel placements others won ledger ledger')
    (hsame : Reordered placements others) :
    Agree (walk placements pool ledger) (walk others pool ledger') := by
  induction pool generalizing won ledger ledger' with
  | nil => exact ⟨rfl, rfl, h.openSlots hsame⟩
  | cons c rest ih =>
      have hslots := h.openSlots hsame
      by_cases hclosed : ledger.openSlots < 1
      · have hclosed' : ledger'.openSlots < 1 := by
          rw [hslots]
          exact hclosed
        rw [walk_of_closed hclosed, walk_of_closed hclosed', h.bundleSkipped]
        exact ⟨rfl, rfl, hslots⟩
      · have hopen' : ¬ ledger'.openSlots < 1 := by
          rw [hslots]
          exact hclosed
        rcases h.offer hsame hclosed c with ⟨hanswer, hnext⟩
        have hlater := ih hnext
        rw [walk_of_open hclosed, walk_of_open hopen', hanswer]
        cases (ledger.offer placements c).1 with
        | false => exact hlater
        | true => exact hlater.cons c

theorem fresh_reordered (hsame : Reordered placements others) (pool : List Candidate) :
    Agree (fresh placements pool) (fresh others pool) :=
  walk_reordered ⟨Ledger.accounts_start .., Ledger.accounts_start .., rfl⟩ hsame

end Fill

/-! ## Awards -/

theorem Award.fresh_reordered (hsame : Reordered placements others) (settings : Settings)
    (pool : List Candidate) : fresh settings pool others = fresh settings pool placements := by
  have hagree := Fill.fresh_reordered hsame pool
  have hgate : exchanges settings pool others (Fill.fresh others pool) =
      exchanges settings pool placements (Fill.fresh placements pool) := by
    rw [exchanges, exchanges, Fill.usedSlots, Fill.usedSlots, hagree.openSlots, hsame.totalWanted]
  rw [fresh, fresh, ofPool_fst, ofPool_fst, hagree.tail, hagree.winners, hgate]

theorem Outcome.ofWinners_reordered (hsame : Reordered placements others)
    (pool winners : List Candidate) (exchanged : Nat) :
    ofWinners others pool winners exchanged = ofWinners placements pool winners exchanged := by
  unfold ofWinners
  rw [hsame.perm.length_eq, hsame.totalWanted]

variable {γ : Type} [WordSource γ]

theorem Auction.step_auction_reordered (hsame : Reordered placements others) (auction : Auction γ)
    (workspace workspace' : Workspace) :
    (auction.step others workspace').auction = (auction.step placements workspace).auction := by
  have hempty : others.isEmpty = placements.isEmpty := hsame.perm.isEmpty_eq
  unfold step
  rw [hempty]
  split <;> rfl

theorem Auction.step_award_reordered (hsame : Reordered placements others) (auction : Auction γ)
    {workspace workspace' : Workspace} (h : workspace.Reached) (h' : workspace'.Reached) :
    (auction.step others workspace').award = (auction.step placements workspace).award := by
  have hempty : others.isEmpty = placements.isEmpty := hsame.perm.isEmpty_eq
  rw [step_award_eq_fresh h, step_award_eq_fresh h', hempty, Award.fresh_reordered hsame]

/-- From one state, if the placements come in another order, though those of one name in the same: the
winners are the same in the same order, as many bundles are exchanged, and the outcome is the same. -/
theorem order_of_placements_is_irrelevant (auction : Auction γ) {workspace workspace' : Workspace}
    (h : workspace.Reached) (h' : workspace'.Reached) (hsame : Reordered placements others) :
    (auction.step others workspace').award = (auction.step placements workspace).award ∧
      (auction.report others workspace').1 = (auction.report placements workspace).1 := by
  have haward := auction.step_award_reordered hsame h h'
  refine ⟨haward, ?_⟩
  unfold Auction.report
  dsimp only
  rw [haward, auction.step_auction_reordered hsame workspace workspace',
    Outcome.ofWinners_reordered hsame]

/-- A page with two placements of one name, the second of which is never filled. -/
def Sample.twofold : List Placement :=
  [⟨"top", 1⟩, ⟨"side", 1⟩, ⟨"top", 2⟩]

/-- The other name first. -/
def Sample.twofoldTurned : List Placement :=
  [⟨"side", 1⟩, ⟨"top", 1⟩, ⟨"top", 2⟩]

theorem Sample.reordered_twofold : Reordered Sample.twofold Sample.twofoldTurned where
  perm := List.Perm.swap ..
  order name := by
    by_cases htop : "top" = name
    · subst htop
      rfl
    · have htop' : ("top" == name) = false := beq_false_of_ne htop
      simp [twofold, twofoldTurned, List.filter_cons, htop']

theorem Sample.reordered_pair : Reordered Sample.pair Sample.pair.reverse :=
  Placement.reordered_of_distinct (by decide) (List.reverse_perm _)

theorem order_of_placements_is_irrelevant_of_latecomers :
    Reordered Sample.twofold Sample.twofoldTurned ∧
      (Sample.lateAuction.step Sample.twofoldTurned Workspace.empty).award =
        (Sample.lateAuction.step Sample.twofold Workspace.empty).award ∧
      Reordered Sample.pair Sample.pair.reverse ∧
      (Sample.lateAuction.report Sample.pair.reverse Workspace.empty).1 =
        (Sample.lateAuction.report Sample.pair Workspace.empty).1 := by
  have htwofold := order_of_placements_is_irrelevant Sample.lateAuction Workspace.reached_empty
    Workspace.reached_empty Sample.reordered_twofold
  have hpair := order_of_placements_is_irrelevant Sample.lateAuction Workspace.reached_empty
    Workspace.reached_empty Sample.reordered_pair
  exact ⟨Sample.reordered_twofold, htwofold.1, Sample.reordered_pair, hpair.2⟩

end SlotAuction
