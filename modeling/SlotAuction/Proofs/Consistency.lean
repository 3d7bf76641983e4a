import SlotAuction.Proofs.Fill.Precedence
import SlotAuction.Proofs.History
import SlotAuction.Proofs.Maximality

/-!
# Consistency — the figures of a report agree

A report counts its winners, adds up their capacities, hashes their slots and counts the exchanges, each
on its own.  For candidates that take what they say, one equation ties the figures together: the slots
of the winners and the slots that the fill left open are the requested ones, before and after the
exchange.  Whoever wins takes a slot, and a bundle is exchanged only when no slot is open.

* `Candidate.isOurs` — the candidates that no partner brings, which take what they say;
* `Auction.step_fills` — the equation;
* `Auction.step_takes`, `Auction.step_replaced_le`, `Auction.open_of_replaced` — on winners and exchanges;
* `Outcome.Consistent` — the relations between the figures of an outcome and its winners;
* `report_is_consistent` — they hold of every report about candidates of ours.
-/

namespace SlotAuction

open Outcome (awardedSlots slotBytes slotLE)
open Placement (landed totalWanted)

variable {γ : Type} [WordSource γ] {placements : List Placement} {pool : List Candidate}

/-! ## Candidates of ours -/

namespace Candidate

/-- An ad or a bundle of ads that no partner brought. -/
def isOurs : Candidate → Bool
  | .ad .. => true
  | .bundle .. => true
  | .partnerAd .. => false
  | .partnerBundle .. => false

/-- A bundle of ours counts its parts, which a word can hold unless there are too many of them. -/
theorem plain_of_isOurs {c : Candidate} (h : c.isOurs = true) (hfew : c.slots.length < 2 ^ 64) :
    c.Plain := by
  cases c with
  | ad id placement bid rejection => exact (OneSlot.mk rfl rfl).plain
  | bundle id parts =>
      have hslots : (Candidate.bundle id parts).slots.length = parts.length :=
        List.length_map ..
      have hcount : (UInt64.ofNat parts.length).toNat = parts.length :=
        UInt64.toNat_ofNat_of_lt' (hslots ▸ hfew)
      exact ⟨hcount.trans hslots.symm, rfl⟩
  | partnerAd id placement bid capacity => cases h
  | partnerBundle id placement bid parts count capacity => cases h

end Candidate

/-! ## Slots of several candidates -/

theorem length_le_of_take {cs : List Candidate} (h : ∀ c ∈ cs, 0 < c.slots.length) :
    cs.length ≤ (awardedSlots cs).length := by
  induction cs with
  | nil => exact Nat.le_refl 0
  | cons c cs ih =>
      have hc := h c (List.mem_cons_self ..)
      have hcs := ih fun d hd => h d (List.mem_cons_of_mem _ hd)
      rw [awardedSlots_cons, List.length_append, List.length_cons]
      omega

/-- If each candidate has all its slots land somewhere, all slots do. -/
theorem landed_of_each {cs : List Candidate} (h : ∀ c ∈ cs, landed placements [c] = c.slots.length) :
    landed placements cs = (awardedSlots cs).length := by
  induction cs with
  | nil => rfl
  | cons c cs ih =>
      have hc := h c (List.mem_cons_self ..)
      have hcs := ih fun d hd => h d (List.mem_cons_of_mem _ hd)
      calc landed placements (c :: cs)
          = landed placements [c] + landed placements cs := Placement.landed_append [c] cs
        _ = (awardedSlots (c :: cs)).length := by
            rw [hc, hcs, awardedSlots_cons, List.length_append]

/-! ## Fills -/

namespace Fill

/-- Honest winners of a fill take a slot each. -/
theorem takes_of_winner (hhonest : ∀ c ∈ pool, c.Honest) :
    ∀ c ∈ (fresh placements pool).winners, 0 < c.slots.length := by
  intro c hc
  have hclaims := claims_of_fresh_winner hc
  rwa [hhonest c (mem_of_winner hc)] at hclaims

/-- What honest winners take and what is left open is what was wanted. -/
theorem slots_add_open (hhonest : ∀ c ∈ pool, c.Honest) (hfew : (awardedSlots pool).length < 2 ^ 64) :
    (awardedSlots (fresh placements pool).winners).length +
        (fresh placements pool).ledger.openSlots.toNat =
      (totalWanted placements).toNat := by
  have hlands : ∀ c ∈ (fresh placements pool).winners, landed placements [c] = c.slots.length := by
    intro c hc
    obtain ⟨before, hplace⟩ :=
      placeable_of_winner (Ledger.accounts_start placements Buffer.empty Buffer.empty) hc
    rw [hplace.lands, hhonest c (mem_of_winner hc)]
  have hslots := (accounts_fresh placements hfew).slots
  rw [landed_of_each hlands] at hslots
  omega

end Fill

/-! ## Exchanges -/

namespace Exchange.Swapped

variable {tail before after given kept : List Candidate} {taken : List Bool} {replaced : Nat}
  {standIns : List Nat}

/-- Stand-ins are singles, so they take a slot each, as the winners before do. -/
theorem takes (h : Swapped tail taken before after replaced given kept standIns)
    (hbefore : ∀ c ∈ before, 0 < c.slots.length) : ∀ c ∈ after, 0 < c.slots.length := by
  intro c hc
  -- A winner after the exchange was one before it, or it stands in for a bundle.
  rcases List.mem_append.mp (h.result.subset hc) with hkept | hstandIn
  · exact hbefore c (h.split.symm.subset (List.mem_append_right given hkept))
  · have hsingle := Marks.isSingle_of_free h.free c hstandIn
    rw [Candidate.slots_of_single (Option.isNone_iff_eq_none.mp hsingle)]
    exact Nat.one_pos

/-- Each bundle given up has a stand-in at least. -/
theorem replaced_le (h : Swapped tail taken before after replaced given kept standIns)
    (hbefore : ∀ c ∈ before, 0 < c.claim) : replaced ≤ after.length := by
  have hgiven : ∀ n ∈ given.map Candidate.claim, 1 ≤ n := by
    intro n hn
    obtain ⟨c, hc, rfl⟩ := List.mem_map.mp hn
    exact hbefore c (h.split.symm.subset (List.mem_append_left kept hc))
  calc replaced = (given.map Candidate.claim).length := by
        rw [List.length_map, h.count]
    _ ≤ (given.map Candidate.claim).sum := List.length_le_sum_of_one_le _ hgiven
    _ = (entriesAt tail standIns).length := by
        rw [h.length_entriesAt_standIns, h.claims]
    _ ≤ after.length := by
        rw [h.result.length_eq, List.length_append]
        exact Nat.le_add_left ..

end Exchange.Swapped

/-! ## Awards -/

namespace Auction

section

variable {auction : Auction γ} (placements : List Placement) (workspace : Workspace)

/-- The winners take what was wanted, but for what the fill left open; an exchange does not change
that. -/
theorem step_fills (hhonest : ∀ c ∈ auction.arrange.pool, c.Honest)
    (hfew : (awardedSlots auction.arrange.pool).length < 2 ^ 64) :
    (awardedSlots (auction.step placements workspace).award.winners).length +
        (Fill.fresh placements auction.arrange.pool).ledger.openSlots.toNat =
      (totalWanted placements).toNat := by
  obtain ⟨_, given, kept, standIns, hswap, -⟩ := auction.step_swaps placements workspace
  have hwinners : ∀ c ∈ (Fill.fresh placements auction.arrange.pool).winners, c.Honest := by
    intro c hc
    exact hhonest c (Fill.mem_of_winner hc)
  have hnames := (hswap.slotNames_perm_of_honest hwinners).length_eq
  rw [length_slotNames, length_slotNames] at hnames
  rw [hnames]
  exact Fill.slots_add_open hhonest hfew

theorem step_takes (hhonest : ∀ c ∈ auction.arrange.pool, c.Honest) :
    ∀ c ∈ (auction.step placements workspace).award.winners, 0 < c.slots.length := by
  obtain ⟨_, given, kept, standIns, hswap, -⟩ := auction.step_swaps placements workspace
  exact hswap.takes (Fill.takes_of_winner hhonest)

theorem step_replaced_le :
    (auction.step placements workspace).award.replaced ≤
      (auction.step placements workspace).award.winners.length := by
  obtain ⟨_, given, kept, standIns, hswap, -⟩ := auction.step_swaps placements workspace
  exact hswap.replaced_le fun c hc => Fill.claims_of_fresh_winner hc

/-- Where bundles were exchanged, the fill left no slot open. -/
theorem open_of_replaced (hhonest : ∀ c ∈ auction.arrange.pool, c.Honest)
    (hfew : (awardedSlots auction.arrange.pool).length < 2 ^ 64)
    (hreplaced : 0 < (auction.step placements workspace).award.replaced) :
    (Fill.fresh placements auction.arrange.pool).ledger.openSlots.toNat = 0 := by
  obtain ⟨_, given, kept, standIns, hswap, hgiven⟩ := auction.step_swaps placements workspace
  -- A bundle was given up, so there was a tail, which is left only by a walk that stops.
  have hsome : given ≠ [] := by
    rintro rfl
    rw [← hswap.count] at hreplaced
    exact Nat.lt_irrefl 0 hreplaced
  have hclosed := Fill.closed_of_tail hhonest hfew (hgiven hsome).2
  exact Nat.lt_one_iff.mp (UInt64.lt_iff_toNat_lt.mp hclosed)

end

end Auction

/-! ## Reports -/

namespace Outcome

/-- The slots whose bytes are hashed, in the order in which they are. -/
def hashedSlots (winners : List Candidate) : List Candidate.Slot :=
  (awardedSlots winners).mergeSort slotLE

/-- The figures of an outcome agree with the winners and with each other. -/
structure Consistent (o : Outcome) (winners : List Candidate) : Prop where
  root : o.root = sha256 ((hashedSlots winners).flatMap slotBytes)
  filled : o.slotsFilled.toNat = (hashedSlots winners).length
  filled_le : o.slotsFilled ≤ o.slotsRequested
  count : o.winners.toNat = winners.length
  winners_le : o.winners ≤ o.slotsFilled
  empty : o.isEmpty = true ↔ o.slotsFilled = 0
  exchanged_le : o.exchanged ≤ o.winners
  full : 0 < o.exchanged → o.slotsFilled = o.slotsRequested

/-- The figures agree for plain winners that take a slot each, if they take what is wanted but for the
slots left open, and nothing is exchanged while one is open. -/
theorem consistent_ofWinners {winners : List Candidate} {replaced openSlots : Nat}
    (placements : List Placement) (pool : List Candidate) (hplain : ∀ c ∈ winners, c.Plain)
    (hfills : (awardedSlots winners).length + openSlots = (totalWanted placements).toNat)
    (htakes : ∀ c ∈ winners, 0 < c.slots.length) (hreplaced : replaced ≤ winners.length)
    (hopen : 0 < replaced → openSlots = 0) :
    (ofWinners placements pool winners replaced).Consistent winners := by
  have hwanted := (totalWanted placements).toNat_lt
  have htaken : winners.length ≤ (awardedSlots winners).length := length_le_of_take htakes
  generalize ho : ofWinners placements pool winners replaced = o
  -- The counts fit into words, as there are no more of anything than slots that are wanted.
  have hfilled : o.slotsFilled.toNat = (awardedSlots winners).length := by
    have hfew : (awardedSlots winners).length < 2 ^ 64 := by omega
    rw [← ho, ofWinners, Candidate.totalCapacity_of_plain hplain]
    exact UInt64.toNat_ofNat_of_lt' hfew
  have hcount : o.winners.toNat = winners.length := by
    have hfew : winners.length < 2 ^ 64 := by omega
    rw [← ho, ofWinners]
    exact UInt64.toNat_ofNat_of_lt' hfew
  have hexchanged : o.exchanged.toNat = replaced := by
    have hfew : replaced < 2 ^ 64 := by omega
    rw [← ho, ofWinners]
    exact UInt64.toNat_ofNat_of_lt' hfew
  have hrequested : o.slotsRequested.toNat = (totalWanted placements).toNat := by
    rw [← ho, ofWinners]
  refine ⟨?_, ?_, ?_, hcount, ?_, ?_, ?_, ?_⟩
  · rw [← ho]
    rfl
  · rw [hashedSlots, List.length_mergeSort]
    exact hfilled
  · apply UInt64.le_iff_toNat_le.mpr
    omega
  · apply UInt64.le_iff_toNat_le.mpr
    omega
  · rw [isEmpty, beq_iff_eq, ← UInt64.toNat_inj, ← UInt64.toNat_inj, hcount, hfilled]
    show winners.length = 0 ↔ (awardedSlots winners).length = 0
    constructor
    · intro hnobody
      rw [List.eq_nil_of_length_eq_zero hnobody]
      rfl
    · -- A winner would have taken a slot.
      intro hnothing
      omega
  · apply UInt64.le_iff_toNat_le.mpr
    omega
  · intro hsome
    have hpos : 0 < o.exchanged.toNat := UInt64.lt_iff_toNat_lt.mp hsome
    -- Nothing is left open, so what is taken is all that was wanted.
    have hclosed := hopen (by omega)
    apply UInt64.toNat_inj.mp
    omega

end Outcome

section

variable (auction : Auction γ) (placements : List Placement) (workspace : Workspace)

/-- The figures agree for plain candidates, those of partners too. -/
theorem Auction.report_of_plain (hplain : ∀ c ∈ auction.pool, c.Plain)
    (hfew : (awardedSlots auction.pool).length < 2 ^ 64) :
    (auction.report placements workspace).1.outcome.Consistent
      (auction.report placements workspace).1.winners := by
  have hperm := auction.arrange_perm
  have hhonest : ∀ c ∈ auction.arrange.pool, c.Honest := fun c hc =>
    (hplain c (hperm.subset hc)).honest
  have hranked : (awardedSlots auction.arrange.pool).length < 2 ^ 64 := by
    rwa [(awardedSlots_perm hperm).length_eq]
  have hwinners : ∀ c ∈ (auction.step placements workspace).award.winners, c.Plain := fun c hc =>
    hplain c ((auction.winners_step_subperm placements workspace).subset hc)
  exact Outcome.consistent_ofWinners placements _ hwinners
    (step_fills placements workspace hhonest hranked) (step_takes placements workspace hhonest)
    (step_replaced_le placements workspace) (open_of_replaced placements workspace hhonest hranked)

theorem Auction.length_winners_le :
    (auction.report placements workspace).1.winners.length ≤ auction.pool.length :=
  (auction.winners_step_subperm placements workspace).length_le

/-- The words that count the winners and the candidates are in that order too. -/
theorem Auction.report_winners_le (hpool : auction.pool.length < 2 ^ 64) :
    (auction.report placements workspace).1.outcome.winners ≤
      (auction.report placements workspace).1.outcome.considered := by
  have hle : (auction.step placements workspace).award.winners.length ≤ auction.pool.length :=
    auction.length_winners_le placements workspace
  have hsame := (auction.step_pool placements workspace).length_eq
  apply UInt64.le_iff_toNat_le.mpr
  show (UInt64.ofNat (auction.step placements workspace).award.winners.length).toNat ≤
    (UInt64.ofNat (auction.step placements workspace).auction.pool.length).toNat
  rw [UInt64.toNat_ofNat_of_lt' (lt_of_le_of_lt hle hpool), hsame, UInt64.toNat_ofNat_of_lt' hpool]
  exact hle

/-- For candidates of ours with fewer slots than there are words, whatever the placements, the shuffle, the
settings and the buffers: the filled slots are those that the root is a digest of, and no more than are
requested; there are no more winners than filled slots, none exactly if none is filled, and no more than
are considered (the word for these counts a pool that a word can count: empty bundles have no slots);
and no more bundles are exchanged than win, none unless all the requested slots are filled. -/
theorem report_is_consistent (hours : ∀ c ∈ auction.pool, c.isOurs = true)
    (hfew : (awardedSlots auction.pool).length < 2 ^ 64) :
    let report := (auction.report placements workspace).1
    report.outcome.Consistent report.winners ∧ report.winners.length ≤ auction.pool.length ∧
      (auction.pool.length < 2 ^ 64 → report.outcome.winners ≤ report.outcome.considered) := by
  intro report
  have hplain : ∀ c ∈ auction.pool, c.Plain := by
    intro c hc
    have hle := (awardedSlots_sublist (List.singleton_sublist.mpr hc)).length_le
    rw [awardedSlots_singleton] at hle
    exact Candidate.plain_of_isOurs (hours c hc) (lt_of_le_of_lt hle hfew)
  exact ⟨auction.report_of_plain placements workspace hplain hfew,
    auction.length_winners_le placements workspace, auction.report_winners_le placements workspace⟩

end

/-- In this report the bundle is exchanged for three singles, so all the slots are filled. -/
theorem report_is_consistent_of_crowd :
    let report := (Sample.crowdAuction.report Sample.page Workspace.empty).1
    (∀ c ∈ Sample.crowdAuction.pool, c.isOurs = true) ∧
      (awardedSlots Sample.crowdAuction.pool).length < 2 ^ 64 ∧
        report.outcome.Consistent report.winners ∧
          report.outcome.winners ≤ report.outcome.considered ∧
            0 < report.outcome.exchanged ∧
              report.outcome.slotsFilled = report.outcome.slotsRequested := by
  intro report
  have hours : ∀ c ∈ Sample.crowdAuction.pool, c.isOurs = true := by decide
  have hfew : (awardedSlots Sample.crowdAuction.pool).length < 2 ^ 64 := by decide
  have hreplaced : (Sample.crowdAuction.step Sample.page Workspace.empty).award.replaced = 1 :=
    congrArg Award.replaced Sample.awarded_crowd
  have hexchanged : 0 < report.outcome.exchanged := by
    show (0 : UInt64) < .ofNat (Sample.crowdAuction.step Sample.page Workspace.empty).award.replaced
    rw [hreplaced]
    decide
  have hall := report_is_consistent Sample.crowdAuction Sample.page Workspace.empty hours hfew
  exact ⟨hours, hfew, hall.1, hall.2.2 (by decide), hexchanged, hall.1.full hexchanged⟩

end SlotAuction
