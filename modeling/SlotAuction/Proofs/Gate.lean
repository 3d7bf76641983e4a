import SlotAuction.Proofs.Consistency

/-!
# Gate — no exchange is held back for want of capacity

Bundles are exchanged only if the slots that are used are fewer than the pool has capacity for.  Among
candidates of ours that condition decides nothing.  A tail is left only by a fill that gave out every
slot there was, and only after it passed over a bundle; the slots of that bundle are in the capacity of
the pool, and no winner takes them.

* `Fill.Exhausted` — what there is to say of a fill that left a tail, and of the sums it is judged by;
* `Fill.exhausted_of_tail` — it holds whatever the buffers held before;
* `Award.ofFillUngated` — the award without the condition;
* `Award.exchange_is_never_held_back` — exchanges take place exactly if the settings ask for them and a
  tail was left.
-/

namespace SlotAuction

open Outcome (awardedSlots)
open Placement (landing landed totalWanted)

/-! ## Capacities that fit into a word -/

namespace Candidate

variable {cs : List Candidate}

/-- The capacities of a list together, however large the sum. -/
def exactCapacity (cs : List Candidate) : Nat :=
  (cs.map fun c => c.capacity.toNat).sum

theorem exactCapacity_of_plain (h : ∀ c ∈ cs, c.Plain) :
    exactCapacity cs = (awardedSlots cs).length := by
  induction cs with
  | nil => rfl
  | cons c cs ih =>
      have hc := h c (List.mem_cons_self ..)
      have hcs := ih fun d hd => h d (List.mem_cons_of_mem _ hd)
      calc exactCapacity (c :: cs)
          = c.capacity.toNat + exactCapacity cs := List.sum_cons
        _ = (awardedSlots (c :: cs)).length := by
            rw [hc.capacity, hc.honest, hcs, awardedSlots_cons, List.length_append]

/-- Plain candidates with few enough slots have the capacity of those slots. -/
theorem toNat_totalCapacity_of_plain (h : ∀ c ∈ cs, c.Plain)
    (hfew : (awardedSlots cs).length < 2 ^ 64) :
    (totalCapacity cs).toNat = (awardedSlots cs).length := by
  rw [totalCapacity_of_plain h]
  exact UInt64.toNat_ofNat_of_lt' hfew

end Candidate

/-! ## Fills that left a tail -/

namespace Fill

/-- The fill gave out every slot there was, and the pool has capacity for more. -/
structure Exhausted (fill : Fill) (placements : List Placement) (pool : List Candidate) : Prop where
  used : fill.usedSlots placements = totalWanted placements
  taken : fill.usedSlots placements = Candidate.totalCapacity fill.winners
  full : ∀ i : Fin placements.length, Tally.get fill.ledger.fills i = (placements.get i).wanted
  spare : fill.usedSlots placements < Candidate.totalCapacity pool
  /-- The sum of what is wanted is not clamped. -/
  wanted_exact : (totalWanted placements).toNat =
    ∑ i : Fin placements.length, (placements.get i).wanted.toNat
  taken_exact : (Candidate.totalCapacity fill.winners).toNat = Candidate.exactCapacity fill.winners
  offered_exact : (Candidate.totalCapacity pool).toNat = Candidate.exactCapacity pool

variable {placements : List Placement} {pool : List Candidate} {fills deltas : Tally}

theorem usedSlots_of_closed {fill : Fill} (h : fill.ledger.openSlots < 1) :
    fill.usedSlots placements = totalWanted placements := by
  have hzero : fill.ledger.openSlots = 0 := by
    rw [← UInt64.toNat_inj]
    exact Nat.lt_one_iff.mp (UInt64.lt_iff_toNat_lt.mp h)
  rw [usedSlots, hzero, UInt64.sub_zero]

section

variable (hhonest : ∀ c ∈ pool, c.Honest) (hfew : (awardedSlots pool).length < 2 ^ 64)
  (htail : (fresh placements pool).tail?.isSome)

include hhonest hfew htail

/-- The bundle that was passed over has slots that nobody won. -/
theorem length_slots_lt_of_tail :
    (awardedSlots (fresh placements pool).winners).length < (awardedSlots pool).length :=
  (walk_slack (Ledger.accounts_start placements Buffer.empty Buffer.empty) hhonest hfew htail).2

/-- The winners take what is wanted, to the last slot. -/
theorem length_slots_of_tail :
    (awardedSlots (fresh placements pool).winners).length = (totalWanted placements).toNat := by
  have hzero : (fresh placements pool).ledger.openSlots.toNat < 1 :=
    UInt64.lt_iff_toNat_lt.mp (closed_of_tail hhonest hfew htail)
  have hslots : (awardedSlots (fresh placements pool).winners).length +
      (fresh placements pool).ledger.openSlots.toNat = (totalWanted placements).toNat :=
    slots_add_open hhonest hfew
  omega

/-- All that is wanted has landed, so it is no more than a word can hold. -/
theorem totalWanted_of_tail :
    (totalWanted placements).toNat =
      ∑ i : Fin placements.length, (placements.get i).wanted.toNat := by
  have hzero : (fresh placements pool).ledger.openSlots.toNat < 1 :=
    UInt64.lt_iff_toNat_lt.mp (closed_of_tail hhonest hfew htail)
  have hslots := (accounts_fresh placements hfew).slots
  calc (totalWanted placements).toNat
      = landed placements (fresh placements pool).winners := by omega
    _ = ∑ i : Fin placements.length, landing placements i (fresh placements pool).winners :=
        Placement.landed_eq_sum _
    _ = ∑ i : Fin placements.length, (placements.get i).wanted.toNat :=
        Finset.sum_congr rfl fun i _ => full_of_tail hhonest hfew htail i

theorem get_fills_of_tail (fills deltas : Tally) (i : Fin placements.length) :
    Tally.get (ofPool placements pool fills deltas).ledger.fills i =
      (placements.get i).wanted := by
  have hfills := (walk_accounts (Ledger.accounts_start placements fills deltas) pool).fills i
  rw [← UInt64.toNat_inj]
  calc (Tally.get (ofPool placements pool fills deltas).ledger.fills i).toNat
      = landing placements i (ofPool placements pool fills deltas).winners := hfills
    _ = landing placements i (fresh placements pool).winners := by rw [winners_ofPool]
    _ = (placements.get i).wanted.toNat := full_of_tail hhonest hfew htail i

end

/-- A fill of plain candidates that leaves a tail is exhausted, whatever its buffers held before. -/
theorem exhausted_of_tail (hplain : ∀ c ∈ pool, c.Plain)
    (hfew : (awardedSlots pool).length < 2 ^ 64)
    (htail : (ofPool placements pool fills deltas).tail?.isSome) :
    (ofPool placements pool fills deltas).Exhausted placements pool := by
  rw [tail_ofPool] at htail
  have hhonest : ∀ c ∈ pool, c.Honest := fun c hc => (hplain c hc).honest
  have hwinners : ∀ c ∈ (fresh placements pool).winners, c.Plain := fun c hc =>
    hplain c (mem_of_winner hc)
  have hless := length_slots_lt_of_tail hhonest hfew htail
  have hlength := length_slots_of_tail hhonest hfew htail
  have htaken := Candidate.toNat_totalCapacity_of_plain hwinners (hless.trans hfew)
  have hoffered := Candidate.toNat_totalCapacity_of_plain hplain hfew
  have hused : (ofPool placements pool fills deltas).usedSlots placements =
      totalWanted placements := by
    apply usedSlots_of_closed
    rw [openSlots_ofPool]
    exact closed_of_tail hhonest hfew htail
  refine ⟨hused, ?_, get_fills_of_tail hhonest hfew htail fills deltas, ?_,
    totalWanted_of_tail hhonest hfew htail, ?_, ?_⟩
  · rw [hused, winners_ofPool, ← UInt64.toNat_inj, htaken]
    exact hlength.symm
  · rw [hused, UInt64.lt_iff_toNat_lt, hoffered, ← hlength]
    exact hless
  · rw [winners_ofPool, htaken, Candidate.exactCapacity_of_plain hwinners]
  · rw [hoffered, Candidate.exactCapacity_of_plain hplain]

end Fill

/-! ## Awards without the condition -/

namespace Award

variable {settings : Settings} {pool : List Candidate} {placements : List Placement} {fill : Fill}

/-- What becomes of the winners of a fill if nothing but the settings and the tail decides. -/
def ofFillUngated (settings : Settings) (fill : Fill) (workspace : Workspace) :
    Award × Workspace :=
  match fill.tail? with
  | some tail =>
      if settings.exchange then exchange settings.limits tail fill.winners workspace
      else (⟨fill.winners, 0⟩, workspace)
  | none => (⟨fill.winners, 0⟩, workspace)

theorem exchanges_of_exhausted (h : fill.Exhausted placements pool) :
    exchanges settings pool placements fill = settings.exchange := by
  rw [exchanges, decide_eq_true h.spare, Bool.and_true]

theorem ofFill_eq_ofFillUngated (h : fill.tail?.isSome → fill.Exhausted placements pool)
    (workspace : Workspace) :
    ofFill settings pool placements fill workspace = ofFillUngated settings fill workspace := by
  unfold ofFill ofFillUngated
  cases htail : fill.tail? with
  | none => rfl
  | some tail =>
      have hexhausted := h (by rw [htail]; rfl)
      dsimp only
      rw [exchanges_of_exhausted hexhausted]

/-- Among candidates of ours, and in whatever order the shuffle leaves them: a fill that leaves a tail is
exhausted, so that bundles are exchanged exactly if the settings ask for it and a tail was left, and
the award is the one without the condition. -/
theorem exchange_is_never_held_back {γ : Type} [WordSource γ] (auction : Auction γ)
    (hours : ∀ c ∈ auction.pool, c.isOurs = true)
    (hfew : (awardedSlots auction.pool).length < 2 ^ 64)
    (placements : List Placement) (fills deltas : Tally) (workspace : Workspace) :
    let pool := auction.arrange.pool
    let fill := Fill.ofPool placements pool fills deltas
    (fill.tail?.isSome → fill.Exhausted placements pool) ∧
      (fill.tail?.isSome ∧ exchanges auction.settings pool placements fill = true ↔
        fill.tail?.isSome ∧ auction.settings.exchange = true) ∧
      ofFill auction.settings pool placements fill workspace =
        ofFillUngated auction.settings fill workspace := by
  intro pool fill
  have hfewArranged : (awardedSlots pool).length < 2 ^ 64 := by
    rwa [(awardedSlots_perm auction.arrange_perm).length_eq]
  have hplain : ∀ c ∈ pool, c.Plain := by
    intro c hc
    have hmem := auction.arrange_perm.subset hc
    have hle : c.slots.length ≤ (awardedSlots auction.pool).length := by
      rw [← awardedSlots_singleton]
      exact (awardedSlots_sublist (List.singleton_sublist.mpr hmem)).length_le
    exact Candidate.plain_of_isOurs (hours c hmem) (lt_of_le_of_lt hle hfew)
  have hexhausted : fill.tail?.isSome → fill.Exhausted placements pool :=
    Fill.exhausted_of_tail hplain hfewArranged
  refine ⟨hexhausted, and_congr_right fun htail => ?_, ofFill_eq_ofFillUngated hexhausted workspace⟩
  rw [exchanges_of_exhausted (hexhausted htail)]

end Award

def Sample.crowdFill : Fill :=
  Fill.ofPool Sample.page Sample.crowdAuction.arrange.pool Buffer.empty Buffer.empty

/-- The wide bundle of the crowd is passed over, so that the pool has capacity for more than the page. -/
theorem Award.exchange_is_never_held_back_of_crowd :
    (∀ c ∈ Sample.crowdAuction.pool, c.isOurs = true) ∧
      (awardedSlots Sample.crowdAuction.pool).length < 2 ^ 64 ∧
        Sample.crowdFill.tail?.isSome = true ∧ Sample.crowdFill.usedSlots Sample.page = 3 ∧
          Candidate.totalCapacity Sample.crowdAuction.arrange.pool = 10 ∧
            Sample.crowdFill.Exhausted Sample.page Sample.crowdAuction.arrange.pool ∧
              exchanges Sample.crowdAuction.settings Sample.crowdAuction.arrange.pool Sample.page
                Sample.crowdFill = true := by
  have hours : ∀ c ∈ Sample.crowdAuction.pool, c.isOurs = true := by decide
  have hfew : (awardedSlots Sample.crowdAuction.pool).length < 2 ^ 64 := by decide
  have hfill : Sample.crowdFill = Fill.fresh Sample.page Sample.crowd := by
    rw [Sample.crowdFill, Sample.arranged_crowd]
    rfl
  have htail : Sample.crowdFill.tail?.isSome = true := by
    rw [hfill]
    rfl
  have hused : Sample.crowdFill.usedSlots Sample.page = 3 := by
    rw [hfill]
    rfl
  have hcapacity : Candidate.totalCapacity Sample.crowdAuction.arrange.pool = 10 := by
    rw [Sample.arranged_crowd]
    rfl
  obtain ⟨hexhausted, hruns, -⟩ := exchange_is_never_held_back Sample.crowdAuction hours hfew
    Sample.page Buffer.empty Buffer.empty Workspace.empty
  exact ⟨hours, hfew, htail, hused, hcapacity, hexhausted htail, (hruns.mpr ⟨htail, rfl⟩).2⟩

/-- Two bundles of partners, each of which states a capacity of one slot, and a single. -/
def Sample.understated : List Candidate :=
  [.partnerBundle "wide" "leaderboard" (.ofUnits 8)
     [priced "wide-1" "leaderboard" 1, priced "wide-2" "leaderboard" 1,
      priced "wide-3" "sidebar" 1, priced "wide-4" "footer" 1] none (some 1),
   .partnerBundle "page" "leaderboard" (.ofUnits 6)
     [priced "page-1" "leaderboard" 2, priced "page-2" "sidebar" 2, priced "page-3" "footer" 2]
     none (some 1),
   priced "lb" "leaderboard" 5]

/-- Partners that state less capacity than they take can hold an exchange back. -/
example :
    (Fill.fresh Sample.page Sample.understated).tail?.isSome = true ∧
      Award.exchanges Settings.defaults Sample.understated Sample.page
        (Fill.fresh Sample.page Sample.understated) = false :=
  ⟨rfl, by decide⟩

end SlotAuction
