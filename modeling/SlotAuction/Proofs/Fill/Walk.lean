import SlotAuction.Proofs.Fill.Accounts

/-!
# Walk — the winners of a walk are those of the plain rule

The walk over a pool keeps a ledger, passes over bundles that are larger than the number of open
slots, and stops once no slot is open.

* `Fill.walk_of_placeable`, `Fill.walk_of_not_placeable` — one step, by the plain rule;
* `Fill.walk_accounts` — the ledger at the end is right about the winners;
* `Fill.walk_winners`, `Fill.walk_spec` — they are those of the plain rule all the same;
* `Fill.walk_split` — a tail is what follows after the winners;
* `Fill.walk_slack` — if honest candidates leave a tail, no slot is open and not all of theirs are won;
* `Fill.walk_full` — if a tail is left by honest candidates, every placement has all it wants.
-/

namespace SlotAuction

open Outcome (awardedSlots)
open Placement (landing landed Within totalWanted)

namespace Fill

variable {placements : List Placement} {ledger : Ledger} {won pool : List Candidate}

/-! ## One step -/

section

variable {c : Candidate}

theorem walk_of_closed (h : ledger.openSlots < 1) :
    walk placements (c :: pool) ledger =
      ⟨[], if ledger.bundleSkipped then some (c :: pool) else none, ledger⟩ := by
  rw [walk, if_pos h]

theorem walk_of_open (h : ¬ ledger.openSlots < 1) :
    walk placements (c :: pool) ledger =
      let later := walk placements pool (ledger.offer placements c).2
      if (ledger.offer placements c).1 then { later with winners := c :: later.winners }
      else later := by
  rw [walk, if_neg h]

theorem walk_of_placeable (h : ledger.Accounts placements won)
    (hone : (awardedSlots (won ++ [c])).length < 2 ^ 64) (hopen : ¬ ledger.openSlots < 1)
    (hplace : Placeable placements won c) :
    walk placements (c :: pool) ledger =
      { walk placements pool (ledger.offer placements c).2 with
        winners := c :: (walk placements pool (ledger.offer placements c).2).winners } := by
  have hyes : (ledger.offer placements c).1 = true := (h.offer_iff hone).mpr hplace
  rw [walk_of_open hopen]
  exact if_pos hyes

theorem walk_of_not_placeable (h : ledger.Accounts placements won)
    (hone : (awardedSlots (won ++ [c])).length < 2 ^ 64) (hopen : ¬ ledger.openSlots < 1)
    (hplace : ¬ Placeable placements won c) :
    walk placements (c :: pool) ledger = walk placements pool (ledger.offer placements c).2 := by
  have hno : ¬ (ledger.offer placements c).1 = true := mt (h.offer_iff hone).mp hplace
  rw [walk_of_open hopen]
  exact if_neg hno

/-- One candidate of a pool has few enough slots if the pool has. -/
theorem few_slots_of_mem (hc : c ∈ pool) (hfew : (awardedSlots (won ++ pool)).length < 2 ^ 64) :
    (awardedSlots (won ++ [c])).length < 2 ^ 64 := by
  have hsub : (won ++ [c]).Sublist (won ++ pool) :=
    (List.singleton_sublist.mpr hc).append_left won
  exact lt_of_le_of_lt (awardedSlots_sublist hsub).length_le hfew

theorem few_slots_of_cons (hfew : (awardedSlots (won ++ c :: pool)).length < 2 ^ 64) :
    (awardedSlots (won ++ pool)).length < 2 ^ 64 := by
  have hsub : (won ++ pool).Sublist (won ++ c :: pool) :=
    (List.sublist_cons_self c pool).append_left won
  exact lt_of_le_of_lt (awardedSlots_sublist hsub).length_le hfew

end

/-! ## The winners -/

/-- Once no slot is open, nothing is placeable any more. -/
theorem greedy_of_closed (h : ledger.Accounts placements won) (hclosed : ledger.openSlots < 1)
    (hfew : (awardedSlots (won ++ pool)).length < 2 ^ 64) :
    greedy placements won pool = [] := by
  refine greedy_eq_nil fun c hc hplace => ?_
  exact h.open_of_placeable (few_slots_of_mem hc hfew) hplace hclosed

/-- The run of the walk: the ledger that it ends with is right about everybody who won. -/
theorem walk_accounts (h : ledger.Accounts placements won) (pool : List Candidate) :
    (walk placements pool ledger).ledger.Accounts placements
      (won ++ (walk placements pool ledger).winners) := by
  induction pool generalizing ledger won with
  | nil => simpa [walk] using h
  | cons c rest ih =>
      by_cases hclosed : ledger.openSlots < 1
      · rw [walk_of_closed hclosed]
        simpa using h
      · have hnext := h.offer hclosed (c := c)
        rw [walk_of_open hclosed]
        cases hyes : (ledger.offer placements c).1 with
        | false =>
            rw [hyes] at hnext
            exact ih hnext
        | true =>
            rw [hyes] at hnext
            simpa using ih hnext

/-- The walk has the winners of the plain rule. -/
theorem walk_winners (h : ledger.Accounts placements won)
    (hfew : (awardedSlots (won ++ pool)).length < 2 ^ 64) :
    (walk placements pool ledger).winners = greedy placements won pool := by
  -- The walk turns to the rest with a ledger that is right about the winners up to there.
  induction pool generalizing ledger won with
  | nil => rfl
  | cons c rest ih =>
      by_cases hclosed : ledger.openSlots < 1
      · rw [walk_of_closed hclosed, greedy_of_closed h hclosed hfew]
      · have hone := few_slots_of_mem (List.mem_cons_self ..) hfew
        have hnext := h.offer_of_few hone hclosed
        by_cases hplace : Placeable placements won c
        · rw [if_pos hplace] at hnext
          rw [walk_of_placeable h hone hclosed hplace, greedy_of_placeable hplace]
          exact congrArg (c :: ·) (ih hnext (by simpa using hfew))
        · rw [if_neg hplace] at hnext
          rw [walk_of_not_placeable h hone hclosed hplace, greedy_of_not_placeable hplace]
          exact ih hnext (few_slots_of_cons hfew)

/-- The walk has the winners of the plain rule, and its ledger is right about them. -/
theorem walk_spec (h : ledger.Accounts placements won)
    (hfew : (awardedSlots (won ++ pool)).length < 2 ^ 64) :
    (walk placements pool ledger).winners = greedy placements won pool ∧
      (walk placements pool ledger).ledger.Accounts placements
        (won ++ greedy placements won pool) := by
  have hwinners := walk_winners h hfew
  refine ⟨hwinners, ?_⟩
  rw [← hwinners]
  exact walk_accounts h pool

/-! ## The tail -/

/-- What the walk leaves is a tail of the pool, and the winners come before it. -/
theorem walk_split (placements : List Placement) (pool : List Candidate) (ledger : Ledger)
    {tail : List Candidate} (h : (walk placements pool ledger).tail? = some tail) :
    ∃ before, pool = before ++ tail ∧ (walk placements pool ledger).winners.Sublist before := by
  induction pool generalizing ledger with
  | nil => cases h
  | cons c rest ih =>
      by_cases hclosed : ledger.openSlots < 1
      · rw [walk_of_closed hclosed] at h ⊢
        cases hskipped : ledger.bundleSkipped with
        | false => simp [hskipped] at h
        | true =>
            simp only [hskipped, if_true, Option.some.injEq] at h
            exact ⟨[], by simpa using h, List.Sublist.refl _⟩
      · rw [walk_of_open hclosed] at h ⊢
        cases hwon : (ledger.offer placements c).1 with
        | false =>
            simp only [hwon] at h ⊢
            obtain ⟨before, rfl, hsub⟩ := ih _ h
            exact ⟨c :: before, rfl, hsub.cons c⟩
        | true =>
            simp only [hwon] at h ⊢
            obtain ⟨before, rfl, hsub⟩ := ih _ h
            exact ⟨c :: before, rfl, hsub.cons_cons c⟩

/-- The one thing that marks a ledger is a bundle larger than the number of open slots. -/
theorem offer_bundleSkipped (ledger : Ledger) (placements : List Placement) (c : Candidate) :
    (ledger.offer placements c).2.bundleSkipped =
      (ledger.bundleSkipped || (c.isBundle && decide (ledger.openSlots.toNat < c.claim))) := by
  cases hc : c.bundle? with
  | none =>
      have hsingle : c.isBundle = false := by simp [Candidate.isBundle, hc]
      simp only [Ledger.offer, hc, hsingle, Bool.false_and, Bool.or_false]
      rcases Ledger.offerSingle_cases ledger placements c.placement with hno | ⟨_, _, hyes⟩
      · rw [hno]
      · rw [hyes]
  | some b =>
      have hbundle : c.isBundle = true := by simp [Candidate.isBundle, hc]
      simp only [Ledger.offer, hc, hbundle, Candidate.claim_of_bundle hc, Bool.true_and]
      unfold Ledger.offerBundle
      by_cases hskip : ledger.openSlots < b.count
      · have : ledger.openSlots.toNat < b.count.toNat := UInt64.lt_iff_toNat_lt.mp hskip
        simp [hskip, this]
      · have : ¬ ledger.openSlots.toNat < b.count.toNat :=
          fun hlt => hskip (UInt64.lt_iff_toNat_lt.mpr hlt)
        simp [hskip, this]

theorem walk_tail_of_singles (placements : List Placement)
    (hsingles : ∀ c ∈ pool, c.isBundle = false) (hskipped : ledger.bundleSkipped = false) :
    (walk placements pool ledger).tail? = none := by
  induction pool generalizing ledger with
  | nil => rfl
  | cons c rest ih =>
      by_cases hclosed : ledger.openSlots < 1
      · rw [walk_of_closed hclosed]
        simp [hskipped]
      · have hnext : (ledger.offer placements c).2.bundleSkipped = false := by
          simp [offer_bundleSkipped, hskipped, hsingles c (List.mem_cons_self ..)]
        have hlater := ih (fun d hd => hsingles d (List.mem_cons_of_mem _ hd)) hnext
        rw [walk_of_open hclosed]
        cases (ledger.offer placements c).1 with
        | false => exact hlater
        | true => exact hlater

/-- One for a ledger that marks a skipped bundle, for a slot of it that no winner takes. -/
def mark (ledger : Ledger) : Nat :=
  if ledger.bundleSkipped then 1 else 0

/-- A mark is only made for a candidate that claims a slot. -/
theorem mark_offer_le (ledger : Ledger) (placements : List Placement) (c : Candidate) :
    mark (ledger.offer placements c).2 ≤ mark ledger + c.claim := by
  unfold mark
  rw [offer_bundleSkipped]
  cases ledger.bundleSkipped with
  | true => simp
  | false =>
      by_cases hlarge : ledger.openSlots.toNat < c.claim
      · split <;> omega
      · simp [hlarge]

/-- A winner claims no more than is open, so no mark is made for it. -/
theorem mark_offer_of_placeable {c : Candidate} (h : ledger.Accounts placements won)
    (hone : (awardedSlots (won ++ [c])).length < 2 ^ 64) (hplace : Placeable placements won c) :
    mark (ledger.offer placements c).2 = mark ledger := by
  have hle := h.claim_le hone hplace
  have hsmall : ¬ ledger.openSlots.toNat < c.claim := by omega
  simp [mark, offer_bundleSkipped, hsmall]

/-- A tail is left only after a bundle was passed over, whose slots are no winner's: so the winners
take fewer slots than the pool has. -/
theorem walk_slack (h : ledger.Accounts placements won) (hhonest : ∀ c ∈ pool, c.Honest)
    (hfew : (awardedSlots (won ++ pool)).length + mark ledger < 2 ^ 64)
    (htail : (walk placements pool ledger).tail?.isSome) :
    (walk placements pool ledger).ledger.openSlots < 1 ∧
      (awardedSlots (won ++ (walk placements pool ledger).winners)).length + 1 ≤
        (awardedSlots (won ++ pool)).length + mark ledger := by
  -- The mark counts as a slot: passing over a bundle trades its slots for the mark.
  induction pool generalizing ledger won with
  | nil => simp [walk] at htail
  | cons c rest ih =>
      have hlengths : (awardedSlots (won ++ c :: rest)).length =
          (awardedSlots (won ++ rest)).length + c.slots.length := by
        simp only [awardedSlots_append, awardedSlots_cons, List.length_append]
        omega
      by_cases hclosed : ledger.openSlots < 1
      · rw [walk_of_closed hclosed] at htail ⊢
        have hmark : mark ledger = 1 := by
          unfold mark
          cases hskipped : ledger.bundleSkipped with
          | false => simp [hskipped] at htail
          | true => rfl
        refine ⟨hclosed, ?_⟩
        simp only [awardedSlots_append, List.length_append, List.append_nil] at hfew hlengths ⊢
        omega
      · have hone := few_slots_of_mem (List.mem_cons_self ..)
          (lt_of_le_of_lt (Nat.le_add_right _ _) hfew)
        have hnext := h.offer_of_few hone hclosed
        have hrest : ∀ d ∈ rest, d.Honest := fun d hd => hhonest d (List.mem_cons_of_mem _ hd)
        by_cases hplace : Placeable placements won c
        · have hmark := mark_offer_of_placeable h hone hplace
          rw [if_pos hplace] at hnext
          rw [walk_of_placeable h hone hclosed hplace] at htail ⊢
          have hfew' : (awardedSlots ((won ++ [c]) ++ rest)).length +
              mark (ledger.offer placements c).2 < 2 ^ 64 := by
            rw [hmark, List.append_assoc]
            exact hfew
          rw [← hmark]
          simpa using ih hnext hrest hfew' htail
        · rw [if_neg hplace] at hnext
          rw [walk_of_not_placeable h hone hclosed hplace] at htail ⊢
          have hclaim : c.claim = c.slots.length := hhonest c (List.mem_cons_self ..)
          have hmark := mark_offer_le ledger placements c
          obtain ⟨hlater, hslack⟩ := ih hnext hrest (by omega) htail
          exact ⟨hlater, by omega⟩

/-- If honest candidates leave a tail, no placement lacks a slot. -/
theorem walk_full (h : ledger.Accounts placements won) (hhonest : ∀ c ∈ pool, c.Honest)
    (hfew : (awardedSlots (won ++ pool)).length + mark ledger < 2 ^ 64)
    (htail : (walk placements pool ledger).tail?.isSome) (i : Fin placements.length) :
    landing placements i (won ++ (walk placements pool ledger).winners) =
      placements[i].wanted.toNat := by
  obtain ⟨hclosed, hslack⟩ := walk_slack h hhonest hfew htail
  have haccounts := walk_accounts h pool
  have hzero : (walk placements pool ledger).ledger.openSlots.toNat < 1 :=
    UInt64.lt_iff_toNat_lt.mp hclosed
  have hlanded := Placement.landed_le_length placements
    (won ++ (walk placements pool ledger).winners)
  have hslots := haccounts.slots
  rw [Placement.toNat_totalWanted, Placement.landed_eq_sum] at hslots
  rw [Placement.landed_eq_sum] at hlanded
  have hsum : ∑ j : Fin placements.length,
        landing placements j (won ++ (walk placements pool ledger).winners) =
      ∑ j : Fin placements.length, placements[j].wanted.toNat := by
    unfold Word.limit at hslots
    omega
  have hpointwise := (Finset.sum_eq_sum_iff_of_le fun j _ => haccounts.within j).mp hsum
  exact hpointwise i (Finset.mem_univ i)

end Fill
end SlotAuction
