import SlotAuction.Proofs.Fill.Buffers
import SlotAuction.Proofs.Fill.Walk
import SlotAuction.Proofs.Positions

/-!
# Precedence — in a fill, whoever comes first wins

A walk refuses a single only if its placement has no slot left, and slots are never given back.  So
of two singles for one placement the later one does not win if the earlier one lost.

* `Fill.placeable_of_winner` — a winner was placeable when it was taken up;
* `Fill.not_winner_of_refused` — where a single was refused, no later rival wins;
* `Fill.Picks`, `Fill.walk_picks` — the positions at which a walk takes its winners.

None of this asks how many slots there are, or whether partners count their parts right.
-/

namespace SlotAuction

open Placement (landing landed locate Within)

/-! ## Landings of one winner -/

theorem Placement.landing_le_of_mem {placements : List Placement} {position : Nat} {c : Candidate}
    {cs : List Candidate} (h : c ∈ cs) :
    landing placements position [c] ≤ landing placements position cs :=
  (awardedSlots_sublist (List.singleton_sublist.mpr h)).countP_le

/-- A single whose slot goes somewhere names a placement. -/
theorem exists_locate_of_lands {placements : List Placement} {c : Candidate}
    (hc : c.bundle? = none) (hlands : landed placements [c] = c.claim) :
    ∃ position, locate placements c.placement = some position := by
  rw [landed_of_single hc, Candidate.claim_of_single hc] at hlands
  cases hfound : locate placements c.placement with
  | none => simp [hfound] at hlands
  | some position => exact ⟨position, rfl⟩

namespace Fill

variable {placements : List Placement} {ledger : Ledger} {won pool rest : List Candidate}
  {c y : Candidate}

/-- Whoever wins was placeable beside those that had won by then. -/
theorem placeable_of_winner (h : ledger.Accounts placements won)
    (hy : y ∈ (walk placements pool ledger).winners) : ∃ before, Placeable placements before y := by
  -- `before` is whoever had won when the walk came to `y`.
  induction pool generalizing ledger won with
  | nil => cases hy
  | cons c rest ih =>
      by_cases hclosed : ledger.openSlots < 1
      · rw [walk_of_closed hclosed] at hy
        cases hy
      · have hnext := h.offer hclosed (c := c)
        rw [walk_of_open hclosed] at hy
        cases hyes : (ledger.offer placements c).1 with
        | false =>
            simp only [hyes] at hnext hy
            exact ih hnext hy
        | true =>
            simp only [hyes] at hnext hy
            rcases List.mem_cons.mp hy with rfl | hlater
            · exact ⟨won, h.placeable_of_offer hyes⟩
            · exact ih hnext hlater

/-! ## Refused singles -/

/-- A single is refused only for want of a slot, and then no later rival finds one. -/
theorem not_winner_of_refused (h : ledger.Accounts placements won)
    (hopen : ¬ ledger.openSlots < 1) (hno : (ledger.offer placements c).1 = false)
    (hrivals : Rivals c y) :
    y ∉ (walk placements rest (ledger.offer placements c).2).winners := by
  intro hy
  have hc : c.bundle? = none := Option.isNone_iff_eq_none.mp hrivals.left
  have hy' : y.bundle? = none := Option.isNone_iff_eq_none.mp hrivals.right
  have hnext := h.offer hopen (c := c)
  rw [hno, if_neg Bool.false_ne_true] at hnext
  obtain ⟨_, hplace⟩ := placeable_of_winner hnext hy
  obtain ⟨position, hfound⟩ := exists_locate_of_lands hy' hplace.lands
  have hlt : position < placements.length := Placement.locate_lt hfound
  -- `c` was refused, so its placement had all the slots it wants.
  have hfull : ¬ landing placements position won < placements[position].wanted.toNat := by
    intro hroom
    rw [← hrivals.placement] at hfound
    have hyes : (ledger.offerSingle placements c.placement).1 = true :=
      (h.offerSingle_iff hc).mpr ((placeable_single_iff h.within hc hfound hlt).mpr hroom)
    rw [Ledger.offer, hc] at hno
    exact absurd hyes (Bool.eq_false_iff.mp hno)
  -- But the winners up to the end, `y` among them, keep within what it wants.
  have hwithin := (walk_accounts hnext rest).within ⟨position, hlt⟩
  have hone : landing placements position [y] = 1 := by
    rw [landing_of_single hy', if_pos hfound]
  have hle : landing placements position [y] ≤
      landing placements position (walk placements rest (ledger.offer placements c).2).winners :=
    Placement.landing_le_of_mem hy
  rw [Placement.landing_append] at hwithin
  simp only [Fin.getElem_fin] at hwithin
  omega

/-! ## Where the winners stand -/

/-- A fill of the pool took its winners at the positions, all of them before its tail, and no single
was passed over for a later rival. -/
structure Picks (pool : List Candidate) (fill : Fill) (picked : List Nat) : Prop where
  distinct : picked.Nodup
  entries : entriesAt pool picked = fill.winners
  beforeTail : ∀ q ∈ picked, q + (fill.tail?.getD []).length < pool.length
  leads : LeadsRivals pool picked

theorem picks_none {fill : Fill} (h : fill.winners = []) : Picks pool fill [] where
  distinct := List.nodup_nil
  entries := h.symm
  beforeTail _ hq := by cases hq
  leads _ _ _ _ _ _ _ _ hq := by cases hq

/-- Positions of the rest, as positions of the whole pool. -/
theorem mem_map_succ {picked : List Nat} {p : Nat} : p + 1 ∈ picked.map (1 + ·) ↔ p ∈ picked := by
  rw [Nat.add_comm]
  exact mem_map_shift

theorem Picks.refused {later : Fill} {picked : List Nat} (h : Picks rest later picked)
    (hlost : ∀ y ∈ later.winners, ¬ Rivals c y) : Picks (c :: rest) later (picked.map (1 + ·)) where
  distinct := h.distinct.map fun p q hpq => Nat.add_left_cancel hpq
  entries := (entriesAt_tail [c] rest picked).trans h.entries
  beforeTail q hq := by
    obtain ⟨p, hp, rfl⟩ := List.mem_map.mp hq
    have := h.beforeTail p hp
    rw [List.length_cons]
    omega
  leads p q x y hx hy hrivals hp hq := by
    obtain ⟨q, hpicked, rfl⟩ := List.mem_map.mp hq
    rw [Nat.add_comm, List.getElem?_cons_succ] at hy
    cases p with
    | zero =>
        -- `c` itself was refused.
        cases hx
        have hwon : y ∈ later.winners := h.entries ▸ mem_entriesAt.mpr ⟨q, hpicked, hy⟩
        exact absurd hrivals (hlost y hwon)
    | succ p =>
        have := h.leads p q x y hx hy hrivals (mt mem_map_succ.mpr hp) hpicked
        omega

theorem Picks.accepted {later : Fill} {picked : List Nat} (h : Picks rest later picked)
    (htail : (later.tail?.getD []).length ≤ rest.length) :
    Picks (c :: rest) { later with winners := c :: later.winners } (0 :: picked.map (1 + ·)) where
  distinct := by
    refine List.nodup_cons.mpr ⟨?_, h.distinct.map fun p q hpq => Nat.add_left_cancel hpq⟩
    intro hzero
    obtain ⟨p, _, hp⟩ := List.mem_map.mp hzero
    omega
  entries := by
    rw [entriesAt_cons List.getElem?_cons_zero]
    exact congrArg (c :: ·) ((entriesAt_tail [c] rest picked).trans h.entries)
  beforeTail q hq := by
    show q + (later.tail?.getD []).length < _
    rw [List.length_cons]
    rcases List.mem_cons.mp hq with rfl | hlater
    · omega
    · obtain ⟨p, hp, rfl⟩ := List.mem_map.mp hlater
      have := h.beforeTail p hp
      omega
  leads p q x y hx hy hrivals hp hq := by
    cases p with
    | zero => exact absurd (List.mem_cons_self ..) hp
    | succ p =>
        rcases List.mem_cons.mp hq with rfl | hlater
        · exact Nat.succ_pos p
        · obtain ⟨q, hpicked, rfl⟩ := List.mem_map.mp hlater
          rw [Nat.add_comm, List.getElem?_cons_succ] at hy
          have hp' : p ∉ picked := fun hmem => hp (List.mem_cons_of_mem _ (mem_map_succ.mpr hmem))
          have := h.leads p q x y hx hy hrivals hp' hpicked
          omega

theorem length_tail_le (placements : List Placement) (pool : List Candidate) (ledger : Ledger) :
    ((walk placements pool ledger).tail?.getD []).length ≤ pool.length := by
  cases htail : (walk placements pool ledger).tail? with
  | none => exact Nat.zero_le _
  | some tail =>
      obtain ⟨before, rfl, _⟩ := walk_split placements pool ledger htail
      simp

/-- The run of the walk: it takes its winners first come, first served among rivals. -/
theorem walk_picks (h : ledger.Accounts placements won) :
    ∃ picked, Picks pool (walk placements pool ledger) picked := by
  -- Candidates are refused by a ledger that is right about the winners, so `won` goes along.
  induction pool generalizing ledger won with
  | nil => exact ⟨[], picks_none rfl⟩
  | cons c rest ih =>
      by_cases hclosed : ledger.openSlots < 1
      · rw [walk_of_closed hclosed]
        exact ⟨[], picks_none rfl⟩
      · have hnext := h.offer hclosed (c := c)
        obtain ⟨picked, hpicked⟩ := ih hnext
        rw [walk_of_open hclosed]
        cases hyes : (ledger.offer placements c).1 with
        | false =>
            exact ⟨_, hpicked.refused fun y hy hrivals =>
              not_winner_of_refused h hclosed hyes hrivals hy⟩
        | true => exact ⟨_, hpicked.accepted (length_tail_le placements rest _)⟩

theorem claims_of_fresh_winner (hy : y ∈ (fresh placements pool).winners) : 0 < y.claim := by
  obtain ⟨_, hplace⟩ :=
    placeable_of_winner (Ledger.accounts_start placements Buffer.empty Buffer.empty) hy
  exact hplace.claims

theorem fresh_picks (placements : List Placement) (pool : List Candidate) :
    ∃ picked, Picks pool (fresh placements pool) picked :=
  walk_picks (Ledger.accounts_start placements Buffer.empty Buffer.empty)

end Fill
end SlotAuction
