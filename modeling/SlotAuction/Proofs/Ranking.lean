import Mathlib.Data.List.Pairwise
import Mathlib.Tactic.Ring
import SlotAuction.Candidate.Ranking

/-!
# Ranking — the orders of a fill and of an exchange are orders

The comparisons by which candidates are ranked look at kinds and counts, turn values round, and
multiply across scales.  They are transitive and total all the same, so a merge sort ranks by them.

* `Decimal.ticks`, `Decimal.compare_eq_ticks` — decimals compare like whole numbers of the finest
  unit;
* `Candidate.sortForFill_pairwise`, `Candidate.sortForExchange_pairwise` — what is sorted is ranked
  throughout;
* `Candidate.eq_of_ranked`, `Candidate.mergeSort_eq_of_strict` — without ties there is one ranking;
* `Candidate.isLE_fillOrder_of_singles` — singles of one slot are ranked by their bids.
-/

namespace SlotAuction

/-! ## Decimals -/

namespace Decimal

/-- The value counted in units of `10 ^ -maxScale`, of which every decimal is a whole number. -/
def ticks (d : Decimal) : Int :=
  d.coefficient * 10 ^ (maxScale - d.scale)

theorem compare_mul_of_pos {k : Int} (hk : 0 < k) (m n : Int) :
    compare (m * k) (n * k) = compare m n := by
  rcases Int.lt_trichotomy m n with hlt | heq | hgt
  · rw [Int.compare_eq_lt.mpr hlt, Int.compare_eq_lt]
    exact Int.mul_lt_mul_of_pos_right hlt hk
  · rw [heq]
    simp
  · rw [Int.compare_eq_gt.mpr hgt, Int.compare_eq_gt]
    exact Int.mul_lt_mul_of_pos_right hgt hk

theorem ticks_mul (d : Decimal) (scale : Nat) :
    d.ticks * 10 ^ (d.scale + scale) = d.coefficient * 10 ^ scale * 10 ^ maxScale := by
  have hscale : maxScale - d.scale + d.scale = maxScale := Nat.sub_add_cancel d.scale_le
  calc d.ticks * 10 ^ (d.scale + scale)
      = d.coefficient * (10 ^ (maxScale - d.scale) * 10 ^ d.scale * 10 ^ scale) := by
        rw [ticks, Int.pow_add]
        ring
    _ = d.coefficient * (10 ^ maxScale * 10 ^ scale) := by
        rw [← Int.pow_add, hscale]
    _ = d.coefficient * 10 ^ scale * 10 ^ maxScale := by
        ring

theorem compare_eq_ticks (a b : Decimal) : compare a b = compare a.ticks b.ticks := by
  have hunit : (0 : Int) < 10 ^ maxScale := Int.pow_pos (by decide)
  have hscales : (0 : Int) < 10 ^ (a.scale + b.scale) := Int.pow_pos (by decide)
  rw [compare_def, ← compare_mul_of_pos hunit, ← ticks_mul, ← ticks_mul, Nat.add_comm b.scale,
    compare_mul_of_pos hscales]

instance : Std.TransOrd Decimal where
  eq_swap := by
    intro a b
    rw [compare_eq_ticks a b, compare_eq_ticks b a]
    exact Std.OrientedCmp.eq_swap
  isLE_trans := by
    intro a b c hab hbc
    rw [compare_eq_ticks] at hab hbc ⊢
    exact Std.TransCmp.isLE_trans hab hbc

end Decimal

theorem Amount.isLE_compare_toDecimal (a b : Amount) :
    (compare a.toDecimal b.toDecimal).isLE = true ↔ a ≤ b := by
  have hunits : (0 : Int) < 10 ^ 8 := by decide
  rw [Decimal.compare_def]
  show (compare ((a.raw.toNat : Int) * 10 ^ 8) ((b.raw.toNat : Int) * 10 ^ 8)).isLE = true ↔ _
  rw [Decimal.compare_mul_of_pos hunits, Int.isLE_compare, Int.ofNat_le]
  exact UInt64.le_iff_toNat_le.symm

namespace Candidate

/-! ## Order of a fill -/

instance : Std.TransCmp shapeOrder where
  eq_swap := by
    intro a b
    unfold shapeOrder
    cases a.bundle? with
    | none =>
        cases b.bundle? with
        | none => rfl
        | some y => rfl
    | some x =>
        cases b.bundle? with
        | none => rfl
        | some y => exact Std.OrientedOrd.eq_swap
  isLE_trans := by
    intro a b c hab hbc
    unfold shapeOrder at hab hbc ⊢
    cases ha : a.bundle? with
    | none =>
        -- Nothing but a single comes after a single.
        cases hb : b.bundle? with
        | none => simpa [ha, hb] using hbc
        | some y => simp [ha, hb] at hab
    | some x =>
        cases hc : c.bundle? with
        | none => rfl
        | some z =>
            cases hb : b.bundle? with
            | none => simp [hb, hc] at hbc
            | some y =>
                simp only [ha, hb, hc] at hab hbc ⊢
                exact Std.TransCmp.isLE_trans hbc hab

instance : Std.TransCmp fillOrder :=
  inferInstanceAs (Std.TransCmp (compareLex shapeOrder fun a b => compareOn perSlotValue b a))

/-! ## Order of an exchange -/

/-- The kinds compare like the answers to the question which of the two is a bundle, turned round. -/
theorem kindOrder_eq (a b : Candidate) : kindOrder a b = compare b.isBundle a.isBundle := by
  unfold kindOrder
  cases a.isBundle <;> cases b.isBundle <;> rfl

instance : Std.TransCmp kindOrder where
  eq_swap := by
    intro a b
    rw [kindOrder_eq, kindOrder_eq]
    exact Std.OrientedCmp.eq_swap
  isLE_trans := by
    intro a b c hab hbc
    rw [kindOrder_eq] at hab hbc ⊢
    exact Std.TransCmp.isLE_trans hbc hab

instance : Std.TransCmp exchangeOrder :=
  inferInstanceAs (Std.TransCmp (compareLex (compareOn perSlotValue) kindOrder))

/-! ## Sorted lists -/

section

variable {order : Candidate → Candidate → Ordering} [Std.TransCmp order]

theorem isLE_trans (a b c : Candidate) (hab : (order a b).isLE = true)
    (hbc : (order b c).isLE = true) : (order a c).isLE = true :=
  Std.TransCmp.isLE_trans hab hbc

theorem isLE_total (a b : Candidate) : ((order a b).isLE || (order b a).isLE) = true := by
  have hswap : order b a = (order a b).swap := Std.OrientedCmp.eq_swap
  rw [hswap]
  cases order a b <;> rfl

/-- Candidates that do not tie settle their ranking. -/
theorem eq_of_ranked {pool ranked others : List Candidate}
    (hties : pool.Pairwise fun a b => order a b ≠ .eq) (hranked : ranked.Perm pool)
    (hothers : others.Perm pool) (hdown : ranked.Pairwise fun a b => (order a b).isLE = true)
    (hdown' : others.Pairwise fun a b => (order a b).isLE = true) : ranked = others := by
  have hsymm : Std.Symm fun a b => order a b ≠ .eq :=
    ⟨fun _ _ hab hba => hab (Std.OrientedCmp.eq_comm.mp hba)⟩
  refine List.Perm.eq_of_pairwise ?_ hdown hdown' (hranked.trans hothers.symm)
  intro a b ha hb hab hba
  by_contra hne
  have htie : order a b ≠ .eq :=
    List.Pairwise.forall hties (hranked.mem_iff.mp ha) (hothers.mem_iff.mp hb) hne
  exact htie (Std.OrientedCmp.isLE_antisymm hab hba)

/-- A list in strict order is what its entries are sorted to, in whatever order they come. -/
theorem mergeSort_eq_of_strict {cs ranked : List Candidate} (hperm : ranked.Perm cs)
    (hstrict : ranked.Pairwise fun a b => order a b = .lt) :
    cs.mergeSort (fun a b => (order a b).isLE) = ranked := by
  have hties : ranked.Pairwise fun a b => order a b ≠ .eq := hstrict.imp fun hlt heq => by
    rw [hlt] at heq
    cases heq
  have hdown : ranked.Pairwise fun a b => (order a b).isLE = true := hstrict.imp fun hlt => by
    rw [hlt]
    rfl
  exact eq_of_ranked hties ((List.mergeSort_perm ..).trans hperm.symm) (.refl _)
    (List.pairwise_mergeSort isLE_trans isLE_total cs) hdown

end

/-- A sorted pool is ranked throughout. -/
theorem sortForFill_pairwise (cs : List Candidate) :
    (sortForFill cs).Pairwise fun a b => (fillOrder a b).isLE = true :=
  List.pairwise_mergeSort isLE_trans isLE_total cs

/-- Winners that are up for exchange come weakest first. -/
theorem sortForExchange_pairwise (cs : List Candidate) :
    (sortForExchange cs).Pairwise fun a b => (exchangeOrder a b).isLE = true :=
  List.pairwise_mergeSort isLE_trans isLE_total cs

/-! ## Singles -/

theorem perSlotValue_of_one {c : Candidate} (h : c.capacity = 1) :
    c.perSlotValue = c.bid.toDecimal := by
  rw [perSlotValue, h]
  rfl

/-- Singles are ranked by what they bid for a slot, the higher one first. -/
theorem fillOrder_of_singles {a b : Candidate} (ha : a.isSingle = true) (hb : b.isSingle = true) :
    fillOrder a b = compare b.perSlotValue a.perSlotValue := by
  have hshape : shapeOrder a b = .eq := by
    unfold shapeOrder
    rw [Option.isNone_iff_eq_none.mp ha, Option.isNone_iff_eq_none.mp hb]
  rw [fillOrder, hshape, Ordering.eq_then]

/-- Singles of one slot are ranked by their bids, the higher one first. -/
theorem isLE_fillOrder_of_singles {a b : Candidate} (ha : a.isSingle = true)
    (hb : b.isSingle = true) (hacapacity : a.capacity = 1) (hbcapacity : b.capacity = 1) :
    (fillOrder a b).isLE = true ↔ b.bid ≤ a.bid := by
  rw [fillOrder_of_singles ha hb, perSlotValue_of_one hacapacity, perSlotValue_of_one hbcapacity]
  exact Amount.isLE_compare_toDecimal b.bid a.bid

end Candidate
end SlotAuction
