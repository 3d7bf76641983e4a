import Mathlib.Data.String.Basic
import SlotAuction.Outcome.Basic

/-!
# SortedSlots — sums and sorted lists do not depend on an order

The record of an award sums amounts and hashes slots in an order of their own.  Both orders are
linear, so a list that is sorted by them is determined by what it holds and how often.

* `Amount.total_perm` — a sum of amounts;
* `Amount.greatest` — the greatest amounts of a list, and how they are read off a descending one;
* `Outcome.eq_slotSort` — the slots of an award have one order only;
* `Outcome.rootMessage_perm` — what is hashed for the root.
-/

namespace SlotAuction

/-! ## Amounts -/

namespace Amount

variable {amounts others : List Amount}

theorem le_trans {a b c : Amount} (hab : a ≤ b) (hbc : b ≤ c) : a ≤ c :=
  UInt64.le_trans hab hbc

theorem le_total (a b : Amount) : a ≤ b ∨ b ≤ a :=
  UInt64.le_total a.raw b.raw

theorem eq_of_toNat_eq {a b : Amount} (h : a.raw.toNat = b.raw.toNat) : a = b := by
  cases a
  cases b
  exact congrArg Amount.mk (UInt64.toNat_inj.mp h)

theorem le_antisymm {a b : Amount} (hab : a ≤ b) (hba : b ≤ a) : a = b :=
  eq_of_toNat_eq (congrArg UInt64.toNat (UInt64.le_antisymm hab hba))

theorem total_perm (h : amounts.Perm others) : total amounts = total others := by
  apply eq_of_toNat_eq
  rw [toNat_total, toNat_total, (h.map _).sum_nat]

theorem sort_perm (amounts : List Amount) : (sort amounts).Perm amounts :=
  List.mergeSort_perm ..

theorem sort_pairwise (amounts : List Amount) : (sort amounts).Pairwise (· ≤ ·) := by
  have hsorted : (sort amounts).Pairwise fun a b => decide (a ≤ b) = true := by
    refine List.pairwise_mergeSort ?_ ?_ amounts
    · intro a b c hab hbc
      exact decide_eq_true (le_trans (of_decide_eq_true hab) (of_decide_eq_true hbc))
    · intro a b
      simpa using le_total a b
  exact hsorted.imp of_decide_eq_true

/-- The `k` greatest of the amounts, the greatest first; all of them if there are fewer. -/
def greatest (k : Nat) (amounts : List Amount) : List Amount :=
  (sort amounts).reverse.take k

/-- From a descending list they are taken off the front. -/
theorem take_eq_greatest (hperm : amounts.Perm others) (hdown : amounts.Pairwise fun a b => b ≤ a)
    (k : Nat) : amounts.take k = greatest k others := by
  have hreverse : (sort others).reverse.Pairwise fun a b => b ≤ a :=
    List.pairwise_reverse.mpr (sort_pairwise others)
  have hsame : amounts.Perm (sort others).reverse :=
    hperm.trans ((sort_perm others).symm.trans (List.reverse_perm _).symm)
  have heq : amounts = (sort others).reverse :=
    hsame.eq_of_pairwise (fun a b _ _ hba hab => le_antisymm hab hba) hdown hreverse
  rw [greatest, heq]

theorem greatest_perm (h : amounts.Perm others) (k : Nat) :
    greatest k amounts = greatest k others := by
  refine take_eq_greatest ?_ (List.pairwise_reverse.mpr (sort_pairwise amounts)) k
  exact (List.reverse_perm _).trans ((sort_perm amounts).trans h)

end Amount

/-! ## Slots -/

namespace Outcome

open Candidate (Slot)

theorem slotLE_iff (a b : Slot) :
    slotLE a b = true ↔ a.1 < b.1 ∨ a.1 = b.1 ∧ a.2 ≤ b.2 := by
  simp [slotLE]

theorem slotLE_trans (a b c : Slot) (hab : slotLE a b = true) (hbc : slotLE b c = true) :
    slotLE a c = true := by
  rw [slotLE_iff] at hab hbc ⊢
  rcases hab with hname | ⟨hname, hamount⟩
  · rcases hbc with hname' | ⟨hname', _⟩
    · exact Or.inl (lt_trans hname hname')
    · exact Or.inl (hname' ▸ hname)
  · rcases hbc with hname' | ⟨hname', hamount'⟩
    · exact Or.inl (hname ▸ hname')
    · exact Or.inr ⟨hname.trans hname', Amount.le_trans hamount hamount'⟩

theorem slotLE_total (a b : Slot) : (slotLE a b || slotLE b a) = true := by
  rw [Bool.or_eq_true, slotLE_iff, slotLE_iff]
  rcases lt_trichotomy a.1 b.1 with hlt | heq | hgt
  · exact Or.inl (Or.inl hlt)
  · rcases Amount.le_total a.2 b.2 with hle | hge
    · exact Or.inl (Or.inr ⟨heq, hle⟩)
    · exact Or.inr (Or.inr ⟨heq.symm, hge⟩)
  · exact Or.inr (Or.inl hgt)

theorem slotLE_antisymm {a b : Slot} (hab : slotLE a b = true) (hba : slotLE b a = true) :
    a = b := by
  rw [slotLE_iff] at hab hba
  rcases hab with hname | ⟨hname, hamount⟩
  · rcases hba with hname' | ⟨hname', _⟩
    · exact absurd hname' (lt_asymm hname)
    · exact absurd hname' (ne_of_gt hname)
  · rcases hba with hname' | ⟨_, hamount'⟩
    · exact absurd hname (ne_of_gt hname')
    · exact Prod.ext hname (Amount.le_antisymm hamount hamount')

theorem slotSort_pairwise (slots : List Slot) :
    (slots.mergeSort slotLE).Pairwise fun a b => slotLE a b = true :=
  List.pairwise_mergeSort slotLE_trans slotLE_total slots

/-- There is one way only to put slots in order. -/
theorem eq_slotSort {arranged slots : List Slot} (hperm : arranged.Perm slots)
    (hsorted : arranged.Pairwise fun a b => slotLE a b = true) :
    arranged = slots.mergeSort slotLE := by
  have hsame : arranged.Perm (slots.mergeSort slotLE) :=
    hperm.trans (List.mergeSort_perm ..).symm
  exact hsame.eq_of_pairwise (fun a b _ _ => slotLE_antisymm) hsorted (slotSort_pairwise slots)

/-- Equal slots are hashed alike, whoever they are awarded to and in whatever order. -/
theorem rootMessage_perm {winners others : List Candidate}
    (h : (awardedSlots winners).Perm (awardedSlots others)) :
    rootMessage winners = rootMessage others := by
  have hsorted : (awardedSlots winners).mergeSort slotLE = (awardedSlots others).mergeSort slotLE :=
    eq_slotSort ((List.mergeSort_perm ..).trans h) (slotSort_pairwise _)
  rw [rootMessage, rootMessage, hsorted]

theorem slotRoot_perm {winners others : List Candidate}
    (h : (awardedSlots winners).Perm (awardedSlots others)) :
    slotRoot winners = slotRoot others := by
  rw [slotRoot, slotRoot, rootMessage_perm h]

end Outcome
end SlotAuction
