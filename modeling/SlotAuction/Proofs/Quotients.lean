import Mathlib.Tactic.Linarith
import SlotAuction.Proofs.Ranking

/-!
# Quotients — rounded values per slot rank like the exact ones

The value of a slot is a quotient, taken to the finest grid on which it fits.  A greater quotient may
need a coarser grid, so two values may be rounded on grids of their own; the greater one still never
comes out as the smaller.  Where the quotients are far enough apart for the coarser grid, they do not
come out alike either.

* `Decimal.Rounded` — what a quotient is taken to: the grid, and the nearest size on it;
* `Decimal.Rounded.ticks_le` — rounding keeps the order of quotients, across grids;
* `Decimal.Rounded.ticks_lt_of_gap` — and keeps them apart, if the gap is more than a unit of the
  coarser grid;
* `Amount.shares_lt_of_coarse` — what the grid tells about the number of slots;
* `Amount.perSlot_ranks_like_quotients` — so values per slot rank like the exact quotients.
-/

namespace SlotAuction
namespace Decimal

variable {num den num' den' : Nat}

/-! ## Rounding keeps the order -/

theorem roundHalfEven_le (hden : 0 < den) (hden' : 0 < den') (h : num * den' ≤ num' * den) :
    roundHalfEven num den ≤ roundHalfEven num' den' := by
  rcases Nat.eq_or_lt_of_le h with heq | hlt
  · -- Equal quotients are rounded alike, ties included.
    refine le_of_eq ?_
    rw [← roundHalfEven_mul_mul num den hden', heq, Nat.mul_comm den den',
      roundHalfEven_mul_mul num' den' hden]
  · obtain ⟨_, hleft⟩ := roundHalfEven_near num den hden
    obtain ⟨hright, _⟩ := roundHalfEven_near num' den' hden'
    refine Nat.le_of_lt_succ ?_
    refine Nat.lt_of_mul_lt_mul_right (a := den * den') ?_
    linarith [Nat.mul_le_mul_right den' hleft, Nat.mul_le_mul_right den hright]

theorem roundHalfEven_le_self (hden : 0 < den) : roundHalfEven num den ≤ num := by
  have hwhole : roundHalfEven num 1 = num := by simpa using roundHalfEven_mul num 1 one_pos
  calc roundHalfEven num den
      ≤ roundHalfEven num 1 := roundHalfEven_le hden one_pos (Nat.mul_le_mul_left num hden)
    _ = num := hwhole

/-- A quotient that does not fit on a grid has a tenth of the bound on the next coarser one: the last
digit of the bound is a six, and so rounded up. -/
theorem sizeBound_le_mul_ten (hden : 0 < den) (h : sizeBound ≤ roundHalfEven (num * 10) den) :
    sizeBound ≤ roundHalfEven num den * 10 := by
  obtain ⟨_, hfine⟩ := roundHalfEven_near (num * 10) den hden
  obtain ⟨hcoarse, _⟩ := roundHalfEven_near num den hden
  have hscaled : 2 * sizeBound * den ≤ (roundHalfEven num den * 20 + 11) * den := by
    linarith [Nat.mul_le_mul_right den h]
  have hsizes := Nat.le_of_mul_le_mul_right hscaled hden
  unfold sizeBound at hsizes ⊢
  omega

/-! ## Quotients on their grids -/

/-- `d` is `num / den` on the finest grid on which it fits, a tie taken to the even size. -/
structure Rounded (num den : Nat) (d : Decimal) : Prop where
  negative : d.negative = false
  size : d.size = roundHalfEven (num * 10 ^ d.scale) den
  finest : ∀ scale, d.scale < scale → scale ≤ maxScale →
    sizeBound ≤ roundHalfEven (num * 10 ^ scale) den

theorem sizeBound_le_of_ofParts? {negative : Bool} {size scale : Nat} (hscale : scale ≤ maxScale)
    (h : ofParts? negative size scale = none) : sizeBound ≤ size := by
  unfold ofParts? at h
  split at h
  · cases h
  · rename_i hout
    exact Nat.le_of_not_lt fun hfits => hout ⟨hfits, hscale⟩

/-- Every quotient below the bound is taken to some grid. -/
theorem exists_ofQuotientFrom? (h : roundHalfEven num den < sizeBound) {scale : Nat}
    (hscale : scale ≤ maxScale) :
    ∃ d, ofQuotientFrom? num den scale = some d ∧ d.scale ≤ scale ∧ d.negative = false ∧
      d.size = roundHalfEven (num * 10 ^ d.scale) den ∧
      ∀ finer, d.scale < finer → finer ≤ scale → sizeBound ≤ roundHalfEven (num * 10 ^ finer) den := by
  induction scale with
  | zero =>
      cases hparts : ofParts? false (roundHalfEven num den) 0 with
      | none => exact absurd (sizeBound_le_of_ofParts? hscale hparts) (Nat.not_le_of_lt h)
      | some d =>
          obtain ⟨hnegative, hsize, hzero⟩ := ofParts?_eq_some_iff.mp hparts
          refine ⟨d, hparts, hzero.le, hnegative, ?_, ?_⟩
          · rw [hsize, hzero, pow_zero, mul_one]
          · intro finer hlt hle
            omega
  | succ scale ih =>
      unfold ofQuotientFrom?
      cases hparts : ofParts? false (roundHalfEven (num * 10 ^ (scale + 1)) den) (scale + 1) with
      | some d =>
          obtain ⟨hnegative, hsize, hgrid⟩ := ofParts?_eq_some_iff.mp hparts
          refine ⟨d, rfl, hgrid.le, hnegative, ?_, ?_⟩
          · rw [hsize, hgrid]
          · intro finer hlt hle
            omega
      | none =>
          obtain ⟨d, hd, hgrid, hnegative, hsize, hfinest⟩ := ih (Nat.le_of_succ_le hscale)
          refine ⟨d, hd, Nat.le_succ_of_le hgrid, hnegative, hsize, ?_⟩
          intro finer hlt hle
          rcases Nat.eq_or_lt_of_le hle with rfl | hcoarser
          · exact sizeBound_le_of_ofParts? hscale hparts
          · exact hfinest finer hlt (Nat.le_of_lt_succ hcoarser)

theorem exists_ofQuotient? (h : roundHalfEven num den < sizeBound) :
    ∃ d, ofQuotient? num den = some d ∧ Rounded num den d := by
  obtain ⟨d, hd, _, hnegative, hsize, hfinest⟩ := exists_ofQuotientFrom? h le_rfl
  exact ⟨d, hd, hnegative, hsize, hfinest⟩

namespace Rounded

variable {d d' : Decimal}

theorem ticks_eq (h : Rounded num den d) :
    d.ticks = ((d.size * 10 ^ (maxScale - d.scale) : Nat) : Int) := by
  rw [ticks, coefficient, h.negative]
  push_cast
  rfl

/-- A greater quotient is on no finer grid. -/
theorem scale_le (h : Rounded num den d) (h' : Rounded num' den' d') (hden : 0 < den)
    (hden' : 0 < den') (hle : num * den' ≤ num' * den) : d'.scale ≤ d.scale := by
  -- Where the greater one fits, the lesser one fits too.
  by_contra hfiner
  have hbound := h.finest d'.scale (Nat.lt_of_not_le hfiner) d'.scale_le
  have hmono : roundHalfEven (num * 10 ^ d'.scale) den ≤ d'.size := by
    rw [h'.size]
    refine roundHalfEven_le hden hden' ?_
    rw [Nat.mul_right_comm, Nat.mul_right_comm num']
    exact Nat.mul_le_mul_right _ hle
  exact absurd d'.size_lt (Nat.not_lt.mpr (hbound.trans hmono))

/-- On a grid that is not the finest one, the size is at least a tenth of the bound. -/
theorem sizeBound_le (h : Rounded num den d) (hden : 0 < den) (hcoarse : d.scale < maxScale) :
    sizeBound ≤ d.size * 10 := by
  rw [h.size]
  refine sizeBound_le_mul_ten hden ?_
  rw [Nat.mul_assoc, ← Nat.pow_succ]
  exact h.finest (d.scale + 1) (Nat.lt_succ_self _) hcoarse

/-- Rounding keeps the order of quotients, whatever the grids. -/
theorem ticks_le (h : Rounded num den d) (h' : Rounded num' den' d') (hden : 0 < den)
    (hden' : 0 < den') (hle : num * den' ≤ num' * den) : d.ticks ≤ d'.ticks := by
  rw [h.ticks_eq, h'.ticks_eq, Int.ofNat_le]
  rcases Nat.eq_or_lt_of_le (h.scale_le h' hden hden' hle) with hsame | hcoarser
  · rw [h.size, h'.size, hsame]
    refine Nat.mul_le_mul_right _ (roundHalfEven_le hden hden' ?_)
    rw [Nat.mul_right_comm, Nat.mul_right_comm num']
    exact Nat.mul_le_mul_right _ hle
  · -- The greater one did not fit on the next finer grid, and everything on finer grids is below that.
    have hbound := h'.sizeBound_le hden' (hcoarser.trans_le d.scale_le)
    have hgrids : maxScale - d.scale + 1 ≤ maxScale - d'.scale := by
      have := d.scale_le
      omega
    calc d.size * 10 ^ (maxScale - d.scale)
        ≤ d'.size * 10 * 10 ^ (maxScale - d.scale) :=
          Nat.mul_le_mul_right _ (d.size_lt.le.trans hbound)
      _ = d'.size * 10 ^ (maxScale - d.scale + 1) := by rw [Nat.pow_succ']; ring
      _ ≤ d'.size * 10 ^ (maxScale - d'.scale) :=
          Nat.mul_le_mul_left _ (Nat.pow_le_pow_right (by decide) hgrids)

/-- Quotients further apart than a unit of the coarser grid are kept apart. -/
theorem ticks_lt_of_gap (h : Rounded num den d) (h' : Rounded num' den' d') (hden : 0 < den)
    (hden' : 0 < den')
    (hgap : num * den' * 10 ^ d'.scale + den * den' < num' * den * 10 ^ d'.scale) :
    d.ticks < d'.ticks := by
  have hle : num * den' ≤ num' * den := by
    refine Nat.le_of_lt (Nat.lt_of_mul_lt_mul_right (a := 10 ^ d'.scale) ?_)
    exact (Nat.le_add_right _ _).trans_lt hgap
  have hgrids : 10 ^ (maxScale - d.scale) ≤ 10 ^ (maxScale - d'.scale) := by
    have := h.scale_le h' hden hden' hle
    exact Nat.pow_le_pow_right (by decide) (by omega)
  have hone : 10 ^ d.scale * 10 ^ (maxScale - d.scale) = 10 ^ maxScale := by
    rw [← Nat.pow_add, Nat.add_sub_cancel' d.scale_le]
  have hother : 10 ^ d'.scale * 10 ^ (maxScale - d'.scale) = 10 ^ maxScale := by
    rw [← Nat.pow_add, Nat.add_sub_cancel' d'.scale_le]
  obtain ⟨_, hnear⟩ := roundHalfEven_near (num * 10 ^ d.scale) den hden
  obtain ⟨hnear', _⟩ := roundHalfEven_near (num' * 10 ^ d'.scale) den' hden'
  rw [← h.size] at hnear
  rw [← h'.size] at hnear'
  rw [h.ticks_eq, h'.ticks_eq, Int.ofNat_lt]
  -- `unit` and `unit'` are the units of the grids in ticks, and all is brought to one denominator.
  generalize 10 ^ (maxScale - d.scale) = unit at *
  generalize 10 ^ (maxScale - d'.scale) = unit' at *
  -- Either value is off its quotient by half a unit of its grid, so together by no more than `unit'`.
  have hlow : 2 * (d.size * unit) * (den * den') ≤
      2 * (num * den') * 10 ^ maxScale + den * den' * unit := by
    rw [← hone]
    linarith [Nat.mul_le_mul_right (unit * den') hnear]
  have hhigh : 2 * (num' * den) * 10 ^ maxScale ≤
      2 * (d'.size * unit') * (den * den') + den * den' * unit' := by
    rw [← hother]
    linarith [Nat.mul_le_mul_right (unit' * den) hnear']
  have hapart : num * den' * 10 ^ maxScale + den * den' * unit' < num' * den * 10 ^ maxScale := by
    rw [← hother]
    have hunit : 0 < unit' := Nat.pos_of_ne_zero fun hzero => by simp [hzero] at hother
    linarith [Nat.mul_lt_mul_of_pos_right hgap hunit]
  have herror := Nat.mul_le_mul_left (den * den') hgrids
  refine Nat.lt_of_mul_lt_mul_right (a := 2 * (den * den')) ?_
  linarith

/-- Every grid but the finest is so coarse because the quotient is large, for which the denominator must
be small. -/
theorem den_le_of_coarse (h : Rounded num den d) (hden : 0 < den) (hcoarse : d.scale < maxScale) :
    (2 * sizeBound - 1) * den ≤ 20 * (num * 10 ^ d.scale) := by
  have hten : num * 10 ^ (d.scale + 1) = 10 * (num * 10 ^ d.scale) := by
    rw [Nat.pow_succ]
    ring
  have hbound := h.finest (d.scale + 1) (Nat.lt_succ_self _) hcoarse
  rw [hten] at hbound
  obtain ⟨_, hnear⟩ := roundHalfEven_near (10 * (num * 10 ^ d.scale)) den hden
  have hmul := Nat.mul_le_mul_right den hbound
  have hsplit : (2 * sizeBound - 1) * den + den = 2 * (sizeBound * den) := by
    rw [← Nat.succ_mul, ← Nat.mul_assoc]
    rfl
  linarith

/-- A quotient that some decimal states exactly is not rounded. -/
theorem ticks_eq_of_exact {e : Decimal} (h : Rounded num den d) (hden : 0 < den)
    (hsign : e.negative = false) (hexact : num * 10 ^ e.scale = e.size * den) :
    d.ticks = e.ticks := by
  have hgrid : e.scale ≤ d.scale := by
    by_contra hfiner
    have hbound := h.finest e.scale (Nat.lt_of_not_le hfiner) e.scale_le
    rw [hexact, roundHalfEven_mul _ _ hden] at hbound
    exact absurd e.size_lt (Nat.not_lt.mpr hbound)
  obtain ⟨k, hk⟩ := Nat.exists_eq_add_of_le hgrid
  have hsize : d.size = e.size * 10 ^ k := by
    rw [h.size, hk, Nat.pow_add, ← Nat.mul_assoc, hexact, Nat.mul_right_comm,
      roundHalfEven_mul _ _ hden]
  have hscales : maxScale - e.scale = k + (maxScale - d.scale) := by
    have := d.scale_le
    omega
  rw [h.ticks_eq, hsize, ticks, coefficient, hsign, hscales, pow_add]
  push_cast
  ring

end Rounded
end Decimal

/-! ## Values per slot -/

namespace Amount

open Decimal (Rounded sizeBound maxScale)

/-- The number of slots that an amount is divided by. -/
def shares (slots : UInt64) : Nat :=
  max slots.toNat 1

theorem shares_pos (slots : UInt64) : 0 < shares slots :=
  lt_max_of_lt_right one_pos

theorem den_pos (slots : UInt64) : 0 < perUnit * shares slots :=
  Nat.mul_pos (by decide) (shares_pos slots)

/-- A value per slot is the exact quotient, rounded on its grid. -/
theorem exists_rounded (a : Amount) (slots : UInt64) :
    ∃ d, Rounded a.raw.toNat (perUnit * shares slots) d ∧ d.ticks = (a.perSlot slots).ticks := by
  have hfits : Decimal.roundHalfEven a.raw.toNat (perUnit * shares slots) < sizeBound := by
    have hword := a.raw.toNat_lt
    have hle : Decimal.roundHalfEven a.raw.toNat (perUnit * shares slots) ≤ a.raw.toNat :=
      Decimal.roundHalfEven_le_self (den_pos slots)
    unfold sizeBound
    omega
  obtain ⟨d, hd, hrounded⟩ := Decimal.exists_ofQuotient? hfits
  refine ⟨d, hrounded, ?_⟩
  unfold perSlot
  by_cases hone : slots ≤ 1
  · have hshares : shares slots = 1 := by
      have := UInt64.le_iff_toNat_le.mp hone
      exact Nat.max_eq_right this
    rw [if_pos hone]
    refine hrounded.ticks_eq_of_exact (den_pos slots) rfl ?_
    rw [hshares, Nat.mul_one]
    rfl
  · rw [if_neg hone]
    have hshares : shares slots = slots.toNat := by
      have hmany : ¬ slots.toNat ≤ 1 := fun h => hone (UInt64.le_iff_toNat_le.mpr h)
      exact Nat.max_eq_left (Nat.le_of_not_le hmany)
    rw [hshares] at hd
    rw [hd, Option.getD_some]

variable {a b : Amount} {n m : UInt64}

/-- A value on a coarser grid than the finest one is shared by few slots, for an amount is a word. -/
theorem shares_lt_of_coarse {d : Decimal} (h : Rounded b.raw.toNat (perUnit * shares m) d)
    (hcoarse : d.scale < maxScale) : 10 ^ 16 * shares m < 10 ^ d.scale := by
  have hden := h.den_le_of_coarse (den_pos m) hcoarse
  have hword : b.raw.toNat * 10 ^ d.scale ≤ 2 ^ 64 * 10 ^ d.scale :=
    Nat.mul_le_mul_right _ b.raw.toNat_lt.le
  have hpos := shares_pos m
  unfold sizeBound perUnit at hden
  omega

/-- Counts of slots for which a grid keeps any two different quotients apart. -/
def Resolved (n m : UInt64) : Prop :=
  n = m ∨ n.toNat ≤ 10 ^ 8 ∧ m.toNat ≤ 10 ^ 8

instance (n m : UInt64) : Decidable (Resolved n m) :=
  inferInstanceAs (Decidable (_ ∨ _))

theorem Resolved.symm (h : Resolved n m) : Resolved m n := by
  rcases h with heq | hfew
  · exact Or.inl heq.symm
  · exact Or.inr hfew.symm

/-- Two different quotients are further apart than a unit of the grid of the greater one. -/
theorem Resolved.gap (h : Resolved n m) {grid : Nat}
    (hgrid : 10 ^ 28 ≤ grid ∨ 10 ^ 16 * shares m < grid)
    (hlt : a.raw.toNat * shares m < b.raw.toNat * shares n) :
    a.raw.toNat * shares m * grid + perUnit * (shares n * shares m) <
      b.raw.toNat * shares n * grid := by
  unfold perUnit
  rcases h with rfl | ⟨hn, hm⟩
  · -- Equal counts: the amounts differ, and by that much the products do.
    have hword : shares n ≤ 2 ^ 64 := max_le n.toNat_lt.le (by decide)
    have hunits : 10 ^ 8 * shares n < grid := by omega
    have hraw : a.raw.toNat + 1 ≤ b.raw.toNat := Nat.lt_of_mul_lt_mul_right hlt
    have hmore : (a.raw.toNat + 1) * shares n * grid ≤ b.raw.toNat * shares n * grid :=
      Nat.mul_le_mul_right _ (Nat.mul_le_mul_right _ hraw)
    have hsmall := Nat.mul_lt_mul_of_pos_left hunits (shares_pos n)
    linarith
  · have hfew : shares n ≤ 10 ^ 8 := max_le hn (by decide)
    have hfew' : shares m ≤ 10 ^ 8 := max_le hm (by decide)
    have hproduct : shares n * shares m ≤ 10 ^ 8 * shares m := Nat.mul_le_mul_right _ hfew
    have hmore : (a.raw.toNat * shares m + 1) * grid ≤ b.raw.toNat * shares n * grid :=
      Nat.mul_le_mul_right _ hlt
    rw [Nat.succ_mul] at hmore
    omega

theorem ticks_perSlot_le (hle : a.raw.toNat * shares m ≤ b.raw.toNat * shares n) :
    (a.perSlot n).ticks ≤ (b.perSlot m).ticks := by
  obtain ⟨d, hd, hticks⟩ := a.exists_rounded n
  obtain ⟨d', hd', hticks'⟩ := b.exists_rounded m
  rw [← hticks, ← hticks']
  refine hd.ticks_le hd' (den_pos n) (den_pos m) ?_
  rw [Nat.mul_left_comm, Nat.mul_left_comm b.raw.toNat]
  exact Nat.mul_le_mul_left _ hle

theorem ticks_perSlot_lt (hresolved : Resolved n m)
    (hlt : a.raw.toNat * shares m < b.raw.toNat * shares n) :
    (a.perSlot n).ticks < (b.perSlot m).ticks := by
  obtain ⟨d, hd, hticks⟩ := a.exists_rounded n
  obtain ⟨d', hd', hticks'⟩ := b.exists_rounded m
  rw [← hticks, ← hticks']
  refine hd.ticks_lt_of_gap hd' (den_pos n) (den_pos m) ?_
  have hgrid : 10 ^ 28 ≤ 10 ^ d'.scale ∨ 10 ^ 16 * shares m < 10 ^ d'.scale := by
    rcases Nat.eq_or_lt_of_le d'.scale_le with hfinest | hcoarse
    · left
      rw [hfinest]
    · right
      exact shares_lt_of_coarse hd' hcoarse
  have hgap := Nat.mul_lt_mul_of_pos_left (hresolved.gap hgrid hlt) (show 0 < perUnit by decide)
  linarith

/-- An amount per slot is the exact quotient taken to a grid, and quotients of different size may come to
different grids; but no value comes out greater than that of a greater quotient.  For equal counts of
slots, and for any counts up to a hundred million, values compare just like the quotients. -/
theorem perSlot_ranks_like_quotients (a b : Amount) (n m : UInt64) :
    (a.raw.toNat * shares m ≤ b.raw.toNat * shares n →
      (compare (a.perSlot n) (b.perSlot m)).isLE = true) ∧
    (Resolved n m → compare (a.perSlot n) (b.perSlot m) =
      compare (a.raw.toNat * shares m) (b.raw.toNat * shares n)) := by
  refine ⟨fun hle => ?_, fun hresolved => ?_⟩
  · rw [Decimal.compare_eq_ticks, Int.isLE_compare]
    exact ticks_perSlot_le hle
  · rw [Decimal.compare_eq_ticks]
    rcases Nat.lt_trichotomy (a.raw.toNat * shares m) (b.raw.toNat * shares n) with hlt | heq | hgt
    · rw [Nat.compare_eq_lt.mpr hlt, Int.compare_eq_lt]
      exact ticks_perSlot_lt hresolved hlt
    · rw [Nat.compare_eq_eq.mpr heq, Int.compare_eq_eq]
      exact le_antisymm (ticks_perSlot_le heq.le) (ticks_perSlot_le heq.ge)
    · rw [Nat.compare_eq_gt.mpr hgt, Int.compare_eq_gt]
      exact ticks_perSlot_lt hresolved.symm hgt

/-- A third of a unit for each of three slots is more than what one slot gets for less than that. -/
theorem perSlot_ranks_like_quotients_of_third :
    ((33333333 : UInt64).toNat * shares 3 ≤ (100000000 : UInt64).toNat * shares 1 ∧
        (compare (perSlot ⟨33333333⟩ 1) (perSlot ⟨100000000⟩ 3)).isLE = true) ∧
      Resolved 1 3 ∧ compare (perSlot ⟨33333333⟩ 1) (perSlot ⟨100000000⟩ 3) = .lt := by
  have hle : (33333333 : UInt64).toNat * shares 3 ≤ (100000000 : UInt64).toNat * shares 1 := by
    decide
  have hresolved : Resolved 1 3 := by decide
  obtain ⟨hkeeps, hfaithful⟩ := perSlot_ranks_like_quotients ⟨33333333⟩ ⟨100000000⟩ 1 3
  refine ⟨⟨hle, hkeeps hle⟩, hresolved, ?_⟩
  rw [hfaithful hresolved]
  decide

/-- Counts that differ and are large do not keep quotients apart: the amounts here are one, and the counts
of slots are the greatest word and the one before. -/
example : compare (perSlot ⟨1⟩ 18446744073709551615) (perSlot ⟨1⟩ 18446744073709551614) = .eq := by
  cbv

end Amount
end SlotAuction
