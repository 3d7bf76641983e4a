import Mathlib.Data.Rat.Floor
import Mathlib.Tactic.FieldSimp
import Mathlib.Tactic.Linarith
import Mathlib.Tactic.NormNum
import Mathlib.Tactic.Ring
import SlotAuction.Proofs.DecimalText

/-!
# Places — what becomes of the places after a point

Places are taken in as long as they fit.  Those that do not are off the number by half a unit of the last
place at most, or by less than a unit where an underscore cuts them off; and an amount that is not too
great has plenty of places.

* `Digit.fractional` — what digits after a point are worth;
* `Decimal.worth` — what a size and further places are worth;
* `Decimal.Plain.Taken`, `Decimal.Plain.takePlaces_taken` — what is taken in of any number of places;
* `Decimal.Plain.Taken.loss_le` — how little is lost.
-/

namespace SlotAuction

open scoped Arithmetic

/-! ## Digits after a point -/

namespace Digit

/-- What digits after a point are worth. -/
def fractional : List Digit → ℚ
  | [] => 0
  | d :: rest => (d.val + fractional rest) / 10

theorem fractional_nonneg (digits : List Digit) : 0 ≤ fractional digits := by
  induction digits with
  | nil => exact le_refl 0
  | cons d rest ih =>
      unfold fractional
      positivity

theorem fractional_lt_one (digits : List Digit) : fractional digits < 1 := by
  induction digits with
  | nil => exact one_pos
  | cons d rest ih =>
      have hd : (d.val : ℚ) ≤ 9 := by exact_mod_cast Nat.le_of_lt_succ d.isLt
      unfold fractional
      linarith

theorem append_lt (start : ℕ) (digits : List Digit) :
    append start digits < (start + 1) * 10 ^ digits.length := by
  induction digits generalizing start with
  | nil => simp [append]
  | cons d rest ih =>
      have hd := d.isLt
      calc append start (d :: rest) < (10 * start + d.val + 1) * 10 ^ rest.length := ih _
        _ ≤ ((start + 1) * 10) * 10 ^ rest.length := Nat.mul_le_mul_right _ (by omega)
        _ = (start + 1) * 10 ^ (rest.length + 1) := by rw [Nat.pow_succ', Nat.mul_assoc]

theorem append_div (start : ℕ) (digits : List Digit) :
    (append start digits : ℚ) / 10 ^ digits.length = start + fractional digits := by
  induction digits generalizing start with
  | nil => simp [append, fractional]
  | cons d rest ih =>
      have hlater := ih (10 * start + d.val)
      rw [append_cons, List.length_cons, pow_succ, ← div_div, hlater, fractional]
      push_cast
      ring

end Digit

/-! ## Places that are taken in -/

namespace Decimal

/-- What a size on the grid of `scale` places and further places are worth. -/
def worth (size scale : ℕ) (places : List Place) : ℚ :=
  (size + Digit.fractional (digitsOf places)) / 10 ^ scale

theorem worth_some (size scale : ℕ) (d : Digit) (rest : List Place) :
    worth size scale (some d :: rest) = worth (10 * size + d.val) (scale + 1) rest := by
  have hdigits : digitsOf (some d :: rest) = d :: digitsOf rest := rfl
  rw [worth, worth, hdigits, Digit.fractional, pow_succ]
  push_cast
  field_simp
  ring

theorem worth_nonneg (size scale : ℕ) (places : List Place) : 0 ≤ worth size scale places := by
  have hnonneg := Digit.fractional_nonneg (digitsOf places)
  unfold worth
  positivity

namespace Plain

/-- What becomes of a size on the grid of `scale` places and further places.  All of them are taken in, or
the first one that does not fit rounds them, or an underscore after the last place cuts them off. -/
inductive Taken (size scale : ℕ) (places : List Place) (size' scale' : ℕ) : Prop
  | all (h : (size' : ℚ) / 10 ^ scale' = worth size scale places)
  | rounded (hnear : |(size' : ℚ) / 10 ^ scale' - worth size scale places| ≤ 1 / 2 / 10 ^ scale')
      (hfull : scale' = maxScale ∨ sizeBound ≤ 10 * size' + 9)
      (hzero : size' = 0 → worth size scale places < 1 / 2 / 10 ^ scale')
  | cut (front later : List Place) (hlast : scale' = maxScale)
      (hbelow : (size' : ℚ) / 10 ^ scale' ≤ worth size scale places)
      (habove : worth size scale places < (size' + 1) / 10 ^ scale')
      (hsplit : places = front ++ none :: later) (hfront : scale + (digitsOf front).length = maxScale)

variable {size scale size' scale' : ℕ} {d : Digit} {rest : List Place}

theorem Taken.skip (h : Taken size scale rest size' scale') :
    Taken size scale (none :: rest) size' scale' := by
  have hworth : worth size scale (none :: rest) = worth size scale rest := rfl
  cases h with
  | all h => exact .all (hworth ▸ h)
  | rounded hnear hfull hzero => exact .rounded (hworth ▸ hnear) hfull (hworth ▸ hzero)
  | cut front later hlast hbelow habove hsplit hfront =>
      refine .cut (none :: front) later hlast (hworth ▸ hbelow) (hworth ▸ habove) ?_ hfront
      rw [hsplit, List.cons_append]

theorem Taken.keep (h : Taken (10 * size + d.val) (scale + 1) rest size' scale') :
    Taken size scale (some d :: rest) size' scale' := by
  have hworth := worth_some size scale d rest
  cases h with
  | all h => exact .all (hworth ▸ h)
  | rounded hnear hfull hzero => exact .rounded (hworth ▸ hnear) hfull (hworth ▸ hzero)
  | cut front later hlast hbelow habove hsplit hfront =>
      refine .cut (some d :: front) later hlast (hworth ▸ hbelow) (hworth ▸ habove) ?_ ?_
      · rw [hsplit, List.cons_append]
      · have hdigits : digitsOf (some d :: front) = d :: digitsOf front := rfl
        rw [hdigits, List.length_cons]
        omega

/-- A first digit below five that does not fit is dropped, and with it what follows. -/
theorem taken_of_low (hfull : ¬ (scale < maxScale ∧ 10 * size + d.val < sizeBound))
    (hscale : scale ≤ maxScale) (hlow : d.val < 5) : Taken size scale (some d :: rest) size scale := by
  have hd : (d.val : ℚ) ≤ 4 := by exact_mod_cast Nat.le_of_lt_succ hlow
  have hnonneg := Digit.fractional_nonneg (digitsOf rest)
  have hlt := Digit.fractional_lt_one (digitsOf rest)
  have hunit : (0 : ℚ) < 10 ^ scale := by positivity
  have hworth : worth size scale (some d :: rest) =
      size / 10 ^ scale + (d.val + Digit.fractional (digitsOf rest)) / 10 / 10 ^ scale :=
    add_div _ _ _
  have hsmall : (d.val + Digit.fractional (digitsOf rest)) / 10 / 10 ^ scale < 1 / 2 / 10 ^ scale :=
    div_lt_div_of_pos_right (by linarith) hunit
  have hpos : 0 ≤ (d.val + Digit.fractional (digitsOf rest)) / 10 / 10 ^ scale := by positivity
  refine .rounded ?_ ?_ ?_
  · rw [hworth, abs_sub_comm, add_sub_cancel_left, abs_of_nonneg hpos]
    exact hsmall.le
  · omega
  · intro hzero
    rw [hworth, hzero, Nat.cast_zero, zero_div, zero_add]
    exact hsmall

/-- A first digit of five or more that does not fit counts as one unit more. -/
theorem taken_of_high (hfull : ¬ (scale < maxScale ∧ 10 * size + d.val < sizeBound))
    (hscale : scale ≤ maxScale) (hhigh : ¬ d.val < 5) :
    Taken size scale (some d :: rest) (size + 1) scale := by
  have hd : (5 : ℚ) ≤ d.val := by exact_mod_cast Nat.le_of_not_lt hhigh
  have hd' : (d.val : ℚ) ≤ 9 := by exact_mod_cast Nat.le_of_lt_succ d.isLt
  have hnonneg := Digit.fractional_nonneg (digitsOf rest)
  have hlt := Digit.fractional_lt_one (digitsOf rest)
  have hunit : (0 : ℚ) < 10 ^ scale := by positivity
  refine .rounded ?_ ?_ fun hzero => absurd hzero (Nat.succ_ne_zero size)
  · have hgap : ((size + 1 : ℕ) : ℚ) / 10 ^ scale - worth size scale (some d :: rest) =
        (1 - (d.val + Digit.fractional (digitsOf rest)) / 10) / 10 ^ scale := by
      rw [worth, ← sub_div, show digitsOf (some d :: rest) = d :: digitsOf rest from rfl,
        Digit.fractional]
      push_cast
      ring
    rw [hgap, abs_div, abs_of_pos hunit]
    refine div_le_div_of_nonneg_right ?_ hunit.le
    rw [abs_of_nonneg (by linarith)]
    linarith
  · omega

/-- Where the unit more does not fit, the size has a place fewer. -/
theorem taken_of_carry (hfits : size < sizeBound) (hhigh : ¬ d.val < 5)
    (hcarry : ¬ size + 1 < sizeBound) (hplaces : scale ≠ 0) :
    Taken size scale (some d :: rest) ((size + 1 + 4) / 10) (scale - 1) := by
  obtain ⟨coarse, rfl⟩ := Nat.exists_eq_succ_of_ne_zero hplaces
  have hsize : size = 79228162514264337593543950335 := by
    unfold sizeBound at hfits hcarry
    omega
  have hd : (5 : ℚ) ≤ d.val := by exact_mod_cast Nat.le_of_not_lt hhigh
  have hd' : (d.val : ℚ) ≤ 9 := by exact_mod_cast Nat.le_of_lt_succ d.isLt
  have hnonneg := Digit.fractional_nonneg (digitsOf rest)
  have hlt := Digit.fractional_lt_one (digitsOf rest)
  have hunit : (0 : ℚ) < 10 ^ coarse := by positivity
  subst hsize
  refine .rounded ?_ (Or.inr (by decide)) (fun hzero => absurd hzero (by decide))
  have hgap : (((79228162514264337593543950335 + 1 + 4) / 10 : ℕ) : ℚ) / 10 ^ coarse -
      worth 79228162514264337593543950335 (coarse + 1) (some d :: rest) =
        (5 - (d.val + Digit.fractional (digitsOf rest)) / 10) / 10 / 10 ^ coarse := by
    rw [worth, show digitsOf (some d :: rest) = d :: digitsOf rest from rfl, Digit.fractional,
      pow_succ]
    field_simp
    norm_num
    ring
  rw [Nat.succ_sub_one, hgap, abs_div, abs_of_pos hunit]
  refine div_le_div_of_nonneg_right ?_ hunit.le
  rw [abs_of_nonneg (by linarith)]
  linarith

/-- Whatever digits an underscore cuts off, they are worth less than a unit of the last place. -/
theorem taken_of_cut (hlast : scale = maxScale) : Taken size scale (none :: rest) size scale := by
  have hunit : (0 : ℚ) < 10 ^ scale := by positivity
  have hnonneg := Digit.fractional_nonneg (digitsOf rest)
  have hlt := Digit.fractional_lt_one (digitsOf rest)
  have hworth : worth size scale (none :: rest) =
      (size + Digit.fractional (digitsOf rest)) / 10 ^ scale := rfl
  refine .cut [] rest hlast ?_ ?_ rfl hlast
  · rw [hworth]
    exact div_le_div_of_nonneg_right (le_add_of_nonneg_right hnonneg) hunit.le
  · rw [hworth]
    exact div_lt_div_of_pos_right (add_lt_add_right hlt _) hunit

/-- The run over any places, in one of the three ways. -/
theorem takePlaces_taken {places : List Place} (hscale : scale ≤ maxScale) (hfits : size < sizeBound)
    (h : takePlaces places size scale = some (size', scale')) :
    Taken size scale places size' scale' := by
  induction places generalizing size scale with
  | nil =>
      cases h
      exact .all (by simp [worth, digitsOf, Digit.fractional])
  | cons p rest ih =>
      cases p with
      | none =>
          rw [takePlaces] at h
          by_cases hlast : scale = maxScale ∧ size / 10 < shortBound
          · rw [if_pos hlast] at h
            cases h
            exact taken_of_cut hlast.1
          · rw [if_neg hlast] at h
            exact (ih hscale hfits h).skip
      | some d =>
          rw [takePlaces] at h
          by_cases hmore : scale < maxScale ∧ 10 * size + d.val < sizeBound
          · rw [if_pos hmore] at h
            exact (ih hmore.1 hmore.2 h).keep
          · rw [if_neg hmore] at h
            by_cases hlow : d.val < 5
            · rw [if_pos hlow] at h
              cases h
              exact taken_of_low hmore hscale hlow
            · rw [if_neg hlow] at h
              by_cases hroom : size + 1 < sizeBound
              · rw [if_pos hroom] at h
                cases h
                exact taken_of_high hmore hscale hlow
              · rw [if_neg hroom] at h
                by_cases hwhole : scale = 0
                · rw [if_pos hwhole] at h
                  cases h
                · rw [if_neg hwhole] at h
                  cases h
                  exact taken_of_carry hfits hlow hroom hwhole

/-! ## Loss of places -/

/-- A decimal that is full, and not too great for an amount, has many places. -/
theorem many_places (hfull : sizeBound ≤ 10 * size + 9)
    (hcount : roundHalfEven (size * Amount.perUnit) (10 ^ scale) ≤ Word.limit) : 16 ≤ scale := by
  by_contra hfew
  have hpow : 10 ^ scale ≤ 10 ^ 15 := Nat.pow_le_pow_right (by decide) (by omega)
  have hnear := (roundHalfEven_near (size * Amount.perUnit) (10 ^ scale)
    (Nat.pow_pos (by decide))).1
  have hprod : roundHalfEven (size * Amount.perUnit) (10 ^ scale) * 10 ^ scale ≤
      Word.limit * 10 ^ 15 := Nat.mul_le_mul hcount hpow
  have hunit : Amount.perUnit = 100000000 := rfl
  have hlimit : Word.limit = 18446744073709551615 := rfl
  rw [hunit] at hnear hprod
  unfold sizeBound at hfull
  omega

/-- What is lost while places are taken in moves no amount by more than `10 ^ -8` of its units. -/
theorem Taken.loss_le {places : List Place} (h : Taken size scale places size' scale')
    (hcount : roundHalfEven (size' * Amount.perUnit) (10 ^ scale') ≤ Word.limit) :
    |(size' : ℚ) / 10 ^ scale' - worth size scale places| * 10 ^ 8 ≤ 1 / 10 ^ 8 := by
  cases h with
  | all h =>
      rw [h, sub_self, abs_zero, zero_mul]
      positivity
  | rounded hnear hfull _ =>
      have hplaces : 16 ≤ scale' := by
        rcases hfull with hlast | hfull
        · rw [hlast]
          decide
        · exact many_places hfull hcount
      have hpow : (10 : ℚ) ^ 16 ≤ 10 ^ scale' := pow_le_pow_right₀ (by norm_num) hplaces
      have hunit : (1 : ℚ) / 2 / 10 ^ scale' ≤ 1 / 2 / 10 ^ 16 :=
        div_le_div_of_nonneg_left (by norm_num) (by norm_num) hpow
      calc |(size' : ℚ) / 10 ^ scale' - worth size scale places| * 10 ^ 8
          ≤ 1 / 2 / 10 ^ 16 * 10 ^ 8 :=
            mul_le_mul_of_nonneg_right (hnear.trans hunit) (by norm_num)
        _ ≤ 1 / 10 ^ 8 := by norm_num
  | cut _ _ hlast hbelow habove _ _ =>
      have hgap : |(size' : ℚ) / 10 ^ scale' - worth size scale places| ≤ 1 / 10 ^ scale' := by
        rw [add_div] at habove
        rw [abs_sub_comm, abs_of_nonneg (sub_nonneg.mpr hbelow)]
        linarith
      calc |(size' : ℚ) / 10 ^ scale' - worth size scale places| * 10 ^ 8
          ≤ 1 / 10 ^ scale' * 10 ^ 8 := mul_le_mul_of_nonneg_right hgap (by norm_num)
        _ ≤ 1 / 10 ^ 8 := by rw [hlast]; norm_num

end Plain

end Decimal
end SlotAuction
