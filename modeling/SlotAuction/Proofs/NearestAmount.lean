import SlotAuction.Proofs.Numeral
import SlotAuction.Proofs.Places

/-!
# NearestAmount — an amount that is read is nearest to what was written

A numeral is rounded twice, when its places are taken in and when the decimal is counted in
hundred-millionths.  With no more than 28 digits the first step is exact; with more of them it loses too
little to matter.

* `nearestEven` — a rational number to the nearest integer, a tie to the even one;
* `Amount.parse?_numeral` — both steps for a numeral;
* `Amount.numerals_read_as_nearest` — the amount that is read, and how far from the numeral it is.
-/

namespace SlotAuction

open scoped Arithmetic

/-! ## Rounding -/

/-- The nearest integer, of two the even one. -/
def nearestEven (q : ℚ) : ℤ :=
  if Int.fract q < 1 / 2 then ⌊q⌋
  else if 1 / 2 < Int.fract q then ⌊q⌋ + 1
  else if Even ⌊q⌋ then ⌊q⌋ else ⌊q⌋ + 1

theorem nearestEven_natCast_div (num den : ℕ) (pos : 0 < den) :
    nearestEven (num / den) = Decimal.roundHalfEven num den := by
  have hden : (0 : ℚ) < den := by exact_mod_cast pos
  have hfloor : ⌊(num / den : ℚ)⌋ = ((num / den : ℕ) : ℤ) := by
    rw [Rat.floor_natCast_div_natCast]
    exact (Int.natCast_ediv num den).symm
  have hfract : Int.fract (num / den : ℚ) = (num % den : ℕ) / den := by
    have hsplit : (num : ℚ) = den * (num / den : ℕ) + (num % den : ℕ) := by
      exact_mod_cast (Nat.div_add_mod num den).symm
    rw [Int.fract, hfloor, Int.cast_natCast, eq_div_iff hden.ne', sub_mul,
      div_mul_cancel₀ _ hden.ne']
    linarith
  have hbelow : ((num % den : ℕ) / den : ℚ) < 1 / 2 ↔ 2 * (num % den) < den := by
    rw [div_lt_div_iff₀ hden two_pos, one_mul]
    norm_cast
    omega
  have habove : (1 / 2 : ℚ) < (num % den : ℕ) / den ↔ den < 2 * (num % den) := by
    rw [div_lt_div_iff₀ two_pos hden, one_mul]
    norm_cast
    omega
  unfold nearestEven Decimal.roundHalfEven
  dsimp only
  rw [hfract, hfloor]
  simp only [hbelow, habove]
  split
  · rfl
  · split
    · push_cast
      rfl
    · -- On a tie the quotient is even, or the next number is.
      rcases Nat.mod_two_eq_zero_or_one (num / den) with heven | hodd
      · rw [if_pos (by exact_mod_cast Nat.even_iff.mpr heven), heven, Nat.add_zero]
      · have hnot : ¬ Even ((num / den : ℕ) : ℤ) := by
          rw [Int.even_coe_nat, Nat.even_iff, hodd]
          decide
        rw [if_neg hnot, hodd]
        push_cast
        rfl

theorem roundHalfEven_error (num den : ℕ) (pos : 0 < den) :
    |(Decimal.roundHalfEven num den : ℚ) - num / den| ≤ 1 / 2 := by
  have hden : (0 : ℚ) < den := by exact_mod_cast pos
  obtain ⟨hbelow, habove⟩ := Decimal.roundHalfEven_near num den pos
  have hbelow' : 2 * (num : ℚ) ≤ 2 * (Decimal.roundHalfEven num den * den) + den := by
    exact_mod_cast hbelow
  have habove' : 2 * (Decimal.roundHalfEven num den * den : ℚ) ≤ 2 * num + den := by
    exact_mod_cast habove
  have hgap : (Decimal.roundHalfEven num den : ℚ) - num / den =
      (Decimal.roundHalfEven num den * den - num) / den := by
    rw [sub_div, mul_div_cancel_right₀ _ hden.ne']
  rw [hgap, abs_div, abs_of_pos hden, div_le_iff₀ hden, abs_le]
  constructor <;> linarith

namespace Decimal

/-! ## What a numeral reads as -/

namespace Numeral

/-- Right after the last place that a decimal has, the fraction has an underscore. -/
def CutShort (n : Numeral) : Prop :=
  ∃ front later, n.fraction = front ++ none :: later ∧ (digitsOf front).length = maxScale

theorem value_eq_worth (n : Numeral) :
    n.value = (if n.negative then -1 else 1) *
      worth (Digit.number (digitsOf n.whole)) 0 n.fraction := by
  rw [value, Digit.number, digits, Digit.append_append, Digit.append_div, worth, pow_zero, div_one]
  rfl

theorem abs_value (n : Numeral) :
    |n.value| = worth (Digit.number (digitsOf n.whole)) 0 n.fraction := by
  have hnonneg := worth_nonneg (Digit.number (digitsOf n.whole)) 0 n.fraction
  rw [value_eq_worth]
  split
  · rw [neg_one_mul, abs_neg, abs_of_nonneg hnonneg]
  · rw [one_mul, abs_of_nonneg hnonneg]

theorem exists_taken_of_toDecimal? {n : Numeral} {d : Decimal} (h : n.plain.toDecimal? = some d) :
    Digit.number (digitsOf n.whole) < sizeBound ∧
      Plain.takePlaces n.fraction (Digit.number (digitsOf n.whole)) 0 = some (d.size, d.scale) ∧
        d.negative = (n.negative && d.size != 0) := by
  unfold Plain.toDecimal? at h
  dsimp only [plain] at h
  split at h
  · rename_i hwhole
    split at h
    · rename_i size scale htaken
      obtain ⟨hnegative, rfl, rfl⟩ := ofParts?_eq_some_iff.mp h
      exact ⟨hwhole, htaken, hnegative⟩
    · cases h
  · cases h

end Numeral
end Decimal

/-! ## Amounts -/

namespace Amount

open Decimal

theorem parse?_numeral (n : Numeral) : parse? n.text = n.plain.toDecimal?.bind ofDecimal? := by
  rw [parse?, n.read?_text]

theorem units_eq_ratio (size scale : ℕ) :
    (size : ℚ) / 10 ^ scale * 10 ^ 8 = (size * perUnit : ℕ) / (10 ^ scale : ℕ) := by
  rw [perUnit]
  push_cast
  ring

theorem nearestEven_units (size scale : ℕ) :
    nearestEven (size / 10 ^ scale * 10 ^ 8) = roundHalfEven (size * perUnit) (10 ^ scale) := by
  rw [units_eq_ratio, nearestEven_natCast_div _ _ (Nat.pow_pos (by decide))]

theorem ofDecimal?_eq {d : Decimal} (h : d.negative = false) {q : ℚ}
    (hq : q = d.size / 10 ^ d.scale) :
    ofDecimal? d =
      if q < 0 ∨ (Word.limit : ℤ) < nearestEven (q * 10 ^ 8) then none
      else some ⟨.ofNat (nearestEven (q * 10 ^ 8)).toNat⟩ := by
  have hnonneg : 0 ≤ q := by
    rw [hq]
    positivity
  have hround : nearestEven (q * 10 ^ 8) = roundHalfEven (d.size * perUnit) (10 ^ d.scale) := by
    rw [hq, nearestEven_units]
  rw [ofDecimal?, h, if_neg Bool.false_ne_true, hround, Int.toNat_natCast]
  by_cases hcount : roundHalfEven (d.size * perUnit) (10 ^ d.scale) ≤ Word.limit
  · have hinside : ¬ (q < 0 ∨ (Word.limit : ℤ) < roundHalfEven (d.size * perUnit) (10 ^ d.scale)) :=
      not_or.mpr ⟨hnonneg.not_gt, not_lt.mpr (by exact_mod_cast hcount)⟩
    rw [if_pos hcount, if_neg hinside]
  · have habove : (Word.limit : ℤ) < roundHalfEven (d.size * perUnit) (10 ^ d.scale) := by
      exact_mod_cast Nat.lt_of_not_le hcount
    rw [if_neg hcount, if_pos (Or.inr habove)]

/-- With no more than 28 digits the amount is the nearest one to what is written, a tie to the even
count. -/
theorem parse?_of_few {n : Numeral} (hfew : n.digits.length ≤ maxScale) :
    parse? n.text =
      if n.value < 0 ∨ (Word.limit : ℤ) < nearestEven (n.value * 10 ^ 8) then none
      else some ⟨.ofNat (nearestEven (n.value * 10 ^ 8)).toNat⟩ := by
  have hnumber : Digit.append (Digit.number (digitsOf n.whole)) (digitsOf n.fraction) =
      Digit.number n.digits := (Digit.append_append 0 _ _).symm
  have hsize : Digit.number n.digits < sizeBound := by
    calc Digit.number n.digits < (0 + 1) * 10 ^ n.digits.length := Digit.append_lt 0 n.digits
      _ ≤ (0 + 1) * 10 ^ maxScale :=
          Nat.mul_le_mul_left _ (Nat.pow_le_pow_right (by decide) hfew)
      _ < sizeBound := by decide
  have hlength : (digitsOf n.fraction).length ≤ maxScale := by
    have hsplit : n.digits.length = (digitsOf n.whole).length + (digitsOf n.fraction).length :=
      List.length_append
    omega
  obtain ⟨d, hread, hnegative, hdsize, hdscale⟩ :=
    Plain.exists_toDecimal? n.plain hlength (hnumber.trans_lt hsize)
  have hdsize' : d.size = Digit.number n.digits := hdsize.trans hnumber
  have hdscale' : d.scale = (digitsOf n.fraction).length := hdscale
  rw [parse?_numeral, hread, Option.bind_some]
  rw [hdsize'] at hnegative
  cases hsign : n.negative && Digit.number n.digits != 0 with
  | true =>
      obtain ⟨hminus, hnonzero⟩ := Bool.and_eq_true_iff.mp hsign
      have hpos : 0 < Digit.number n.digits := Nat.pos_of_ne_zero (bne_iff_ne.mp hnonzero)
      have hbelow : n.value < 0 := by
        rw [Numeral.value, if_pos hminus, neg_one_mul, neg_lt_zero]
        positivity
      rw [if_pos (Or.inl hbelow), ofDecimal?, if_pos (hnegative.trans hsign)]
  | false =>
      refine ofDecimal?_eq (hnegative.trans hsign) ?_
      rw [hdsize', hdscale', Numeral.value]
      rcases Bool.and_eq_false_iff.mp hsign with hminus | hzero
      · rw [hminus, if_neg Bool.false_ne_true, one_mul]
      · have hnone : Digit.number n.digits = 0 := by simpa using hzero
        rw [hnone, Nat.cast_zero, zero_div, mul_zero]

theorem eq_of_ofDecimal? {d : Decimal} {a : Amount} (h : ofDecimal? d = some a) :
    d.negative = false ∧ a.raw.toNat = roundHalfEven (d.size * perUnit) (10 ^ d.scale) := by
  unfold ofDecimal? at h
  split at h
  · cases h
  · rename_i hplain
    dsimp only at h
    split at h
    · rename_i hcount
      cases h
      have hbound : roundHalfEven (d.size * perUnit) (10 ^ d.scale) < 2 ^ 64 := by
        unfold Word.limit at hcount
        omega
      refine ⟨Bool.eq_false_iff.mpr hplain, ?_⟩
      rw [UInt64.toNat_ofNat', Nat.mod_eq_of_lt hbound]
    · cases h

/-- The two roundings of an amount that is read, apart. -/
theorem exists_taken_of_parse? {n : Numeral} {a : Amount} (h : parse? n.text = some a) :
    ∃ size scale : ℕ, Plain.Taken (Digit.number (digitsOf n.whole)) 0 n.fraction size scale ∧
      (n.negative = true → size = 0) ∧
        a.raw.toNat = roundHalfEven (size * perUnit) (10 ^ scale) := by
  rw [parse?_numeral] at h
  obtain ⟨d, hread, hamount⟩ := Option.bind_eq_some_iff.mp h
  obtain ⟨hwhole, htaken, hnegative⟩ := Numeral.exists_taken_of_toDecimal? hread
  obtain ⟨hplain, hraw⟩ := eq_of_ofDecimal? hamount
  refine ⟨d.size, d.scale, Plain.takePlaces_taken (Nat.zero_le _) hwhole htaken, ?_, hraw⟩
  intro hminus
  rw [hplain, hminus, Bool.true_and] at hnegative
  simpa using hnegative.symm

/-- Below zero only what is nothing is read. -/
theorem sign_of_parse? {n : Numeral} {a : Amount} (h : parse? n.text = some a) :
    0 ≤ n.value ∨ |n.value| * 10 ^ 28 < 1 / 2 ∨ n.CutShort ∧ |n.value| * 10 ^ 28 < 1 := by
  obtain ⟨size, scale, htaken, hminus, -⟩ := exists_taken_of_parse? h
  by_cases hnegative : n.negative = true
  · -- With a minus the size is zero, so the number is what was lost on the way.
    have hsize := hminus hnegative
    rw [n.abs_value]
    cases htaken with
    | all h =>
        left
        rw [hsize, Nat.cast_zero, zero_div] at h
        rw [n.value_eq_worth, ← h, mul_zero]
    | rounded _ hfull hzero =>
        have hlast : scale = maxScale := by
          rcases hfull with hlast | hfull
          · exact hlast
          · rw [hsize] at hfull
            exact absurd hfull (by decide)
        right
        left
        have hbelow := hzero hsize
        rw [hlast] at hbelow
        exact (lt_div_iff₀ (by positivity)).mp hbelow
    | cut front later hlast _ habove hsplit hfront =>
        right
        right
        rw [hsize, hlast, Nat.cast_zero, zero_add] at habove
        rw [Nat.zero_add] at hfront
        exact ⟨⟨front, later, hsplit, hfront⟩, (lt_div_iff₀ (by positivity)).mp habove⟩
  · left
    rw [n.value_eq_worth, if_neg hnegative, one_mul]
    exact worth_nonneg _ _ _

/-- The amount that is read is at most half a unit from what is written, but for what was lost on the
way. -/
theorem error_of_parse? {n : Numeral} {a : Amount} (h : parse? n.text = some a) :
    |(a.raw.toNat : ℚ) - n.value * 10 ^ 8| ≤ 1 / 2 + 1 / 10 ^ 8 := by
  obtain ⟨size, scale, htaken, hminus, hraw⟩ := exists_taken_of_parse? h
  have hround : |(a.raw.toNat : ℚ) - size / 10 ^ scale * 10 ^ 8| ≤ 1 / 2 := by
    rw [hraw, units_eq_ratio]
    exact roundHalfEven_error _ _ (Nat.pow_pos (by decide))
  have hloss : |(size : ℚ) / 10 ^ scale - n.value| * 10 ^ 8 ≤ 1 / 10 ^ 8 := by
    have hworth := htaken.loss_le (hraw ▸ Word.toNat_le_limit a.raw)
    by_cases hnegative : n.negative = true
    · -- Nothing was taken in, and it is as far from what is written as from its opposite.
      rw [hminus hnegative, Nat.cast_zero, zero_div, zero_sub, abs_neg] at hworth ⊢
      rw [n.abs_value]
      exact (abs_of_nonneg (worth_nonneg _ _ _)) ▸ hworth
    · rw [n.value_eq_worth, if_neg hnegative, one_mul]
      exact hworth
  calc |(a.raw.toNat : ℚ) - n.value * 10 ^ 8|
      = |(a.raw.toNat - size / 10 ^ scale * 10 ^ 8) + (size / 10 ^ scale - n.value) * 10 ^ 8| := by
        ring_nf
    _ ≤ |(a.raw.toNat : ℚ) - size / 10 ^ scale * 10 ^ 8| + |(size / 10 ^ scale - n.value) * 10 ^ 8| :=
        abs_add_le _ _
    _ ≤ 1 / 2 + 1 / 10 ^ 8 := by
        rw [abs_mul, abs_of_pos (show (0 : ℚ) < 10 ^ 8 by positivity)]
        exact add_le_add hround hloss

/-- A text is taken apart as a plain number exactly if it writes a numeral.  A numeral of no more than 28
digits reads as the nearest amount, a tie to the even count, or as none if it is below zero or that amount
is too great.  A numeral of any length that reads as an amount is not below zero, or it rounds to nothing at
28 decimals, unless an underscore after these cuts it short; and the amount is off by half a unit and
`10 ^ -8` of one at most. -/
theorem numerals_read_as_nearest (text : String) :
    ((Plain.ofChars? text.toList).isSome = true ↔ ∃ n : Numeral, n.text = text) ∧
      ∀ n : Numeral, n.text = text →
        (n.digits.length ≤ 28 →
          parse? text =
            if n.value < 0 ∨ (Word.limit : ℤ) < nearestEven (n.value * 10 ^ 8) then none
            else some ⟨.ofNat (nearestEven (n.value * 10 ^ 8)).toNat⟩) ∧
          ∀ a, parse? text = some a →
            (0 ≤ n.value ∨ |n.value| * 10 ^ 28 < 1 / 2 ∨ n.CutShort ∧ |n.value| * 10 ^ 28 < 1) ∧
              |(a.raw.toNat : ℚ) - n.value * 10 ^ 8| ≤ 1 / 2 + 1 / 10 ^ 8 := by
  refine ⟨Numeral.isSome_ofChars?_iff, ?_⟩
  rintro n rfl
  exact ⟨parse?_of_few, fun _ h => ⟨sign_of_parse? h, error_of_parse? h⟩⟩

/-- The digit zero, as a place. -/
def nought : Place := some ⟨0, by decide⟩

/-- `0.000000005`, half of a unit. -/
def halfUnit : Numeral where
  minus? := none
  whole := [nought]
  fraction? := some ((places 9 5).map some)
  starts := Or.inl ⟨_, [], rfl⟩

/-- `+0.00000000500000000000000000004`, more than half of a unit by less than the last place. -/
def pastHalfUnit : Numeral where
  minus? := some false
  whole := [nought]
  fraction? := some ((places 29 500000000000000000004).map some)
  starts := Or.inl ⟨_, [], rfl⟩

/-- Half of a unit is nearest to nothing, by the tie; and so is what is more than half of it in the 29th
place, which is why the bound on the error is past one half. -/
theorem numerals_read_as_nearest_of_half_units :
    (halfUnit.digits.length ≤ 28 ∧ parse? halfUnit.text = some ⟨0⟩ ∧
      parse? halfUnit.text =
        if halfUnit.value < 0 ∨ (Word.limit : ℤ) < nearestEven (halfUnit.value * 10 ^ 8) then none
        else some ⟨.ofNat (nearestEven (halfUnit.value * 10 ^ 8)).toNat⟩) ∧
      parse? pastHalfUnit.text = some ⟨0⟩ ∧
        1 / 2 < |((⟨0⟩ : Amount).raw.toNat : ℚ) - pastHalfUnit.value * 10 ^ 8| ∧
          |((⟨0⟩ : Amount).raw.toNat : ℚ) - pastHalfUnit.value * 10 ^ 8| ≤ 1 / 2 + 1 / 10 ^ 8 := by
  have hhalf : parse? halfUnit.text = some ⟨0⟩ := by
    rw [parse?_numeral]
    decide +kernel
  have hpast : parse? pastHalfUnit.text = some ⟨0⟩ := by
    rw [parse?_numeral]
    decide +kernel
  refine ⟨⟨by decide, hhalf, ((numerals_read_as_nearest _).2 halfUnit rfl).1 (by decide)⟩, hpast, ?_,
    (((numerals_read_as_nearest _).2 pastHalfUnit rfl).2 _ hpast).2⟩
  decide +kernel

/-- Below zero by nearly a unit of the last place, which stands after an underscore. -/
def belowZero : Numeral where
  minus? := some true
  whole := [nought]
  fraction? := some (((places 29 9).map some).insertIdx 28 none)
  starts := Or.inl ⟨_, [], rfl⟩

/-- The underscore cuts off the digit that the sign is about, so that nothing is read, which has no sign.
Without it the same digits are none of an amount. -/
theorem cut_numeral_reads_as_zero :
    belowZero.text = "-0.0000000000000000000000000000_9" ∧ belowZero.value < 0 ∧
      1 / 2 < |belowZero.value| * 10 ^ 28 ∧ parse? belowZero.text = some zero ∧
        parse? "-0.00000000000000000000000000009" = none := by
  refine ⟨by decide, by decide +kernel, by decide +kernel, ?_, by decide +kernel⟩
  rw [parse?_numeral]
  decide +kernel

end Amount
end SlotAuction
