/-!
# Rounding — quotients of naturals taken to the nearest integer

Two ways to settle a tie:

* `Decimal.roundHalfEven` — a tie goes to the even neighbour;
* `Decimal.roundHalfUp` — a tie goes to the greater neighbour.

Each is given by integer division and stays within half a unit of the quotient.
-/

namespace SlotAuction
namespace Decimal

/-- `num / den` to the nearest integer, a tie to the even one. -/
def roundHalfEven (num den : Nat) : Nat :=
  let quotient := num / den
  let rest := num % den
  if 2 * rest < den then quotient
  else if den < 2 * rest then quotient + 1
  else quotient + quotient % 2

/-- `num / den` to the nearest integer, a tie upward. -/
def roundHalfUp (num den : Nat) : Nat :=
  (2 * num + den) / (2 * den)

/-! ## Both are nearest -/

theorem roundHalfEven_near (num den : Nat) (pos : 0 < den) :
    2 * num ≤ 2 * (roundHalfEven num den * den) + den ∧
      2 * (roundHalfEven num den * den) ≤ 2 * num + den := by
  have split := Nat.div_add_mod num den
  have small := Nat.mod_lt num pos
  rw [Nat.mul_comm] at split
  unfold roundHalfEven
  dsimp only
  split
  · omega
  · split
    · rw [Nat.add_mul]
      omega
    · rcases Nat.mod_two_eq_zero_or_one (num / den) with even | odd
      · rw [even, Nat.add_zero]
        omega
      · rw [odd, Nat.add_mul]
        omega

theorem roundHalfUp_near (num den : Nat) (pos : 0 < den) :
    2 * num < 2 * (roundHalfUp num den * den) + den ∧
      2 * (roundHalfUp num den * den) ≤ 2 * num + den := by
  have split := Nat.div_add_mod (2 * num + den) (2 * den)
  have small := Nat.mod_lt (2 * num + den) (show 0 < 2 * den by omega)
  have swap : 2 * den * ((2 * num + den) / (2 * den)) =
      2 * ((2 * num + den) / (2 * den) * den) := by
    rw [Nat.mul_assoc, Nat.mul_comm den]
  rw [swap] at split
  unfold roundHalfUp
  omega

theorem roundHalfEven_mul (n den : Nat) (pos : 0 < den) : roundHalfEven (n * den) den = n := by
  simp [roundHalfEven, Nat.mul_div_cancel _ pos, pos]

/-- A fraction is rounded alike in all its forms. -/
theorem roundHalfEven_mul_mul (num den : Nat) {factor : Nat} (pos : 0 < factor) :
    roundHalfEven (num * factor) (den * factor) = roundHalfEven num den := by
  have below (a b : Nat) : a * factor < b * factor ↔ a < b :=
    Nat.mul_lt_mul_right pos
  unfold roundHalfEven
  dsimp only
  rw [Nat.mul_div_mul_right num den pos, Nat.mul_mod_mul_right, ← Nat.mul_assoc]
  simp only [below]

end Decimal
end SlotAuction
