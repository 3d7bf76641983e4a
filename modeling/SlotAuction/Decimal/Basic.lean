import SlotAuction.Arithmetic
import SlotAuction.Decimal.Rounding

/-!
# Decimal — signed decimals of at most 28 places

A decimal is a sign, a size below `2 ^ 96`, and a scale: the size counts units of `10 ^ -scale`, and
the scale is at most 28.  The same value may have several forms (`2.5` and `2.50`); comparison goes
by value.

* `Decimal.ofParts?`, `Decimal.ofInt?` — a decimal from its parts, if they are within bounds;
* `Decimal.ofQuotient?` — a quotient rounded on the finest grid whose size still fits.
-/

namespace SlotAuction

open scoped Arithmetic

/-- Bound on the size of a decimal. -/
abbrev Decimal.sizeBound : Nat := 2 ^ (96 : Nat)

/-- The greatest number of places. -/
abbrev Decimal.maxScale : Nat := 28

structure Decimal where
  /-- A decimal below zero keeps its sign when it is rounded to nothing. -/
  negative : Bool
  size : Nat
  scale : Nat
  size_lt : size < Decimal.sizeBound
  scale_le : scale ≤ Decimal.maxScale
  deriving DecidableEq

namespace Decimal

def ofParts? (negative : Bool) (size scale : Nat) : Option Decimal :=
  if h : size < sizeBound ∧ scale ≤ maxScale then
    some ⟨negative, size, scale, h.1, h.2⟩
  else
    none

theorem ofParts?_eq_some_iff {negative : Bool} {size scale : Nat} {d : Decimal} :
    ofParts? negative size scale = some d ↔
      d.negative = negative ∧ d.size = size ∧ d.scale = scale := by
  unfold ofParts?
  split
  · constructor
    · rintro ⟨⟩
      exact ⟨rfl, rfl, rfl⟩
    · rintro ⟨rfl, rfl, rfl⟩
      rfl
  · rename_i outside
    constructor
    · intro h
      cases h
    · rintro ⟨rfl, rfl, rfl⟩
      exact absurd ⟨d.size_lt, d.scale_le⟩ outside

/-- The decimal `n / 10 ^ scale`; zero has no sign. -/
def ofInt? (n : Int) (scale : Nat) : Option Decimal :=
  ofParts? (n < 0) n.natAbs scale

/-! ## Order by value -/

/-- The size with its sign. -/
def coefficient (d : Decimal) : Int :=
  if d.negative then -(d.size : Int) else d.size

instance : Ord Decimal where
  compare a b := compare (a.coefficient * 10 ^ b.scale) (b.coefficient * 10 ^ a.scale)

theorem compare_def (a b : Decimal) :
    compare a b = compare (a.coefficient * 10 ^ b.scale) (b.coefficient * 10 ^ a.scale) :=
  rfl

/-! ## Quotients -/

/-- `num / den` on the grid of `scale` places, or on the finest coarser one where it fits. -/
def ofQuotientFrom? (num den : Nat) : Nat → Option Decimal
  | 0 => ofParts? false (roundHalfEven num den) 0
  | scale + 1 =>
      match ofParts? false (roundHalfEven (num * 10 ^ (scale + 1)) den) (scale + 1) with
      | some d => some d
      | none => ofQuotientFrom? num den scale

/-- `num / den`, with as many places as fit; a tie goes to the even size. -/
def ofQuotient? (num den : Nat) : Option Decimal :=
  ofQuotientFrom? num den maxScale

end Decimal
end SlotAuction
