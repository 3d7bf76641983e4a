import SlotAuction.Decimal.Text
import SlotAuction.Word

/-!
# Amount — money in hundred-millionths

An amount is a word that counts hundred-millionths of the currency unit.  Amounts are only read,
written, compared and summed; sums stop at the greatest amount.

* `Amount.ofDecimal?`, `Amount.parse?` — the nearest amount, a tie to the even count;
* `Amount.perSlot` — the share of one slot, as a decimal;
* `toNat_total` — a sum is the exact sum, clamped once.
-/

namespace SlotAuction

open scoped Arithmetic

structure Amount where
  raw : UInt64
  deriving DecidableEq

namespace Amount

/-- Hundred-millionths in one unit. -/
def perUnit : Nat := 10 ^ (8 : Nat)

def zero : Amount := ⟨0⟩

instance : Inhabited Amount := ⟨zero⟩

instance : LE Amount := ⟨fun a b => a.raw ≤ b.raw⟩

instance (a b : Amount) : Decidable (a ≤ b) :=
  inferInstanceAs (Decidable (a.raw ≤ b.raw))

/-- Whole units; a number too great gives the greatest amount. -/
def ofUnits (units : UInt64) : Amount :=
  ⟨Word.clamp (units.toNat * perUnit)⟩

/-! ## Decimals -/

/-- The nearest amount, a tie to the even count; none with a minus or past the greatest amount. -/
def ofDecimal? (d : Decimal) : Option Amount :=
  if d.negative then none
  else
    let count := Decimal.roundHalfEven (d.size * perUnit) (10 ^ d.scale)
    if count ≤ Word.limit then some ⟨UInt64.ofNat count⟩ else none

def parse? (text : String) : Option Amount :=
  (Decimal.read? text).bind ofDecimal?

def toDecimal (a : Amount) : Decimal where
  negative := false
  size := a.raw.toNat
  scale := 8
  size_lt := by
    have bound := a.raw.toNat_lt
    show a.raw.toNat < 2 ^ 96
    omega
  scale_le := by decide

def render (a : Amount) : String :=
  a.toDecimal.render

/-- The value of one slot when the amount pays for `slots`; for none it is the amount itself. -/
def perSlot (a : Amount) (slots : UInt64) : Decimal :=
  if slots ≤ 1 then a.toDecimal
  else (Decimal.ofQuotient? a.raw.toNat (perUnit * slots.toNat)).getD a.toDecimal

/-! ## Sums -/

def add (a b : Amount) : Amount :=
  ⟨Word.addClamped a.raw b.raw⟩

instance : Add Amount := ⟨add⟩

def total (amounts : List Amount) : Amount :=
  amounts.foldl add zero

/-- The total of amounts that are referred to, each copied when the sum comes to it. -/
def totalRef {ρ : Type} (copy : ρ → Amount) (refs : List ρ) : Amount :=
  refs.foldl (fun sum ref => add sum (copy ref)) zero

/-- The sums of the leading parts, `start` included in each. -/
def runningTotalsFrom (start : Amount) : List Amount → List Amount
  | [] => []
  | a :: rest => (start + a) :: runningTotalsFrom (start + a) rest

def runningTotals (amounts : List Amount) : List Amount :=
  runningTotalsFrom zero amounts

theorem raw_foldl_add (amounts : List Amount) (start : Amount) :
    (amounts.foldl add start).raw = (amounts.map raw).foldl Word.addClamped start.raw := by
  induction amounts generalizing start with
  | nil => rfl
  | cons a rest ih => exact ih (add start a)

theorem toNat_total (amounts : List Amount) :
    (total amounts).raw.toNat = min ((amounts.map (·.raw.toNat)).sum) Word.limit := by
  have sum := Word.toNat_sumClamped (amounts.map raw)
  rw [List.map_map] at sum
  rw [total, raw_foldl_add]
  exact sum

/-! ## Order -/

/-- Ascending order of a list. -/
def sort (amounts : List Amount) : List Amount :=
  amounts.mergeSort (fun a b => a ≤ b)

end Amount
end SlotAuction
