import SlotAuction.Arithmetic

/-!
# Word — 64-bit words that stop at their limit

Counts and amounts are `UInt64`.  Where a sum must not wrap it is taken over the naturals and
clamped, so that every law about it is a law about `min`:

* `Word.clamp n` — the greatest word not above `n`;
* `Word.addClamped`, `Word.sumClamped` — sums that stop at `Word.limit`;
* `toNat_sumClamped` — a clamped sum is the exact sum, clamped once.
-/

namespace SlotAuction
namespace Word

open scoped Arithmetic

/-- The greatest word. -/
def limit : Nat := 2 ^ (64 : Nat) - 1

def clamp (n : Nat) : UInt64 :=
  UInt64.ofNat (min n limit)

theorem toNat_clamp (n : Nat) : (clamp n).toNat = min n limit := by
  have bound : min n limit < 2 ^ 64 := by
    unfold limit
    omega
  simp only [clamp, UInt64.toNat_ofNat', Nat.mod_eq_of_lt bound]

theorem toNat_le_limit (w : UInt64) : w.toNat ≤ limit := by
  have := w.toNat_lt
  unfold limit
  omega

theorem clamp_toNat (w : UInt64) : clamp w.toNat = w := by
  apply UInt64.toNat_inj.mp
  rw [toNat_clamp]
  exact Nat.min_eq_left (toNat_le_limit w)

/-! ## Sums -/

def addClamped (a b : UInt64) : UInt64 :=
  clamp (a.toNat + b.toNat)

theorem toNat_addClamped (a b : UInt64) :
    (addClamped a b).toNat = min (a.toNat + b.toNat) limit :=
  toNat_clamp _

/-- The sum of a list, each step clamped. -/
def sumClamped (words : List UInt64) : UInt64 :=
  words.foldl addClamped 0

theorem toNat_foldl_addClamped (words : List UInt64) (start : UInt64) :
    (words.foldl addClamped start).toNat =
      min (start.toNat + (words.map UInt64.toNat).sum) limit := by
  induction words generalizing start with
  | nil =>
      have := toNat_le_limit start
      simp only [List.foldl_nil, List.map_nil, List.sum_nil]
      omega
  | cons w ws ih =>
      rw [List.foldl_cons, ih, toNat_addClamped]
      simp only [List.map_cons, List.sum_cons]
      omega

theorem toNat_sumClamped (words : List UInt64) :
    (sumClamped words).toNat = min ((words.map UInt64.toNat).sum) limit := by
  rw [sumClamped, toNat_foldl_addClamped]
  simp

end Word
end SlotAuction
