import SlotAuction.Arithmetic

/-!
# Bytes — numbers and texts as lists of bytes

* `Bytes.littleEndian`, `Bytes.bigEndian` — numbers in a given number of bytes;
* `Bytes.ofLittleEndian` — the number back, as `ofLittleEndian_littleEndian` and
  `littleEndian_ofLittleEndian` say;
* `Bytes.ofText` — text in UTF-8;
* `Bytes.hex` — two digits a byte.
-/

namespace SlotAuction
namespace Bytes

open scoped Arithmetic

/-! ## Numbers -/

/-- The lowest `width` bytes of a number, lowest first. -/
def littleEndian : Nat → Nat → List UInt8
  | 0, _ => []
  | width + 1, n => UInt8.ofNat (n % 256) :: littleEndian width (n / 256)

/-- The lowest `width` bytes of a number, highest first. -/
def bigEndian (width n : Nat) : List UInt8 :=
  (littleEndian width n).reverse

def ofLittleEndian : List UInt8 → Nat
  | [] => 0
  | b :: bs => b.toNat + 256 * ofLittleEndian bs

@[simp] theorem length_littleEndian (width n : Nat) : (littleEndian width n).length = width := by
  induction width generalizing n with
  | zero => rfl
  | succ width ih => rw [littleEndian, List.length_cons, ih]

@[simp] theorem length_bigEndian (width n : Nat) : (bigEndian width n).length = width := by
  simp [bigEndian]

theorem ofLittleEndian_littleEndian (width n : Nat) :
    ofLittleEndian (littleEndian width n) = n % 256 ^ width := by
  induction width generalizing n with
  | zero => simp [littleEndian, ofLittleEndian, Nat.mod_one]
  | succ width ih =>
      have low : (UInt8.ofNat (n % 256)).toNat = n % 256 := by
        simp [UInt8.toNat_ofNat']
      rw [littleEndian, ofLittleEndian, ih, low, Nat.pow_succ', Nat.mod_mul]

theorem ofLittleEndian_lt (bytes : List UInt8) : ofLittleEndian bytes < 256 ^ bytes.length := by
  induction bytes with
  | nil => decide
  | cons b bs ih =>
      have := b.toNat_lt
      rw [ofLittleEndian, List.length_cons, Nat.pow_succ']
      omega

theorem littleEndian_ofLittleEndian (bytes : List UInt8) :
    littleEndian bytes.length (ofLittleEndian bytes) = bytes := by
  induction bytes with
  | nil => rfl
  | cons b bs ih =>
      have := b.toNat_lt
      have low : (b.toNat + 256 * ofLittleEndian bs) % 256 = b.toNat := by omega
      have high : (b.toNat + 256 * ofLittleEndian bs) / 256 = ofLittleEndian bs := by omega
      rw [ofLittleEndian, List.length_cons, littleEndian, low, high, ih, UInt8.ofNat_toNat]

/-! ## Text -/

def ofText (text : String) : List UInt8 :=
  text.toList.flatMap String.utf8EncodeChar

/-- Two lower-case digits for each byte. -/
def hex (bytes : List UInt8) : String :=
  String.ofList (bytes.flatMap fun b => [Nat.digitChar (b.toNat / 16), Nat.digitChar (b.toNat % 16)])

end Bytes
end SlotAuction
