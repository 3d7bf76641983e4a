import Mathlib.Data.String.Basic
import SlotAuction.Bytes

/-!
# TextOrder — texts and their bytes stand in one order

The bytes of a character are a leading byte, which grows with the character, and further bytes of six
bits each.  So UTF-8 keeps the order of the characters, and a text has its own bytes.

* `Bytes.lead`, `Bytes.further` — the leading byte and the further ones;
* `Bytes.ofText_lt_iff` — texts are in order as their bytes are;
* `Bytes.ofText_inj` — no two texts have the same bytes;
* `Bytes.zero_mem_ofText` — a zero byte stands for the character zero and nothing else.
-/

namespace SlotAuction
namespace Bytes

open scoped Arithmetic

/-! ## The bytes of a character -/

/-- The value of the leading byte. -/
def lead (v : Nat) : Nat :=
  if v ≤ 0x7f then v
  else if v ≤ 0x7ff then v / 64 + 192
  else if v ≤ 0xffff then v / 4096 + 224
  else v / 262144 + 240

/-- How many bytes follow the leading one. -/
def trail (v : Nat) : Nat :=
  if v ≤ 0x7f then 0
  else if v ≤ 0x7ff then 1
  else if v ≤ 0xffff then 2
  else 3

/-- The lowest bits, six a byte, the highest first. -/
def further : Nat → Nat → List UInt8
  | 0, _ => []
  | count + 1, v => UInt8.ofNat (v / 64 ^ count % 64 + 128) :: further count v

theorem val_lt (c : Char) : c.val.toNat < 0x110000 := by
  have hvalid := c.valid
  unfold UInt32.isValidChar Nat.isValidChar at hvalid
  omega

theorem lead_lt {v : Nat} (h : v < 0x110000) : lead v < 256 := by
  unfold lead
  split_ifs <;> omega

/-- A greater character has a greater leading byte, or else as many further ones and a common part
above them. -/
theorem lead_cases {v w : Nat} (h : v < w) :
    lead v < lead w ∨
      lead v = lead w ∧ trail v = trail w ∧ v / 64 ^ trail w = w / 64 ^ trail w := by
  unfold lead trail
  -- Longer encodings have leading bytes of their own, above those of the shorter ones.
  split_ifs <;> simp only [Nat.reducePow, true_and] <;> omega

theorem utf8EncodeChar_eq (c : Char) :
    String.utf8EncodeChar c =
      UInt8.ofNat (lead c.val.toNat) :: further (trail c.val.toNat) c.val.toNat := by
  have hval := val_lt c
  unfold String.utf8EncodeChar lead trail
  generalize c.val.toNat = v at hval ⊢
  dsimp only
  split_ifs with hone htwo hthree
  · rfl
  · have hlead : v / 64 % 32 = v / 64 := by omega
    simp [further, hlead]
  · have hlead : v / 4096 % 16 = v / 4096 := by omega
    simp [further, hlead]
  · have hlead : v / 262144 % 8 = v / 262144 := by omega
    simp [further, hlead]

/-! ## Order -/

theorem ofNat_lt_ofNat {m n : Nat} (hmn : m < n) (hn : n < 256) : UInt8.ofNat m < UInt8.ofNat n := by
  rw [UInt8.lt_iff_toNat_lt, UInt8.toNat_ofNat', UInt8.toNat_ofNat']
  omega

/-- The further bytes of two numbers that agree above them are in the order of the numbers. -/
theorem further_append_lt {count v w : Nat} (h : v < w) (habove : v / 64 ^ count = w / 64 ^ count)
    (xs ys : List UInt8) : further count v ++ xs < further count w ++ ys := by
  induction count with
  | zero =>
      rw [Nat.pow_zero, Nat.div_one, Nat.div_one] at habove
      exact absurd habove (Nat.ne_of_lt h)
  | succ count ih =>
      have hle : v / 64 ^ count ≤ w / 64 ^ count := Nat.div_le_div_right (Nat.le_of_lt h)
      rw [Nat.pow_succ, ← Nat.div_div_eq_div_mul, ← Nat.div_div_eq_div_mul] at habove
      rw [further, further, List.cons_append, List.cons_append, List.cons_lt_cons_iff]
      rcases Nat.lt_or_eq_of_le hle with hlt | heq
      · -- The numbers part here, and they agree above, so this byte decides.
        exact Or.inl (ofNat_lt_ofNat (by omega) (by omega))
      · exact Or.inr ⟨by rw [heq], ih heq⟩

theorem utf8EncodeChar_append_lt {c d : Char} (h : c < d) (xs ys : List UInt8) :
    String.utf8EncodeChar c ++ xs < String.utf8EncodeChar d ++ ys := by
  have hval : c.val.toNat < d.val.toNat := UInt32.lt_iff_toNat_lt.mp (Char.lt_def.mp h)
  rw [utf8EncodeChar_eq, utf8EncodeChar_eq, List.cons_append, List.cons_append,
    List.cons_lt_cons_iff]
  rcases lead_cases hval with hlt | ⟨hlead, htrail, habove⟩
  · exact Or.inl (ofNat_lt_ofNat hlt (lead_lt (val_lt d)))
  · rw [hlead, htrail]
    exact Or.inr ⟨rfl, further_append_lt hval habove xs ys⟩

theorem flatMap_utf8EncodeChar_lt {cs ds : List Char} (h : cs < ds) :
    cs.flatMap String.utf8EncodeChar < ds.flatMap String.utf8EncodeChar := by
  -- Induction on the shared characters; where the texts part, it does not matter what follows.
  induction cs generalizing ds with
  | nil =>
      cases ds with
      | nil => exact absurd h (List.lt_irrefl [])
      | cons d ds =>
          rw [List.flatMap_cons, utf8EncodeChar_eq]
          exact List.nil_lt_cons _ _
  | cons c cs ih =>
      cases ds with
      | nil => exact absurd h (List.not_lt_nil _)
      | cons d ds =>
          rw [List.flatMap_cons, List.flatMap_cons]
          rcases List.cons_lt_cons_iff.mp h with hlt | ⟨rfl, hlater⟩
          · exact utf8EncodeChar_append_lt hlt _ _
          · exact List.append_left_lt (ih hlater)

theorem ofText_lt {text other : String} (h : text < other) : ofText text < ofText other :=
  flatMap_utf8EncodeChar_lt (String.lt_iff_toList_lt.mp h)

/-- Texts are in order as their bytes are. -/
theorem ofText_lt_iff {text other : String} : ofText text < ofText other ↔ text < other := by
  constructor
  · intro hbytes
    rcases lt_trichotomy text other with hlt | rfl | hgt
    · exact hlt
    · exact absurd hbytes (List.lt_irrefl _)
    · exact absurd (ofText_lt hgt) (List.lt_asymm hbytes)
  · exact ofText_lt

theorem ofText_inj {text other : String} : ofText text = ofText other ↔ text = other := by
  constructor
  · intro hbytes
    apply le_antisymm
    · rw [← not_lt]
      intro hgt
      exact List.lt_irrefl _ (hbytes ▸ ofText_lt hgt)
    · rw [← not_lt]
      intro hlt
      exact List.lt_irrefl _ (hbytes ▸ ofText_lt hlt)
  · exact congrArg ofText

/-! ## The zero byte -/

theorem zero_notMem_further (count v : Nat) : 0 ∉ further count v := by
  induction count with
  | zero => exact List.not_mem_nil
  | succ count ih =>
      rw [further, List.mem_cons]
      rintro (hzero | hlater)
      · have hnat := congrArg UInt8.toNat hzero
        rw [UInt8.toNat_ofNat', UInt8.toNat_zero] at hnat
        omega
      · exact ih hlater

theorem eq_zero_of_lead {v : Nat} (h : lead v = 0) : v = 0 := by
  unfold lead at h
  split_ifs at h
  exact h

theorem zero_mem_utf8EncodeChar {c : Char} : 0 ∈ String.utf8EncodeChar c ↔ c = '\x00' := by
  rw [utf8EncodeChar_eq, List.mem_cons]
  constructor
  · rintro (hlead | hfurther)
    · -- A zero leading byte is that of the character zero, and no further byte is zero.
      have hnat := congrArg UInt8.toNat hlead
      rw [UInt8.toNat_ofNat', UInt8.toNat_zero, Nat.mod_eq_of_lt (lead_lt (val_lt c))] at hnat
      exact Char.ext (UInt32.toNat_inj.mp (eq_zero_of_lead hnat.symm))
    · exact absurd hfurther (zero_notMem_further _ _)
  · rintro rfl
    exact Or.inl rfl

/-- Among the bytes of a text a zero byte stands for the character zero and nothing else. -/
theorem zero_mem_ofText {text : String} : 0 ∈ ofText text ↔ '\x00' ∈ text.toList := by
  rw [ofText, List.mem_flatMap]
  constructor
  · rintro ⟨c, hc, hzero⟩
    rwa [zero_mem_utf8EncodeChar.mp hzero] at hc
  · intro hc
    exact ⟨'\x00', hc, zero_mem_utf8EncodeChar.mpr rfl⟩

end Bytes
end SlotAuction
