/-!
# Digit — decimal digits

* `Digit.ofChar?`, `Digit.toChar` — a digit as an ASCII character;
* `Digit.append`, `Digit.number` — the numbers that rows of digits write.
-/

namespace SlotAuction

abbrev Digit := Fin 10

namespace Digit

/-- The value of an ASCII digit. -/
def ofChar? (c : Char) : Option Digit :=
  if h : '0'.toNat ≤ c.toNat ∧ c.toNat - '0'.toNat < 10 then
    some ⟨c.toNat - '0'.toNat, h.2⟩
  else
    none

def toChar (d : Digit) : Char :=
  Nat.digitChar d.val

theorem ofChar?_toChar (d : Digit) : ofChar? d.toChar = some d := by
  revert d
  decide

/-- A number with further digits after it, most significant first. -/
def append (start : Nat) (digits : List Digit) : Nat :=
  digits.foldl (fun n d => 10 * n + d.val) start

/-- The number that digits write, most significant first. -/
def number (digits : List Digit) : Nat :=
  append 0 digits

end Digit
end SlotAuction
