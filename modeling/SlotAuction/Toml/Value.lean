import SlotAuction.Arithmetic
import SlotAuction.Digit

/-!
# Value — what a TOML document holds

* `Toml.Moment` — dates and times, with or without an offset;
* `Toml.Numeral` — integers as they are written;
* `Toml.Real` — floating-point numbers as they are written;
* `Toml.Value` — all values; a table knows how it came about, which decides what may be added to it.
-/

namespace SlotAuction
namespace Toml

open scoped Arithmetic

/-! ## Dates and times -/

structure Date where
  (year month day : Nat)
  deriving DecidableEq

namespace Date

def isLeap (year : Nat) : Bool :=
  year % 4 == 0 && (year % 100 != 0 || year % 400 == 0)

def daysIn (year month : Nat) : Nat :=
  if month = 2 then (if isLeap year then 29 else 28)
  else if month ∈ [4, 6, 9, 11] then 30
  else 31

/-- Is there such a day in the calendar? -/
def isValid (d : Date) : Bool :=
  1 ≤ d.month && d.month ≤ 12 && 1 ≤ d.day && d.day ≤ daysIn d.year d.month

end Date

structure Time where
  (hour minute second : Nat)
  fraction : List Digit
  deriving DecidableEq

namespace Time

/-- Is there such a time of day, a leap second included? -/
def isValid (t : Time) : Bool :=
  t.hour ≤ 23 && t.minute ≤ 59 && t.second ≤ 60

end Time

inductive Offset where
  | utc
  | ahead (hours minutes : Nat)
  | behind (hours minutes : Nat)
  deriving DecidableEq

inductive Moment where
  | date (date : Date)
  | time (time : Time)
  | dateTime (date : Date) (time : Time) (offset : Option Offset)
  deriving DecidableEq

/-! ## Integers -/

/-- An integer as it is written, without its separators.  What is written may turn out to be no
number in the radix; that is asked only when the number is (`Numeral.value?`). -/
structure Numeral where
  radix : Nat
  text : List Char
  deriving DecidableEq

namespace Numeral

/-- The value of a digit in a radix up to sixteen. -/
def digit? (radix : Nat) (c : Char) : Option Nat :=
  let value? :=
    if '0' ≤ c ∧ c ≤ '9' then some (c.toNat - '0'.toNat)
    else if 'a' ≤ c ∧ c ≤ 'f' then some (c.toNat - 'a'.toNat + 10)
    else if 'A' ≤ c ∧ c ≤ 'F' then some (c.toNat - 'A'.toNat + 10)
    else none
  value?.filter (· < radix)

/-- The number that digits write; there must be one at least. -/
def size? (radix : Nat) (digits : List Char) : Option Nat :=
  if digits = [] then none
  else (digits.mapM (digit? radix)).map fun values => values.foldl (fun n d => radix * n + d) 0

def value? (n : Numeral) : Option Int :=
  match n.text with
  | '-' :: digits => (size? n.radix digits).map fun size => -(size : Int)
  | '+' :: digits => (size? n.radix digits).map Int.ofNat
  | digits => (size? n.radix digits).map Int.ofNat

end Numeral

/-! ## Floating-point numbers -/

/-- A number `± coefficient * 10 ^ power`, or one of the two that have no digits. -/
inductive Real where
  | number (negative : Bool) (coefficient : Nat) (power : Int)
  | infinity (negative : Bool)
  | notANumber
  deriving DecidableEq

namespace Real

/-- Numbers from here on round to infinity in double precision. -/
def overflowBound : Nat := 2 ^ (1024 : Nat) - 2 ^ (970 : Nat)

/-- Does a number that is written with digits stay finite in double precision? -/
def isFaithful : Real → Bool
  | .number _ coefficient power =>
      let places := (Nat.toDigits 10 coefficient).length + power
      if coefficient = 0 || places < 300 then true
      else if 320 < places then false
      else if 0 ≤ power then coefficient * 10 ^ power.toNat < overflowBound
      else coefficient < overflowBound * 10 ^ (-power).toNat
  | .infinity _ => true
  | .notANumber => true

end Real

/-! ## Values -/

/-- How a table came about. -/
inductive Origin where
  /-- It has a header of its own. -/
  | header
  /-- Headers of tables below it imply it. -/
  | implied
  /-- A dotted key created it. -/
  | dotted
  /-- It is written between braces. -/
  | inline
  deriving DecidableEq

inductive Value where
  | text (text : String)
  | integer (n : Numeral)
  | real (x : Real)
  | truth (b : Bool)
  | moment (m : Moment)
  | list (items : List Value)
  /-- The tables of headers in double brackets. -/
  | tables (items : List Value)
  | table (origin : Origin) (entries : List (String × Value))

instance : Inhabited Value := ⟨.truth false⟩

/-- Keys with their values, in the order of the document. -/
abbrev Entries := List (String × Value)

end Toml
end SlotAuction
