import SlotAuction.Decimal.Basic
import SlotAuction.Digit

/-!
# Decimal text — reading and writing decimals

Written form: sign, whole part, and as many places as are needed, without trailing zeros.

Reading takes two forms.

* `Plain` — a sign, digits and at most one point; underscores may stand between the digits.
  `Plain.toDecimal?` takes in digits of the fraction as long as they fit; the first one that does
  not fit rounds, a half upward, and the rest have no influence.  In a short number
  (`Plain.shortBound`) an underscore after 28 places ends the fraction: no digit after it rounds.
* Scientific — a plain form, `e` or `E`, and an `Exponent`.
-/

namespace SlotAuction
namespace Decimal

open scoped Arithmetic

/-! ## Digits -/

/-- A character of a number: a digit, or an underscore among digits. -/
abbrev Place := Option Digit

def place? (c : Char) : Option Place :=
  if c = '_' then some none else (Digit.ofChar? c).map some

/-- The digits among places. -/
def digitsOf (places : List Place) : List Digit :=
  places.filterMap id

/-! ## Writing -/

/-- The places of `rest / 10 ^ scale` up to the last one that is not zero. -/
def places : Nat → Nat → List Digit
  | 0, _ => []
  | scale + 1, rest =>
      if rest = 0 then []
      else Fin.ofNat 10 (rest / 10 ^ scale) :: places scale (rest % 10 ^ scale)

/-- The written form of `size / 10 ^ scale`. -/
def renderSize (size scale : Nat) : List Char :=
  let whole := Nat.toDigits 10 (size / 10 ^ scale)
  match places scale (size % 10 ^ scale) with
  | [] => whole
  | fraction => whole ++ '.' :: fraction.map Digit.toChar

def render (d : Decimal) : String :=
  let size := renderSize d.size d.scale
  String.ofList (if d.negative then '-' :: size else size)

/-! ## Plain form -/

/-- A plain form taken apart. -/
structure Plain where
  negative : Bool
  whole : List Place
  fraction : List Place
  deriving DecidableEq

namespace Plain

/-- One sign, if there is one. -/
def sign : List Char → Bool × List Char
  | '-' :: cs => (true, cs)
  | '+' :: cs => (false, cs)
  | cs => (false, cs)

/-- A number starts with a digit, or with a point and a digit. -/
def starts : List Char → Bool
  | '.' :: c :: _ => (Digit.ofChar? c).isSome
  | c :: _ => (Digit.ofChar? c).isSome
  | [] => false

def ofChars? (cs : List Char) : Option Plain :=
  let (negative, body) := sign cs
  if starts body then
    let whole := body.takeWhile (· ≠ '.')
    let fraction := (body.dropWhile (· ≠ '.')).drop 1
    match whole.mapM place?, fraction.mapM place? with
    | some whole, some fraction => some ⟨negative, whole, fraction⟩
    | _, _ => none
  else
    none

/-- A number is short if its digits but the last one are below this bound, so that a word has room
for one digit more. -/
def shortBound : Nat := (2 ^ (64 : Nat) - 1) / 10 - (2 ^ (8 : Nat) - 1)

/-- Takes in places after `size / 10 ^ scale`: each that fits is kept, the first that does not
rounds a half upward, and no later one counts.  Underscores are passed over, but with all places
taken the first one after a short number ends it. -/
def takePlaces : List Place → Nat → Nat → Option (Nat × Nat)
  | [], size, scale => some (size, scale)
  | none :: rest, size, scale =>
      if scale = maxScale ∧ size / 10 < shortBound then some (size, scale)
      else takePlaces rest size scale
  | some d :: rest, size, scale =>
      if scale < maxScale ∧ 10 * size + d.val < sizeBound then
        takePlaces rest (10 * size + d.val) (scale + 1)
      else if d.val < 5 then some (size, scale)
      else if size + 1 < sizeBound then some (size + 1, scale)
      -- Rounding up reached the bound: one place fewer, or no decimal at all.
      else if scale = 0 then none
      else some ((size + 1 + 4) / 10, scale - 1)

/-- The decimal that is written; zero has no sign. -/
def toDecimal? (p : Plain) : Option Decimal :=
  let whole := Digit.number (digitsOf p.whole)
  if whole < sizeBound then
    match takePlaces p.fraction whole 0 with
    | some (size, scale) => ofParts? (p.negative && size != 0) size scale
    | none => none
  else
    none

end Plain

/-! ## Scientific form -/

/-- A power of ten: `10 ^ size`, or `10 ^ -size`. -/
structure Exponent where
  negative : Bool
  size : Nat
  deriving DecidableEq

namespace Exponent

/-- An optional minus, an optional plus, and digits alone. -/
def ofChars? (cs : List Char) : Option Exponent :=
  let (negative, cs) := match cs with
    | '-' :: cs => (true, cs)
    | cs => (false, cs)
  let cs := match cs with
    | '+' :: cs => cs
    | cs => cs
  if cs = [] then none
  else
    match cs.mapM Digit.ofChar? with
    | some digits =>
        if Digit.number digits < 2 ^ (32 : Nat) then some ⟨negative, Digit.number digits⟩ else none
    | none => none

end Exponent

/-- Moves the point.  Places past the last are rounded off, a half upward, and the sign is kept;
whole numbers that do not fit, and powers past the greatest scale, are refused. -/
def shift? (d : Decimal) (e : Exponent) : Option Decimal :=
  if e.negative then
    if maxScale < e.size then none
    else
      -- The places that there is no room for.
      let excess := d.scale + e.size - maxScale
      ofParts? d.negative (roundHalfUp d.size (10 ^ excess)) (d.scale + e.size - excess)
  else if e.size ≤ d.scale then ofParts? d.negative d.size (d.scale - e.size)
  else if maxScale < e.size then none
  else ofParts? d.negative (d.size * 10 ^ (e.size - d.scale)) 0

def ofPlainChars? (cs : List Char) : Option Decimal :=
  (Plain.ofChars? cs).bind Plain.toDecimal?

def ofScientificChars? (cs : List Char) : Option Decimal :=
  let isMark (c : Char) : Bool := c = 'e' || c = 'E'
  match cs.dropWhile (!isMark ·) with
  | [] => none
  | _ :: power =>
      match ofPlainChars? (cs.takeWhile (!isMark ·)), Exponent.ofChars? power with
      | some base, some e => base.shift? e
      | _, _ => none

def ofChars? (cs : List Char) : Option Decimal :=
  match ofPlainChars? cs with
  | some d => some d
  | none => ofScientificChars? cs

def read? (text : String) : Option Decimal :=
  ofChars? text.toList

end Decimal
end SlotAuction
