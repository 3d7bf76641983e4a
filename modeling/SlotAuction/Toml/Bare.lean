import SlotAuction.Toml.Text

/-!
# Bare — TOML values that are written without quotes or brackets

Truth values, integers, floating-point numbers, dates and times.  Each is a run of characters up to a
line end, a bracket or another sign of the grammar, which is read first and then classed.

* `Toml.Bare.value?` — the value of a run;
* `Toml.Bare.read` — a run at the front of a text, and its value.
-/

namespace SlotAuction
namespace Toml
namespace Bare

def isDigit (c : Char) : Bool :=
  (Digit.ofChar? c).isSome

def isHexDigit (c : Char) : Bool :=
  (Numeral.digit? 16 c).isSome

/-- A sign, if there is one. -/
def sign? : List Char → Option Char × List Char
  | '-' :: rest => (some '-', rest)
  | '+' :: rest => (some '+', rest)
  | rest => (none, rest)

/-! ## Separators -/

/-- The parts of a run between underscores. -/
def parts : List Char → List (List Char)
  | [] => [[]]
  | c :: rest =>
      if c = '_' then [] :: parts rest
      else
        match parts rest with
        | [] => [[c]]
        | part :: later => (c :: part) :: later

/-- Are the parts after an underscore in order?  Each starts with a digit of a kind, and all but the
last one also end with one. -/
def laterPartsFit (kind : Char → Bool) : List (List Char) → Bool
  | [] => true
  | [part] => part.head?.any kind
  | part :: later => part.head?.any kind && part.getLast?.any kind && laterPartsFit kind later

/-- Do underscores stand between digits only?  What is left between these digits is not looked at. -/
def separatorsFit (kind : Char → Bool) (run : List Char) : Bool :=
  match parts run with
  | [] => true
  | [_] => true
  | first :: later =>
      first.getLast?.any kind && laterPartsFit kind later

def withoutSeparators (run : List Char) : List Char :=
  run.filter (· ≠ '_')

/-! ## Integers -/

/-- Digits of a radix after its mark, of which there may be none. -/
def inRadix? (radix : Nat) (digits : List Char) : Option Numeral :=
  let isOfRadix (c : Char) : Bool := (Numeral.digit? radix c).isSome
  if digits.all (fun c => isOfRadix c || c = '_') && separatorsFit isOfRadix digits then
    some ⟨radix, withoutSeparators digits⟩
  else none

/-- A decimal integer, which may have a sign.  A run that starts like one with separators is taken
for one, whatever stands among them. -/
def decimal? (run body : List Char) : Option Numeral :=
  if body.head? = some '0' && body ≠ ['0'] then none
  else if separatorsFit isHexDigit run then some ⟨10, withoutSeparators run⟩
  else none

/-! ## Floating-point numbers -/

/-- Digits with underscores among them; there must be a digit at least. -/
def places? (part : List Char) : Option (List Digit) :=
  if part.all (fun c => isDigit c || c = '_') && part.any isDigit then
    some (part.filterMap Digit.ofChar?)
  else none

/-- The digits before the point, which do not start with a needless zero. -/
def whole? (part : List Char) : Option (List Digit) := do
  let digits ← places? part
  if part.head? = some '0' ∧ 1 < digits.length then none else pure digits

/-- The power of ten after its mark; without a mark it is zero. -/
def power? : List Char → Option Int
  | [] => some 0
  | _ :: part =>
      let (sign, size) := sign? part
      (places? size).map fun digits =>
        if sign = some '-' then -(Digit.number digits : Int) else Digit.number digits

/-- Digits, a point with digits or a power of ten or both. -/
def unsignedReal? (negative : Bool) (body : List Char) : Option Real := do
  let isMark (c : Char) : Bool := c = 'e' || c = 'E'
  let base := body.takeWhile (!isMark ·)
  let power ← power? (body.dropWhile (!isMark ·))
  let whole ← whole? (base.takeWhile (· ≠ '.'))
  let fraction ← match base.dropWhile (· ≠ '.') with
    | [] => pure []
    | _ :: part => places? part
  pure (.number negative (Digit.number (whole ++ fraction)) (power - fraction.length))

def real? (run body : List Char) (negative : Bool) : Option Real :=
  if separatorsFit isDigit run then unsignedReal? negative body else none

/-! ## Dates and times -/

/-- A number in so many digits, and what follows it. -/
def fixed? (width : Nat) (word : List Char) : Option (Nat × List Char) := do
  if word.length < width then none
  else
    let digits ← (word.take width).mapM Digit.ofChar?
    pure (Digit.number digits, word.drop width)

def after? (mark : Char) : List Char → Option (List Char)
  | [] => none
  | c :: rest => if c = mark then some rest else none

def date? (word : List Char) : Option (Date × List Char) := do
  let (year, word) ← fixed? 4 word
  let (month, word) ← fixed? 2 (← after? '-' word)
  let (day, word) ← fixed? 2 (← after? '-' word)
  let date : Date := ⟨year, month, day⟩
  if date.isValid then pure (date, word) else none

/-- Digits after a point, of which there is one at least. -/
def fraction? : List Char → Option (List Digit × List Char)
  | '.' :: word =>
      match word.takeWhile isDigit with
      | [] => none
      | digits => (digits.mapM Digit.ofChar?).map (·, word.dropWhile isDigit)
  | word => some ([], word)

/-- Hours and minutes; the seconds may be missing. -/
def time? (word : List Char) : Option (Time × List Char) := do
  let (hour, word) ← fixed? 2 word
  let (minute, word) ← fixed? 2 (← after? ':' word)
  let (second, fraction, word) ← match word with
    | ':' :: word => do
        let (second, word) ← fixed? 2 word
        let (fraction, word) ← fraction? word
        pure (second, fraction, word)
    | word => pure (0, [], word)
  let time : Time := ⟨hour, minute, second, fraction⟩
  if time.isValid then pure (time, word) else none

def offset? : List Char → Option (Option Offset)
  | [] => some none
  | ['Z'] => some (some .utc)
  | ['z'] => some (some .utc)
  | '+' :: word => (clock? word).map fun (hours, minutes) => some (.ahead hours minutes)
  | '-' :: word => (clock? word).map fun (hours, minutes) => some (.behind hours minutes)
  | _ => none
where
  clock? (word : List Char) : Option (Nat × Nat) := do
    let (hours, word) ← fixed? 2 word
    let (minutes, word) ← fixed? 2 (← after? ':' word)
    if word = [] ∧ hours ≤ 23 ∧ minutes ≤ 59 then pure (hours, minutes) else none

def moment? (word : List Char) : Option Moment :=
  match date? word with
  | some (date, []) => some (.date date)
  | some (date, mark :: word) => do
      if mark ∈ ['T', 't', ' '] then
        let (time, word) ← time? word
        pure (.dateTime date time (← offset? word))
      else none
  | none =>
      match time? word with
      | some (time, []) => some (.time time)
      | _ => none

/-! ## Numbers -/

/-- A run that is, after its sign, neither in a radix nor a word.  What follows the first digits
decides what it is; only a moment may have a space in it. -/
def decimalOrMoment? (run body : List Char) (negative : Bool) : Option Value :=
  let rest := body.dropWhile isDigit
  match rest with
  | [] => if body = [] then none else (decimal? run body).map .integer
  | '-' :: _ => (moment? run).map .moment
  | ':' :: _ => (moment? run).map .moment
  | first :: _ =>
      if ' ' ∈ rest then none
      else if rest.any (fun c => c = '.' || c = 'e' || c = 'E') then
        (real? run body negative).map .real
      else if first = '_' then (decimal? run body).map .integer
      else none

def number? (run : List Char) : Option Value :=
  let (sign, body) := sign? run
  match sign, body with
  | none, '0' :: 'x' :: digits => (inRadix? 16 digits).map .integer
  | none, '0' :: 'o' :: digits => (inRadix? 8 digits).map .integer
  | none, '0' :: 'b' :: digits => (inRadix? 2 digits).map .integer
  | sign, ['i', 'n', 'f'] => some (.real (.infinity (sign == some '-')))
  | _, ['n', 'a', 'n'] => some (.real .notANumber)
  | sign, body => decimalOrMoment? run body (sign == some '-')

/-! ## Runs -/

def value? (run : List Char) : Option Value :=
  if run = ['t', 'r', 'u', 'e'] then some (.truth true)
  else if run = ['f', 'a', 'l', 's', 'e'] then some (.truth false)
  else number? run

/-- Whether a run may hold the character anywhere. -/
def isInRun (c : Char) : Bool :=
  c ∉ [' ', '\t', '\n', '\r', '#', '=', ',', '[', ']', '\x7b', '\x7d']

/-- Does the run go on behind the blanks?  A quotation mark would start another value there. -/
def goesOn : Reader Bool := fun text =>
  let continues (c : Char) : Bool := isInRun c && c ≠ '"' && c ≠ '\''
  some ((text.dropWhile Reader.isBlank).head?.any continues, text)

/-- A run takes in the blanks between its parts, such as the space between a date and a time, but
not the blanks after the last part. -/
def runLoop : Nat → Reader (List Char)
  | 0 => Reader.fail
  | fuel + 1 => do
      let part ← Reader.takeWhile isInRun
      if ← goesOn then
        let between ← Reader.takeWhile Reader.isBlank
        return part ++ between ++ (← runLoop fuel)
      else pure part

def readRun : Reader (List Char) :=
  Reader.bounded runLoop

def read : Reader Value := do
  match value? (← readRun) with
  | some value => pure value
  | none => Reader.fail

end Bare
end Toml
end SlotAuction
