import SlotAuction.Toml.Reader
import SlotAuction.Toml.Value

/-!
# Text — TOML strings

Four kinds: with escapes or literal, each on one line or on several.

* `Toml.Text.read` — a string of any kind;
* `Toml.Text.readLine` — a string on one line, as keys have it.
-/

namespace SlotAuction
namespace Toml
namespace Text

open Reader

/-! ## Escapes -/

/-- A character by its number, in so many hexadecimal digits. -/
def codePoint (width : Nat) : Reader Char := do
  match Numeral.size? 16 (← take width) with
  | none => fail
  | some code =>
      -- Halves of surrogate pairs are no characters.
      if code.isValidChar then pure (Char.ofNat code) else fail

/-- What follows a backslash. -/
def escape : Reader Char := do
  match ← next with
  | 'b' => pure '\x08'
  | 't' => pure '\t'
  | 'n' => pure '\n'
  | 'f' => pure '\x0c'
  | 'r' => pure '\r'
  | 'e' => pure '\x1b'
  | '"' => pure '"'
  | '\\' => pure '\\'
  | 'x' => codePoint 2
  | 'u' => codePoint 4
  | 'U' => codePoint 8
  | _ => fail

/-! ## On one line -/

def basicLine : Nat → Reader (List Char)
  | 0 => fail
  | fuel + 1 => do
      match ← next with
      | '"' => pure []
      | '\\' => return (← escape) :: (← basicLine fuel)
      | c => if isPlain c then return c :: (← basicLine fuel) else fail

def literalLine : Reader (List Char) := do
  let body ← takeWhile fun c => isPlain c && c ≠ '\''
  exactly ['\'']
  pure body

def readLine : Reader String := do
  if ← tryExactly ['"'] then
    return .ofList (← bounded basicLine)
  else
    exactly ['\'']
    return .ofList (← literalLine)

/-! ## On several lines -/

/-- Quotes within or at the end of a string on several lines.  Fewer than three belong to it; three
close it, and up to two before them belong to it.  The flag tells whether it is closed. -/
def quotes (quote : Char) : Reader (List Char × Bool) := do
  let run ← takeWhile (· = quote)
  if run.length < 3 then pure (run, false)
  else if run.length ≤ 5 then pure (run.drop 3, true)
  else fail

/-- Blanks and line ends after a backslash at the end of a line. -/
def foldedLines : Nat → Reader Unit
  | 0 => fail
  | fuel + 1 => do
      blanks
      if ← newline then foldedLines fuel

/-- Whether nothing but blanks is left of the line. -/
def atLineEnd : Reader Bool := fun text =>
  match text.dropWhile isBlank with
  | '\n' :: _ => some (true, text)
  | '\r' :: '\n' :: _ => some (true, text)
  | _ => some (false, text)

def lines (quote : Char) (escapes : Bool) : Nat → Reader (List Char)
  | 0 => fail
  | fuel + 1 => do
      if (← peek?) = some quote then
        match ← quotes quote with
        | (run, true) => pure run
        | (run, false) => return run ++ (← lines quote escapes fuel)
      else if ← newline then
        return '\n' :: (← lines quote escapes fuel)
      else
        let c ← next
        if c = '\\' && escapes then
          if ← atLineEnd then
            bounded foldedLines
            lines quote escapes fuel
          else
            return (← escape) :: (← lines quote escapes fuel)
        else if isPlain c then
          return c :: (← lines quote escapes fuel)
        else fail

/-- The lines of a string, less a line end right after the opening quotes. -/
def readLines (quote : Char) (escapes : Bool) : Reader String := do
  discard newline
  return .ofList (← bounded (lines quote escapes))

def read : Reader String := do
  if ← tryExactly ['"', '"', '"'] then readLines '"' true
  else if ← tryExactly ['\'', '\'', '\''] then readLines '\'' false
  else readLine

end Text
end Toml
end SlotAuction
