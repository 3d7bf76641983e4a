/-!
# Reader — reading TOML from the front of a text

A reader takes characters from the front of a text, and fails or leaves the rest.

* `Reader.next`, `Reader.exactly`, `Reader.takeWhile` — characters;
* `Reader.gap` — blanks, comments and line ends;
* `Reader.lineEnd` — what must follow a statement on its line.
-/

namespace SlotAuction
namespace Toml

abbrev Reader := StateT (List Char) Option

namespace Reader

variable {α : Type}

def fail : Reader α := fun _ => none

/-- A loop with as many rounds as there are characters left. -/
def bounded (loop : Nat → Reader α) : Reader α :=
  fun text => loop (2 * text.length + 3) text

/-! ## Characters -/

def peek? : Reader (Option Char) := fun text => some (text.head?, text)

def next : Reader Char
  | [] => none
  | c :: rest => some (c, rest)

/-- Takes the given characters if they stand at the front, and says whether it did. -/
def tryExactly (expected : List Char) : Reader Bool := fun text =>
  if expected.isPrefixOf text then some (true, text.drop expected.length) else some (false, text)

def exactly (expected : List Char) : Reader Unit := do
  if ← tryExactly expected then pure () else fail

def takeWhile (test : Char → Bool) : Reader (List Char) := fun text => some (text.span test)

def take (count : Nat) : Reader (List Char) := fun text =>
  if text.length < count then none else some (text.splitAt count)

/-! ## Between tokens -/

def isBlank (c : Char) : Bool :=
  c = ' ' || c = '\t'

/-- Control characters other than the tab are allowed nowhere. -/
def isPlain (c : Char) : Bool :=
  c = '\t' || (' ' ≤ c && c ≠ '\x7f')

def blanks : Reader Unit :=
  discard (takeWhile isBlank)

def comment : Reader Unit := do
  if ← tryExactly ['#'] then discard (takeWhile isPlain)

/-- A line end, if there is one. -/
def newline : Reader Bool := do
  if ← tryExactly ['\n'] then pure true else tryExactly ['\r', '\n']

def gapLoop : Nat → Reader Unit
  | 0 => fail
  | fuel + 1 => do
      blanks
      comment
      if ← newline then gapLoop fuel

/-- Blanks, comments and line ends, as many as there are. -/
def gap : Reader Unit :=
  bounded gapLoop

/-- Blanks and a comment up to the end of the line or of the text. -/
def lineEnd : Reader Unit := do
  blanks
  comment
  unless ← newline do
    if (← peek?).isSome then fail

end Reader
end Toml
end SlotAuction
