import SlotAuction.Toml.Bare
import SlotAuction.Toml.Table

/-!
# Document — a whole TOML text

A document is a sequence of statements, one a line: a key with its value, or the header of the table
to which the keys after it belong.

* `Toml.Document.value` — any value; lists and braces may be nested up to `maxNesting`;
* `Toml.Document.Statement` — one line;
* `Toml.Document.ofText?` — the entries of the document.
-/

namespace SlotAuction
namespace Toml
namespace Document

open Reader

/-! ## Keys -/

def isInBareKey (c : Char) : Bool :=
  c.isAlphanum || c = '_' || c = '-'

def simpleKey : Reader String := do
  match ← peek? with
  | some '"' => Text.readLine
  | some '\'' => Text.readLine
  | _ =>
      match ← takeWhile isInBareKey with
      | [] => fail
      | key => pure (.ofList key)

/-- A key with its path: the keys before the last point, and the one after it. -/
structure Key where
  path : List String
  last : String
  deriving DecidableEq

def keyLoop : Nat → Reader Key
  | 0 => fail
  | fuel + 1 => do
      blanks
      let first ← simpleKey
      blanks
      if ← tryExactly ['.'] then
        let rest ← keyLoop fuel
        pure ⟨first :: rest.path, rest.last⟩
      else
        pure ⟨[], first⟩

/-- How many parts a dotted key may have. -/
def maxParts : Nat := 80

/-- A key, dotted or not, and the blanks around it. -/
def key : Reader Key := do
  let key ← bounded keyLoop
  if key.path.length < maxParts then pure key else fail

/-! ## Values -/

/-- How deep lists and braces may be nested. -/
def maxNesting : Nat := 80

mutual

/-- A value in which lists and braces may be nested up to `room`. -/
def valueLoop : Nat → Nat → Reader Value
  | 0, _ => fail
  | fuel + 1, room => do
      match ← peek? with
      | some '"' => return .text (← Text.read)
      | some '\'' => return .text (← Text.read)
      | some '[' =>
          discard next
          match room with
          | 0 => fail
          | room + 1 => return .list (← itemLoop fuel room)
      | some '\x7b' =>
          discard next
          match room with
          | 0 => fail
          | room + 1 => return .table .inline (← entryLoop fuel room [])
      | _ => Bare.read

/-- The items up to the closing bracket, the first of which comes next. -/
def itemLoop : Nat → Nat → Reader (List Value)
  | 0, _ => fail
  | fuel + 1, room => do
      gap
      if ← tryExactly [']'] then pure []
      else
        let item ← valueLoop fuel room
        gap
        if ← tryExactly [','] then
          return item :: (← itemLoop fuel room)
        else
          exactly [']']
          pure [item]

/-- The entries up to the closing brace, added to those before them. -/
def entryLoop : Nat → Nat → Entries → Reader Entries
  | 0, _, _ => fail
  | fuel + 1, room, entries => do
      gap
      if ← tryExactly ['\x7d'] then pure entries
      else
        let key ← key
        gap
        exactly ['=']
        gap
        let value ← valueLoop fuel room
        gap
        match entries.addValue? key.path key.last value .inline with
        | none => fail
        | some entries =>
            if ← tryExactly [','] then entryLoop fuel room entries
            else
              exactly ['\x7d']
              pure entries

end

def value : Reader Value :=
  bounded (valueLoop · maxNesting)

/-! ## Statements -/

inductive Statement where
  | entry (key : Key) (value : Value)
  | header (key : Key)
  | listedHeader (key : Key)

/-- One statement, without the end of its line. -/
def statement : Reader Statement := do
  if ← tryExactly ['[', '['] then
    let key ← key
    exactly [']', ']']
    pure (.listedHeader key)
  else if ← tryExactly ['['] then
    let key ← key
    exactly [']']
    pure (.header key)
  else
    let key ← key
    exactly ['=']
    blanks
    return .entry key (← value)

def statementLoop : Nat → Reader (List Statement)
  | 0 => fail
  | fuel + 1 => do
      gap
      if (← peek?).isNone then pure []
      else
        let first ← statement
        lineEnd
        return first :: (← statementLoop fuel)

/-! ## Documents -/

/-- The entries so far, and the path of the table to which keys belong. -/
structure State where
  entries : Entries
  current : List String

namespace State

def start : State := ⟨[], []⟩

def addEntry? (s : State) (key : Key) (value : Value) : Option State :=
  let change (origin : Origin) (entries : Entries) : Option Entries :=
    entries.addValue? key.path key.last value origin
  (s.entries.alter? false change s.current .header).map (⟨·, s.current⟩)

def add? (s : State) : Statement → Option State
  | .entry key value => s.addEntry? key value
  | .header key =>
      (s.entries.addTable? key.path key.last).map (⟨·, key.path ++ [key.last]⟩)
  | .listedHeader key =>
      (s.entries.addListed? key.path key.last).map (⟨·, key.path ++ [key.last]⟩)

end State

def ofStatements? (statements : List Statement) : Option Entries :=
  (statements.foldlM State.add? State.start).map State.entries

/-- The text without a byte order mark at its front. -/
def withoutMark : List Char → List Char
  | '\uFEFF' :: rest => rest
  | text => text

/-- The entries of a document; none if it is malformed. -/
def ofText? (text : String) : Option Entries := do
  let (statements, _) ← bounded statementLoop (withoutMark text.toList)
  ofStatements? statements

end Document
end Toml
end SlotAuction
