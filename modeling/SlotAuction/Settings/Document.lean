import SlotAuction.Settings.Basic
import SlotAuction.Toml.Document

/-!
# Settings document — settings written in TOML

```toml
replacement = true

[pool]
max_idle = 64
max_retained = 4096
```

What is not said has its default, and keys that are not known are passed over.  The limits may also be
a list, which gives them in the order above.

* `Settings.ofEntries?` — what a document says;
* `Settings.ofText` — settings from a document, checked for faults.
-/

namespace SlotAuction
namespace Settings

open scoped Arithmetic

open Toml (Value Entries)

/-! ## Values -/

mutual

/-- Can the value be taken in without loss, so that it may be passed over?  Integers have 128 bits
with a sign or without, and floating-point numbers must not overflow. -/
def isSound : Value → Bool
  | .integer n => n.value?.any fun n => -(2 ^ 127 : Int) ≤ n && n < 2 ^ 128
  | .real x => x.isFaithful
  | .list items => areSound items
  | .tables items => areSound items
  | .table _ entries => areSoundEntries entries
  | .text _ => true
  | .truth _ => true
  | .moment _ => true

def areSound : List Value → Bool
  | [] => true
  | item :: items => isSound item && areSound items

def areSoundEntries : List (String × Value) → Bool
  | [] => true
  | (_, value) :: entries => isSound value && areSoundEntries entries

end

def truth? : Value → Option Bool
  | .truth b => some b
  | _ => none

/-- A count of 64 bits. -/
def count? : Value → Option Nat
  | .integer n => (n.value?.filter fun n => 0 ≤ n ∧ n < 2 ^ (64 : Nat)).map Int.toNat
  | _ => none

/-- The value under a key, read in a given way, or else a default. -/
def field? {α : Type} (entries : Entries) (key : String) (read? : Value → Option α) (default : α) :
    Option α :=
  match entries.lookup key with
  | none => some default
  | some value => read? value

/-- Are all values sound that stand under keys other than the given ones? -/
def othersAreSound (entries : Entries) (known : List String) : Bool :=
  areSoundEntries (entries.filter fun entry => entry.1 ∉ known)

/-! ## Settings -/

def limitsOfEntries? (entries : Entries) : Option Limits := do
  let maxIdle ← field? entries "max_idle" count? defaults.limits.maxIdle
  let maxRetained ← field? entries "max_retained" count? defaults.limits.maxRetained
  if othersAreSound entries ["max_idle", "max_retained"] then pure ⟨maxIdle, maxRetained⟩ else none

def limitsOfItems? : List Value → Option Limits
  | [] => some defaults.limits
  | [maxIdle] => (count? maxIdle).map (⟨·, defaults.limits.maxRetained⟩)
  | maxIdle :: maxRetained :: _ => do
      let maxIdle ← count? maxIdle
      let maxRetained ← count? maxRetained
      pure ⟨maxIdle, maxRetained⟩

/-- A date or a time counts as a table that says nothing of the limits. -/
def limits? : Value → Option Limits
  | .table _ entries => limitsOfEntries? entries
  | .list items => limitsOfItems? items
  | .tables items => limitsOfItems? items
  | .moment _ => some defaults.limits
  | _ => none

def ofEntries? (entries : Entries) : Option Settings := do
  let exchange ← field? entries "replacement" truth? defaults.exchange
  let limits ← field? entries "pool" limits? defaults.limits
  if othersAreSound entries ["replacement", "pool"] then pure ⟨exchange, limits⟩ else none

/-! ## Errors -/

/-- Why the bytes of a file could not be had as text. -/
inductive ReadFailure where
  | missing
  | isFolder
  | throughFile
  | notText
  | other (reason : String)
  deriving DecidableEq

namespace ReadFailure

def message : ReadFailure → String
  | .missing => "No such file or directory (os error 2)"
  | .isFolder => "Is a directory (os error 21)"
  | .throughFile => "Not a directory (os error 20)"
  | .notText => "stream did not contain valid UTF-8"
  | .other reason => reason

end ReadFailure

inductive Error where
  /-- The document is malformed, or a value has the wrong kind or size. -/
  | malformed
  | faulty (fault : Fault)
  | unreadable (path : String) (failure : ReadFailure)
  deriving DecidableEq

namespace Fault

def message : Fault → String
  | .keepsNoBuffer => "pool.max_idle must be at least 1"
  | .retainsNoCell => "pool.max_retained must be at least 1"

end Fault

namespace Error

def message : Error → String
  | .malformed => "failed to parse referee config"
  | .faulty fault => "invalid referee config: " ++ fault.message
  | .unreadable path failure =>
      "invalid referee config: cannot read " ++ path ++ ": " ++ failure.message

end Error

/-! ## Checked settings -/

def check (s : Settings) : Except Error Settings :=
  match s.fault? with
  | none => .ok s
  | some fault => .error (.faulty fault)

def ofText (text : String) : Except Error Settings :=
  match (Toml.Document.ofText? text).bind ofEntries? with
  | none => .error .malformed
  | some s => s.check

/-- Settings from what came of reading the file at a path. -/
def ofFile (path : String) (contents : Except ReadFailure ByteArray) : Except Error Settings :=
  match contents with
  | .error failure => .error (.unreadable path failure)
  | .ok bytes =>
      match String.fromUTF8? bytes with
      | none => .error (.unreadable path .notText)
      | some text => ofText text

end Settings
end SlotAuction
