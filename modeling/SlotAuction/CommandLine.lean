import SlotAuction.Sample
import SlotAuction.Settings.Document

/-!
# CommandLine — what the program does with its arguments

The first argument, if there is one, is the path of a settings file; others are ignored.  The program
prints the sample auction under these settings, or fails with a message and the exit code one.
-/

namespace SlotAuction
namespace CommandLine

def settingsPath? (arguments : List String) : Option String :=
  arguments.head?

/-- The text to print, given how files are read. -/
def run (read : String → Except Settings.ReadFailure ByteArray) (arguments : List String) :
    Except Settings.Error String :=
  match settingsPath? arguments with
  | none => .ok (Sample.text Settings.defaults)
  | some path => (Settings.ofFile path (read path)).map Sample.text

def exitCode {ε α : Type} : Except ε α → UInt32
  | .ok _ => 0
  | .error _ => 1

end CommandLine
end SlotAuction
