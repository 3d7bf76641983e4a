import SlotAuction.CommandLine

/-!
# Main — the program

Reads the settings file, if one is named, and prints the text or the error.
-/

namespace SlotAuction

/-- Reads a file, with what went wrong as a value. -/
def readFile (path : String) : IO (Except Settings.ReadFailure ByteArray) := do
  try
    if ← (System.mkFilePath [path]).isDir then return .error .isFolder
    return .ok (← IO.FS.readBinFile path)
  catch failure =>
    match failure with
    | .noFileOrDirectory .. => return .error .missing
    | other => return .error (.other (toString other))

end SlotAuction

open SlotAuction in
def main (arguments : List String) : IO UInt32 := do
  let contents ← match CommandLine.settingsPath? arguments with
    | some path => readFile path
    | none => pure (.error .missing)
  let result := CommandLine.run (fun _ => contents) arguments
  match result with
  | .ok text => IO.print text
  | .error failure => IO.eprintln failure.message
  return CommandLine.exitCode result
