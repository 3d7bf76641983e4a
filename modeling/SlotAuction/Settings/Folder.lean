import SlotAuction.Settings.Document

/-!
# Folder — a tree of files as a value

* `Folder.Entry.read` — what reading the file at a path gives.
-/

namespace SlotAuction
namespace Folder

inductive Entry where
  | file (bytes : ByteArray)
  | folder (entries : List (String × Entry))

namespace Entry

open Settings (ReadFailure)

/-- Follows names into folders; `above` holds the folders on the way, the nearest first.  Above the
outermost folder there is nothing further. -/
def follow : List String → List Entry → Entry → Except ReadFailure Entry
  | [], _, entry => .ok entry
  | _ :: _, _, .file _ => .error .throughFile
  | name :: names, above, .folder entries =>
      if name = "" ∨ name = "." then follow names above (.folder entries)
      else if name = ".." then
        match above with
        | [] => follow names [] (.folder entries)
        | outer :: above => follow names above outer
      else
        match entries.lookup name with
        | none => .error .missing
        | some inner => follow names (.folder entries :: above) inner

/-- The names in a path, which slashes divide. -/
def names (path : String) : List String :=
  path.splitOn "/"

/-- The bytes of the file at a path.  A path that starts with a slash leads out of the tree, where
there is nothing but an empty folder. -/
def read (entry : Entry) (path : String) : Except ReadFailure ByteArray :=
  if path = "" then .error .missing
  else
    let start := if path.startsWith "/" then .folder [] else entry
    match follow (names path) [] start with
    | .error failure => .error failure
    | .ok (.folder _) => .error .isFolder
    | .ok (.file bytes) => .ok bytes

end Entry
end Folder
end SlotAuction
