import SlotAuction.Toml.Value

/-!
# Table — adding to a TOML table

A document may define each table and each key once.  What counts as a second definition depends on
how the table came about (`Origin`), so that all additions go through `Entries.alter?`, which follows
a path of keys and refuses a table that is closed to it.

* `Entries.addValue?` — a key, which may be dotted, and its value;
* `Entries.addTable?` — a header in brackets;
* `Entries.addListed?` — a header in double brackets.
-/

namespace SlotAuction
namespace Toml

namespace Origin

/-- May a path lead through a table?  Never into braces, and a dotted key only through tables that
have no header. -/
def isOpen (viaDotted : Bool) : Origin → Bool
  | .inline => false
  | .header => !viaDotted
  | .implied => true
  | .dotted => true

end Origin

namespace Entries

/-- Another value under a key that is there. -/
def put (entries : Entries) (key : String) (value : Value) : Entries :=
  entries.map fun entry => if entry.1 = key then (key, value) else entry

def add (entries : Entries) (key : String) (value : Value) : Entries :=
  entries ++ [(key, value)]

/-- Makes a change to the table at the end of a path, and creates the tables on the way that are
missing.  Through a list of tables the path leads into the last one. -/
def alter? (viaDotted : Bool) (change : Origin → Entries → Option Entries) :
    List String → Origin → Entries → Option Entries
  | [], origin, entries => change origin entries
  | key :: path, _, entries =>
      match entries.lookup key with
      | none =>
          let origin := if viaDotted then .dotted else .implied
          (alter? viaDotted change path origin []).map fun inner =>
            add entries key (.table origin inner)
      | some (.table origin inner) =>
          if origin.isOpen viaDotted then
            (alter? viaDotted change path origin inner).map fun inner =>
              put entries key (.table origin inner)
          else none
      | some (.tables items) =>
          match items.getLast? with
          | some (.table origin inner) =>
              (alter? viaDotted change path origin inner).map fun inner =>
                put entries key (.tables (items.dropLast ++ [.table origin inner]))
          | _ => none
      | some _ => none

/-! ## The three ways to add -/

/-- A value under a key that is new.  A dotted key adds to a table that dotted keys created, and a
plain key to one that they did not. -/
def addHere? (dotted : Bool) (key : String) (value : Value) (origin : Origin) (entries : Entries) :
    Option Entries :=
  if (origin == .dotted) != dotted then none
  else if (entries.lookup key).isSome then none
  else some (add entries key value)

def addValue? (path : List String) (key : String) (value : Value) (origin : Origin)
    (entries : Entries) : Option Entries :=
  let dotted := !path.isEmpty
  alter? true (addHere? dotted key value) path origin entries

/-- A table that is new, or that was only implied so far. -/
def addTable? (path : List String) (key : String) (entries : Entries) : Option Entries :=
  let change (_ : Origin) (entries : Entries) : Option Entries :=
    match entries.lookup key with
    | none => some (add entries key (.table .header []))
    | some (.table .implied inner) => some (put entries key (.table .header inner))
    | some _ => none
  alter? false change path .header entries

/-- A further table in a list of tables, or the first one of a new list. -/
def addListed? (path : List String) (key : String) (entries : Entries) : Option Entries :=
  let change (_ : Origin) (entries : Entries) : Option Entries :=
    match entries.lookup key with
    | none => some (add entries key (.tables [.table .header []]))
    | some (.tables items) => some (put entries key (.tables (items ++ [.table .header []])))
    | some _ => none
  alter? false change path .header entries

end Entries
end Toml
end SlotAuction
