import SlotAuction.Candidate.Ranking
import SlotAuction.Scratch.Buffer

/-!
# Exchange — weak bundles given up for singles of the tail

The winners are taken up weakest first, up to the first single.  A bundle is exchanged when the tail
holds, for each of its parts, a single of its own that names the same placement.

* `Marks` — which entries of the tail are taken, and those found for the bundle at hand;
* `Marks.cover` — looks for singles to stand in for a bundle, and undoes the search if they do not
  suffice;
* `Exchange` — the winners afterwards.
-/

namespace SlotAuction

/-! ## Marks over the tail -/

structure Marks where
  /-- For each entry of the tail, whether it is taken. -/
  taken : Buffer Bool
  /-- Positions of the entries found for one bundle. -/
  found : Buffer Nat

namespace Marks

/-- The first single of the tail that is not taken and names the placement. -/
def firstFree (tail : List Candidate) (taken : List Bool) (placement : String) : Option Nat :=
  (tail.zip taken).findIdx? fun (c, used) => !used && (c.isSingle && c.placement == placement)

/-- Takes a single for each part that one is left for. -/
def search (tail : List Candidate) : List Candidate → Marks → Marks
  | [], marks => marks
  | part :: parts, marks =>
      match firstFree tail marks.taken.cells part.placement with
      | some position =>
          search tail parts ⟨marks.taken.set position true, marks.found.push position⟩
      | none => search tail parts marks

/-- Frees the entries at the given positions. -/
def release (taken : Buffer Bool) : List Nat → Buffer Bool
  | [] => taken
  | position :: rest => release (taken.set position false) rest

/-- Looks for as many singles as the bundle counts.  If there are not so many, what was taken is
released and nothing remains found. -/
def cover (tail : List Candidate) (b : Bundle) (marks : Marks) : Bool × Marks :=
  let after := search tail b.parts marks
  if after.found.cells ≠ [] ∧ after.found.length = b.count.toNat then (true, after)
  else (false, ⟨release after.taken after.found.cells, after.found.clear⟩)

/-- The entries of the tail at the positions found. -/
def covering (tail : List Candidate) (marks : Marks) : List Candidate :=
  marks.found.cells.filterMap fun position => tail[position]?

end Marks

/-! ## The walk over the winners -/

structure Exchange where
  /-- The winners walked over, with the first stand-in at the place of each bundle given up. -/
  kept : List Candidate
  /-- The other stand-ins, in the order of the exchanges. -/
  added : List Candidate
  replaced : Nat
  marks : Marks

namespace Exchange

/-- The winners after the walk. -/
def winners (e : Exchange) : List Candidate :=
  e.kept ++ e.added

/-- Nothing is exchanged any more. -/
def stop (winners : List Candidate) (marks : Marks) : Exchange :=
  ⟨winners, [], 0, marks⟩

/-- A winner that keeps its place, before a later walk. -/
def keep (winner : Candidate) (later : Exchange) : Exchange :=
  { later with kept := winner :: later.kept }

/-- A bundle that gives its place to the first of its stand-ins, before a later walk. -/
def replace (standIn : Candidate) (others : List Candidate) (later : Exchange) : Exchange :=
  { later with
    kept := standIn :: later.kept
    added := others ++ later.added
    replaced := later.replaced + 1 }

/-- `available` is the number of entries of the tail that are not taken. -/
def walk (tail : List Candidate) : List Candidate → Nat → Marks → Exchange
  | [], _, marks => stop [] marks
  | winner :: rest, available, marks =>
      if available = 0 then stop (winner :: rest) marks
      else
        match winner.bundle? with
        | none => stop (winner :: rest) marks
        | some b =>
            if available < b.count.toNat then keep winner (walk tail rest available marks)
            else
              -- What was found for the bundle before is of no concern to this one.
              let tried := Marks.cover tail b ⟨marks.taken, marks.found.clear⟩
              match tried.1, Marks.covering tail tried.2 with
              | true, standIn :: others =>
                  replace standIn others
                    (walk tail rest (available - tried.2.found.length) tried.2)
              | _, _ => keep winner (walk tail rest available tried.2)

/-- Exchanges bundles among the winners of a fill, with buffers for the marks. -/
def ofFill (tail winners : List Candidate) (taken : Buffer Bool) (found : Buffer Nat) : Exchange :=
  walk tail (Candidate.sortForExchange winners) tail.length
    ⟨taken.resize tail.length false, found⟩

end Exchange
end SlotAuction
