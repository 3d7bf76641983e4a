import SlotAuction.Auction

/-!
# Sample — one auction to look at

A page with three placements, a bundle that covers all of them, and four single ads.  No two
candidates tie, so the source of the shuffle does not matter.

* `Sample.text` — candidates, winners and outcome, line by line.
-/

namespace SlotAuction
namespace Sample

def request : Request :=
  ⟨[⟨"leaderboard", 2⟩, ⟨"sidebar", 1⟩, ⟨"footer", 1⟩]⟩

def takeover : Candidate :=
  .bundle "takeover"
    [.ad "takeover-lb" "leaderboard" (.ofUnits 3) none,
     .ad "takeover-sb" "sidebar" (.ofUnits 2) none,
     .ad "takeover-ft" "footer" (.ofUnits 1) none]

/-- Amounts are given as texts, and one that does not read is nothing. -/
def single (id placement bid : String) : Candidate :=
  .ad id placement ((Amount.parse? bid).getD .zero) none

def candidates : List Candidate :=
  [takeover,
   single "rtb-1" "leaderboard" "4.25",
   single "rtb-2" "leaderboard" "1.10",
   single "house-1" "sidebar" "0.50",
   single "house-2" "footer" "0.20"]

/-! ## Lines -/

/-- What a candidate gets, and what it bids for that. -/
def awardText (c : Candidate) : String :=
  c.id ++ " -> " ++ c.placement ++ " @ " ++ c.bid.render

def winnerLines (c : Candidate) : List String :=
  match c.bundle? with
  | none => ["  " ++ awardText c]
  | some b =>
      ("  " ++ c.id ++ " (bundle, " ++ toString b.count.toNat ++ " slots, " ++ c.bid.render ++ ")")
        :: b.parts.map fun part => "    - " ++ awardText part

def rule : String := "==========================================="

def titleLines : List String :=
  [rule, "  Ad Referee - sample auction", rule, ""]

def candidateLine (pool : List Candidate) : String :=
  "Candidates: " ++ toString pool.length ++ " (capacity " ++
    toString (Candidate.totalCapacity pool).toNat ++ ")"

def outcomeLines (o : Outcome) : List String :=
  ["Slots filled: " ++ toString o.slotsFilled.toNat ++ "/" ++ toString o.slotsRequested.toNat,
   "Total value:  " ++ o.value.render,
   "Outcome root: " ++ Bytes.hex o.root.toList]

def reportLines (pool : List Candidate) (report : Report) : List String :=
  titleLines ++ [candidateLine pool, "", "Winners:"] ++ report.winners.flatMap winnerLines ++
    "" :: outcomeLines report.outcome

/-- The whole text, a line end after each line. -/
def text (settings : Settings) : String :=
  let auction := (Auction.start settings (Scripted.start [] 0)).push candidates
  let report := (auction.report request.placements Workspace.empty).1
  String.join ((reportLines auction.pool report).map (· ++ "\n"))

end Sample
end SlotAuction
