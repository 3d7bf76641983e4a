import SlotAuction.Award
import SlotAuction.Outcome.Basic
import SlotAuction.Shuffle

/-!
# Auction — a pool of candidates, awarded again and again

An auction collects candidates.  The first award after candidates were added shuffles the pool and
ranks it for the fill; the ranking is stable, so the shuffle settles ties and nothing else.

* `Auction.push`, `Auction.pushOne` — add candidates, of which nothing is checked;
* `Auction.award`, `Auction.awardRequest` — winners for placements;
* `Auction.report` — winners with the outcome;
* `arrange_perm` — arranging keeps the candidates.
-/

namespace SlotAuction

structure Auction (γ : Type) where
  settings : Settings
  /-- Where the words for the shuffle come from. -/
  source : γ
  pool : List Candidate
  /-- Whether the pool is shuffled and ranked. -/
  arranged : Bool

/-- Winners and the outcome of the award. -/
structure Report where
  winners : List Candidate
  outcome : Outcome

namespace Auction

variable {γ : Type}

/-! ## The pool -/

def start (settings : Settings) (source : γ) : Auction γ where
  settings := settings
  source := source
  pool := []
  arranged := false

/-- Adding no candidates counts as adding. -/
def push (auction : Auction γ) (candidates : List Candidate) : Auction γ :=
  { auction with pool := auction.pool ++ candidates, arranged := false }

def pushOne (auction : Auction γ) (candidate : Candidate) : Auction γ :=
  auction.push [candidate]

/-- The slots that the whole pool would take. -/
def capacity (auction : Auction γ) : UInt64 :=
  Candidate.totalCapacity auction.pool

variable [WordSource γ]

/-- Shuffles and ranks the pool, unless that was done since candidates were added. -/
def arrange (auction : Auction γ) : Auction γ :=
  if auction.arranged then auction
  else
    let shuffled := shuffle auction.pool auction.source
    { auction with
      pool := Candidate.sortForFill shuffled.1
      source := shuffled.2
      arranged := true }

theorem arrange_perm (auction : Auction γ) : auction.arrange.pool.Perm auction.pool := by
  unfold arrange
  split
  · exact .refl _
  · exact (List.mergeSort_perm ..).trans (shuffle_perm ..)

/-! ## Awards -/

/-- The result of an award, and the auction and the workspace after it. -/
structure Step (γ : Type) where
  award : Award
  auction : Auction γ
  workspace : Workspace

/-- Without placements or candidates there is nothing to award, and the pool is left as it is. -/
def step (auction : Auction γ) (placements : List Placement) (workspace : Workspace) : Step γ :=
  if placements.isEmpty || auction.pool.isEmpty then ⟨Award.nothing, auction, workspace⟩
  else
    let arranged := auction.arrange
    let result := Award.ofPool arranged.settings arranged.pool placements workspace
    ⟨result.1, arranged, result.2⟩

def award (auction : Auction γ) (placements : List Placement) (workspace : Workspace) :
    List Candidate × Auction γ × Workspace :=
  let step := auction.step placements workspace
  (step.award.winners, step.auction, step.workspace)

/-- An award with one placement for each impression of a request. -/
def awardRequest (auction : Auction γ) (request : Request) (workspace : Workspace) :
    List Candidate × Auction γ × Workspace :=
  auction.award request.placements workspace

def report (auction : Auction γ) (placements : List Placement) (workspace : Workspace) :
    Report × Auction γ × Workspace :=
  let step := auction.step placements workspace
  let winners := step.award.winners
  (⟨winners, Outcome.ofWinners placements step.auction.pool winners step.award.replaced⟩,
    step.auction, step.workspace)

end Auction
end SlotAuction
