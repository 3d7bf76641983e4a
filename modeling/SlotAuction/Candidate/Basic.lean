import SlotAuction.Amount

/-!
# Candidate — what bids for slots

A candidate is a single ad or a bundle.  A single ad takes one slot of one placement; a bundle takes
a slot for each of its parts, all of them or none.  Partners bring candidates of their own, which
state their bid and placement, and may state a count or capacity that their parts do not bear out.

* `Candidate.bundle?` — the view of a candidate as a bundle;
* `Candidate.slots` — placement and bid of every slot that the candidate takes;
* `Candidate.perSlotValue` — the bid per slot, on which candidates are ranked.
-/

namespace SlotAuction

open scoped Arithmetic

inductive Candidate where
  | ad (id placement : String) (bid : Amount) (rejection : Option String)
  | bundle (id : String) (parts : List Candidate)
  | partnerAd (id placement : String) (bid : Amount) (capacity : Option UInt64)
  | partnerBundle (id placement : String) (bid : Amount) (parts : List Candidate)
      (count capacity : Option UInt64)

/-- A candidate seen as a bundle: its parts, and how many it says there are. -/
structure Bundle where
  count : UInt64
  parts : List Candidate

namespace Candidate

instance : Inhabited Candidate := ⟨.bundle "" []⟩

def id : Candidate → String
  | .ad id _ _ _ => id
  | .bundle id _ => id
  | .partnerAd id _ _ _ => id
  | .partnerBundle id _ _ _ _ _ => id

/-! ## Bundles and singles -/

def bundle? : Candidate → Option Bundle
  | .ad _ _ _ _ => none
  | .bundle _ parts => some ⟨.ofNat parts.length, parts⟩
  | .partnerAd _ _ _ _ => none
  | .partnerBundle _ _ _ parts count _ => some ⟨count.getD (.ofNat parts.length), parts⟩

def isBundle (c : Candidate) : Bool :=
  c.bundle?.isSome

def isSingle (c : Candidate) : Bool :=
  c.bundle?.isNone

theorem isSingle_eq_not_isBundle (c : Candidate) : c.isSingle = !c.isBundle := by
  unfold isSingle isBundle
  cases c.bundle? <;> rfl

theorem not_isSingle_of_isBundle {c : Candidate} (h : c.isBundle = true) : ¬ c.isSingle = true := by
  rw [isSingle_eq_not_isBundle, h]
  exact Bool.false_ne_true

/-! ## Placement -/

mutual

/-- The placement that the candidate names; a bundle of ours names that of its first part. -/
def placement : Candidate → String
  | .ad _ placement _ _ => placement
  | .bundle _ parts => leadPlacement parts
  | .partnerAd _ placement _ _ => placement
  | .partnerBundle _ placement _ _ _ _ => placement

def leadPlacement : List Candidate → String
  | [] => ""
  | first :: _ => placement first

end

/-! ## Bid -/

mutual

/-- The whole bid; a bundle of ours bids the total of its parts. -/
def bid : Candidate → Amount
  | .ad _ _ bid _ => bid
  | .bundle _ parts => Amount.total (bids parts)
  | .partnerAd _ _ bid _ => bid
  | .partnerBundle _ _ bid _ _ _ => bid

def bids : List Candidate → List Amount
  | [] => []
  | c :: cs => bid c :: bids cs

end

theorem bids_eq_map (cs : List Candidate) : bids cs = cs.map bid := by
  induction cs with
  | nil => rfl
  | cons c cs ih => rw [bids, ih, List.map_cons]

/-! ## Slots -/

/-- How many slots the candidate says it takes. -/
def capacity (c : Candidate) : UInt64 :=
  let usual := match c.bundle? with
    | some b => b.count
    | none => 1
  match c with
  | .partnerAd _ _ _ capacity => capacity.getD usual
  | .partnerBundle _ _ _ _ _ capacity => capacity.getD usual
  | _ => usual

/-- The bid for each slot that the candidate says it takes. -/
def perSlotValue (c : Candidate) : Decimal :=
  c.bid.perSlot c.capacity

/-- One slot: the placement that it goes to, and what is bid for it. -/
abbrev Slot := String × Amount

def slot (c : Candidate) : Slot :=
  (c.placement, c.bid)

/-- The slots that an award of the candidate takes: its own, or one for each part. -/
def slots (c : Candidate) : List Slot :=
  match c.bundle? with
  | some b => b.parts.map slot
  | none => [c.slot]

/-- The capacities of a list together. -/
def totalCapacity (cs : List Candidate) : UInt64 :=
  (cs.map capacity).sum

end Candidate
end SlotAuction
