import SlotAuction.Proofs.Commitment

/-!
# Claim — the slots that a candidate says it takes, and those that it takes

A partner may state any count and any capacity for a bundle.  An award goes by the count where it
asks for room, and by the parts where it books it.

* `Candidate.claim` — the count of a bundle, and one for a single;
* `Candidate.Honest` — the claim is the number of slots that are taken;
* `Candidate.Plain` — the capacity is that number too;
* `Candidate.OneSlot` — a single whose capacity is one;
* `landing_of_bundle`, `landed_of_bundle`, `landing_of_single`, `landed_of_single` — where the slots
  of one candidate go.
-/

namespace SlotAuction

open Outcome (awardedSlots)
open Placement (landing landed)

namespace Candidate

/-- How many slots the candidate says it takes: the count of a bundle, and one for a single. -/
def claim (c : Candidate) : Nat :=
  match c.bundle? with
  | some b => b.count.toNat
  | none => 1

/-- The candidate claims as many slots as it takes. -/
def Honest (c : Candidate) : Prop :=
  c.claim = c.slots.length

instance (c : Candidate) : Decidable c.Honest :=
  inferInstanceAs (Decidable (_ = _))

/-- The candidate is honest, and its capacity is its claim. -/
structure Plain (c : Candidate) : Prop where
  honest : c.Honest
  capacity : c.capacity.toNat = c.claim

instance (c : Candidate) : Decidable c.Plain :=
  decidable_of_iff (c.Honest ∧ c.capacity.toNat = c.claim)
    ⟨fun h => ⟨h.1, h.2⟩, fun h => ⟨h.honest, h.capacity⟩⟩

/-- Plain candidates together have the capacity of their slots, as far as words go. -/
theorem totalCapacity_of_plain {cs : List Candidate} (h : ∀ c ∈ cs, c.Plain) :
    totalCapacity cs = .ofNat (awardedSlots cs).length := by
  induction cs with
  | nil => rfl
  | cons c cs ih =>
      have hc := h c (List.mem_cons_self ..)
      have hcapacity : c.capacity = .ofNat c.slots.length := by
        rw [← hc.honest, ← hc.capacity, UInt64.ofNat_toNat]
      have hrest : totalCapacity cs = .ofNat (awardedSlots cs).length :=
        ih fun d hd => h d (List.mem_cons_of_mem _ hd)
      rw [awardedSlots_cons, List.length_append, UInt64.ofNat_add, ← hrest, ← hcapacity]
      rfl

theorem claim_of_bundle {c : Candidate} {b : Bundle} (h : c.bundle? = some b) :
    c.claim = b.count.toNat := by
  simp [claim, h]

theorem claim_of_single {c : Candidate} (h : c.bundle? = none) : c.claim = 1 := by
  simp [claim, h]

theorem slots_of_bundle {c : Candidate} {b : Bundle} (h : c.bundle? = some b) :
    c.slots = b.parts.map slot := by
  simp [slots, h]

theorem slots_of_single {c : Candidate} (h : c.bundle? = none) : c.slots = [c.slot] := by
  simp [slots, h]

/-- A single that takes one slot, as singles do unless a partner says otherwise. -/
structure OneSlot (c : Candidate) : Prop where
  single : c.isSingle = true
  capacity : c.capacity = 1

instance (c : Candidate) : Decidable c.OneSlot :=
  decidable_of_iff (c.isSingle = true ∧ c.capacity = 1)
    ⟨fun h => ⟨h.1, h.2⟩, fun h => ⟨h.single, h.capacity⟩⟩

theorem OneSlot.bundle?_eq_none {c : Candidate} (h : c.OneSlot) : c.bundle? = none :=
  Option.isNone_iff_eq_none.mp h.single

theorem OneSlot.plain {c : Candidate} (h : c.OneSlot) : c.Plain where
  honest := by
    rw [Honest, claim_of_single h.bundle?_eq_none, slots_of_single h.bundle?_eq_none]
    rfl
  capacity := by
    rw [h.capacity, claim_of_single h.bundle?_eq_none]
    rfl

end Candidate

section

variable {placements : List Placement} {c : Candidate}

theorem landing_of_bundle {b : Bundle} (h : c.bundle? = some b) (position : Nat) :
    landing placements position [c] = Booking.hits placements b.parts position := by
  rw [landing, awardedSlots_singleton, Candidate.slots_of_bundle h, List.countP_map]
  rfl

theorem landed_of_bundle {b : Bundle} (h : c.bundle? = some b) :
    landed placements [c] = Booking.located placements b.parts := by
  rw [landed, awardedSlots_singleton, Candidate.slots_of_bundle h, List.countP_map]
  rfl

theorem landing_of_single (h : c.bundle? = none) (position : Nat) :
    landing placements position [c] =
      if Placement.locate placements c.placement = some position then 1 else 0 := by
  simp [landing, Candidate.slots_of_single h, Candidate.slot]

theorem landed_of_single (h : c.bundle? = none) :
    landed placements [c] = if (Placement.locate placements c.placement).isSome then 1 else 0 := by
  simp [landed, Candidate.slots_of_single h, Candidate.slot]

theorem landed_of_located (hlocated : ∀ slot ∈ c.slots, (Placement.locate placements slot.1).isSome) :
    landed placements [c] = c.slots.length := by
  rw [landed, awardedSlots_singleton]
  exact List.countP_eq_length.mpr hlocated

end

end SlotAuction
