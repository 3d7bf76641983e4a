import Mathlib.Algebra.BigOperators.Fin
import Mathlib.Algebra.Order.BigOperators.Group.Finset
import SlotAuction.Outcome.Basic

/-!
# Landing — which placements the slots of candidates go to

A slot goes to the placement that its name stands for; a name that no placement carries leads
nowhere.  This file counts slots by where they go:

* `landing placements position cs` — the slots of `cs` that go to one placement;
* `landed placements cs` — the slots of `cs` that go to any placement, which is the sum of the
  landings (`landed_eq_sum`);
* `Within placements cs` — no placement gets more slots than it wants;
* `Within.landed_le` — then all of them together get no more than the clamped total, as long as
  there are fewer than `2 ^ 64` slots.
-/

namespace SlotAuction

open Outcome (awardedSlots)

/-! ## Slots of a list -/

@[simp] theorem awardedSlots_append (cs ds : List Candidate) :
    awardedSlots (cs ++ ds) = awardedSlots cs ++ awardedSlots ds :=
  List.flatMap_append

@[simp] theorem awardedSlots_singleton (c : Candidate) : awardedSlots [c] = c.slots :=
  List.flatMap_singleton ..

theorem awardedSlots_cons (c : Candidate) (cs : List Candidate) :
    awardedSlots (c :: cs) = c.slots ++ awardedSlots cs :=
  List.flatMap_cons ..

theorem awardedSlots_perm {cs ds : List Candidate} (h : cs.Perm ds) :
    (awardedSlots cs).Perm (awardedSlots ds) :=
  h.flatMap_right _

theorem awardedSlots_sublist {cs ds : List Candidate} (h : cs.Sublist ds) :
    (awardedSlots cs).Sublist (awardedSlots ds) :=
  h.flatMap _

theorem awardedSlots_of_singles {cs : List Candidate} (h : ∀ c ∈ cs, c.isSingle = true) :
    awardedSlots cs = cs.map Candidate.slot := by
  induction cs with
  | nil => rfl
  | cons c cs ih =>
      have hc : c.bundle? = none := Option.isNone_iff_eq_none.mp (h c (List.mem_cons_self ..))
      rw [awardedSlots_cons, ih fun d hd => h d (List.mem_cons_of_mem _ hd)]
      simp [Candidate.slots, hc]

/-- The names of the placements that the slots are for. -/
def slotNames (cs : List Candidate) : List String :=
  (awardedSlots cs).map Prod.fst

@[simp] theorem slotNames_append (cs ds : List Candidate) :
    slotNames (cs ++ ds) = slotNames cs ++ slotNames ds := by
  simp [slotNames]

theorem length_slotNames (cs : List Candidate) :
    (slotNames cs).length = (awardedSlots cs).length :=
  List.length_map ..

theorem slotNames_cons (c : Candidate) (cs : List Candidate) :
    slotNames (c :: cs) = slotNames [c] ++ slotNames cs :=
  slotNames_append [c] cs

theorem slotNames_of_bundle {c : Candidate} {b : Bundle} (h : c.bundle? = some b) :
    slotNames [c] = b.parts.map Candidate.placement := by
  simp [slotNames, Candidate.slots, h, Candidate.slot]

theorem slotNames_of_singles {cs : List Candidate} (h : ∀ c ∈ cs, c.isSingle = true) :
    slotNames cs = cs.map Candidate.placement := by
  rw [slotNames, awardedSlots_of_singles h, List.map_map]
  rfl

theorem slotNames_perm {cs ds : List Candidate} (h : cs.Perm ds) :
    (slotNames cs).Perm (slotNames ds) :=
  (awardedSlots_perm h).map _

namespace Placement

variable {placements : List Placement}

theorem id_of_locate {name : String} {position : Nat} (hlt : position < placements.length)
    (h : locate placements name = some position) : placements[position].id = name := by
  obtain ⟨_, hid, _⟩ := List.findIdx?_eq_some_iff_getElem.mp h
  exact beq_iff_eq.mp hid

/-! ## Counting landings -/

/-- The slots of the candidates whose names stand for the placement at a position. -/
def landing (placements : List Placement) (position : Nat) (cs : List Candidate) : Nat :=
  (awardedSlots cs).countP fun slot => locate placements slot.1 == some position

/-- The slots of the candidates whose names stand for a placement at all. -/
def landed (placements : List Placement) (cs : List Candidate) : Nat :=
  (awardedSlots cs).countP fun slot => (locate placements slot.1).isSome

@[simp] theorem landing_nil (position : Nat) : landing placements position [] = 0 := rfl

@[simp] theorem landed_nil : landed placements [] = 0 := rfl

theorem landing_append (position : Nat) (cs ds : List Candidate) :
    landing placements position (cs ++ ds) =
      landing placements position cs + landing placements position ds := by
  simp [landing]

theorem landed_append (cs ds : List Candidate) :
    landed placements (cs ++ ds) = landed placements cs + landed placements ds := by
  simp [landed]

theorem landing_eq_countP_names (position : Nat) (cs : List Candidate) :
    landing placements position cs =
      (slotNames cs).countP fun name => locate placements name == some position := by
  rw [slotNames, List.countP_map]
  rfl

theorem landed_eq_countP_names (cs : List Candidate) :
    landed placements cs =
      (slotNames cs).countP fun name => (locate placements name).isSome := by
  rw [slotNames, List.countP_map]
  rfl

theorem landing_perm {cs ds : List Candidate} (h : cs.Perm ds) (position : Nat) :
    landing placements position cs = landing placements position ds :=
  (awardedSlots_perm h).countP_eq _

theorem landing_mono {cs ds : List Candidate} (h : cs.Sublist ds) (position : Nat) :
    landing placements position cs ≤ landing placements position ds :=
  (awardedSlots_sublist h).countP_le

theorem landing_le_length (placements : List Placement) (position : Nat) (cs : List Candidate) :
    landing placements position cs ≤ (awardedSlots cs).length :=
  List.countP_le_length

theorem landed_le_length (placements : List Placement) (cs : List Candidate) :
    landed placements cs ≤ (awardedSlots cs).length :=
  List.countP_le_length

theorem landing_le_landed (placements : List Placement) (position : Nat) (cs : List Candidate) :
    landing placements position cs ≤ landed placements cs := by
  refine List.countP_mono_left fun slot _ hslot => ?_
  simp [beq_iff_eq.mp hslot]

theorem landed_eq_sum (cs : List Candidate) :
    landed placements cs = ∑ i : Fin placements.length, landing placements i cs := by
  unfold landed landing
  induction awardedSlots cs with
  | nil => simp
  | cons slot slots ih =>
      simp only [List.countP_cons, ih, Finset.sum_add_distrib]
      congr 1
      cases hfound : locate placements slot.1 with
      | none => simp
      | some position =>
          have hlt : position < placements.length := locate_lt hfound
          have hsame (i : Fin placements.length) : position = i ↔ ⟨position, hlt⟩ = i := by
            simp [Fin.ext_iff]
          simp [hsame]

/-! ## Wanted slots -/

theorem toNat_totalWanted (placements : List Placement) :
    (totalWanted placements).toNat =
      min (∑ i : Fin placements.length, placements[i].wanted.toNat) Word.limit := by
  rw [totalWanted, Word.toNat_sumClamped, List.map_map]
  congr 1
  rw [← Fin.sum_univ_fun_getElem]
  rfl

/-- No placement gets more slots than it wants. -/
def Within (placements : List Placement) (cs : List Candidate) : Prop :=
  ∀ i : Fin placements.length, landing placements i cs ≤ placements[i].wanted.toNat

instance (placements : List Placement) (cs : List Candidate) :
    Decidable (Within placements cs) :=
  inferInstanceAs (Decidable (∀ _, _))

theorem Within.of_sublist {cs ds : List Candidate} (h : Within placements ds)
    (hsub : cs.Sublist ds) : Within placements cs :=
  fun i => le_trans (landing_mono hsub i) (h i)

theorem Within.of_perm {cs ds : List Candidate} (h : Within placements cs) (hperm : ds.Perm cs) :
    Within placements ds := by
  intro i
  rw [landing_perm hperm]
  exact h i

theorem Within.landed_le {cs : List Candidate} (h : Within placements cs)
    (hfew : (awardedSlots cs).length < 2 ^ 64) :
    landed placements cs ≤ (totalWanted placements).toNat := by
  rw [toNat_totalWanted]
  refine le_min ?_ ?_
  · rw [landed_eq_sum]
    exact Finset.sum_le_sum fun i _ => h i
  · have := landed_le_length placements cs
    unfold Word.limit
    omega

end Placement
end SlotAuction
