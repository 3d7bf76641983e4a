import Mathlib.Data.List.Perm.Subperm
import SlotAuction.Proofs.Claim

/-!
# Greedy — the plain rule of a fill

A candidate wins if its slots all go somewhere and still fit beside the slots won so far.  The rule
knows no tallies and no open slots, and it never stops early.

* `Placeable` — the rule for one candidate;
* `greedy` — the winners by it, one candidate after another;
* `greedy_maximal` — nobody else whose slots all go somewhere fits beside the winners.
-/

namespace SlotAuction

open Placement (landing landed locate Within)

/-! ## The plain rule -/

/-- Every slot that the candidate claims goes somewhere, there is one, and no placement gets too
many by it. -/
structure Placeable (placements : List Placement) (won : List Candidate) (c : Candidate) : Prop where
  claims : 0 < c.claim
  lands : landed placements [c] = c.claim
  within : Within placements (won ++ [c])

instance (placements : List Placement) (won : List Candidate) (c : Candidate) :
    Decidable (Placeable placements won c) :=
  decidable_of_iff (0 < c.claim ∧ landed placements [c] = c.claim ∧ Within placements (won ++ [c]))
    ⟨fun h => ⟨h.1, h.2.1, h.2.2⟩, fun h => ⟨h.claims, h.lands, h.within⟩⟩

/-- Takes up one candidate after another, beside those that have won. -/
def greedy (placements : List Placement) : List Candidate → List Candidate → List Candidate
  | _, [] => []
  | won, c :: rest =>
      if Placeable placements won c then c :: greedy placements (won ++ [c]) rest
      else greedy placements won rest

section

variable {placements : List Placement} {won : List Candidate} {c : Candidate} {rest : List Candidate}

theorem greedy_of_placeable (h : Placeable placements won c) :
    greedy placements won (c :: rest) = c :: greedy placements (won ++ [c]) rest := by
  rw [greedy, if_pos h]

theorem greedy_of_not_placeable (h : ¬ Placeable placements won c) :
    greedy placements won (c :: rest) = greedy placements won rest := by
  rw [greedy, if_neg h]

theorem greedy_eq_nil {pool : List Candidate} (h : ∀ c ∈ pool, ¬ Placeable placements won c) :
    greedy placements won pool = [] := by
  induction pool with
  | nil => rfl
  | cons c rest ih =>
      rw [greedy_of_not_placeable (h c (List.mem_cons_self ..))]
      exact ih fun d hd => h d (List.mem_cons_of_mem _ hd)

theorem greedy_sublist (placements : List Placement) (won pool : List Candidate) :
    (greedy placements won pool).Sublist pool := by
  induction pool generalizing won with
  | nil => exact List.Sublist.refl _
  | cons c rest ih =>
      by_cases hplaceable : Placeable placements won c
      · rw [greedy_of_placeable hplaceable]
        exact (ih (won ++ [c])).cons_cons c
      · rw [greedy_of_not_placeable hplaceable]
        exact (ih won).cons c

/-! ## Singles -/

/-- A single that names no placement never wins. -/
theorem not_placeable_of_unlocated (hc : c.bundle? = none)
    (hnowhere : locate placements c.placement = none) : ¬ Placeable placements won c := by
  intro hplaceable
  have hlands := hplaceable.lands
  simp [landed_of_single hc, Candidate.claim_of_single hc, hnowhere] at hlands

/-- A single wins if the placement that it names still lacks a slot. -/
theorem placeable_single_iff {position : Nat} (hwithin : Within placements won)
    (hc : c.bundle? = none) (hfound : locate placements c.placement = some position)
    (hlt : position < placements.length) :
    Placeable placements won c ↔
      landing placements position won < placements[position].wanted.toNat := by
  constructor
  · intro hplaceable
    have hroom := hplaceable.within ⟨position, hlt⟩
    rw [Placement.landing_append, landing_of_single hc, if_pos hfound] at hroom
    exact hroom
  · intro hless
    refine ⟨?_, ?_, fun i => ?_⟩
    · simp [Candidate.claim_of_single hc]
    · simp [landed_of_single hc, Candidate.claim_of_single hc, hfound]
    · rw [Placement.landing_append, landing_of_single hc]
      by_cases hsame : locate placements c.placement = some (i : Nat)
      · rw [if_pos hsame]
        cases Option.some.inj (hfound.symm.trans hsame)
        exact hless
      · rw [if_neg hsame]
        exact hwithin i

/-! ## What the rule leaves out -/

open Classical in
/-- One more of `c` than among `cs` is in the rest already, if what comes before it is not `c`. -/
theorem subperm_rest_of_ne {d : Candidate} {cs : List Candidate} (hsub : cs.Subperm rest)
    (hmore : (c :: cs).Subperm (d :: rest)) (hne : d ≠ c) : (c :: cs).Subperm rest := by
  refine hsub.cons_left c ?_
  have hcount := hmore.count_le c
  rw [List.count_cons_self, List.count_cons_of_ne hne] at hcount
  exact hcount

/-- Whoever the rule leaves out, though all of the slots go somewhere, does not fit beside the
winners in the end. -/
theorem greedy_maximal {pool : List Candidate} (hclaims : 0 < c.claim)
    (hlands : landed placements [c] = c.claim)
    (hmore : (c :: greedy placements won pool).Subperm pool) :
    ¬ Within placements (won ++ greedy placements won pool ++ [c]) := by
  induction pool generalizing won with
  | nil => exact absurd (List.subperm_nil.mp hmore) (List.cons_ne_nil _ _)
  | cons d rest ih =>
      by_cases hplaceable : Placeable placements won d
      · rw [greedy_of_placeable hplaceable] at hmore ⊢
        have hswapped := (List.Perm.swap c d _).subperm.trans hmore
        have hlater := ih ((List.subperm_cons d).mp hswapped)
        simpa using hlater
      · rw [greedy_of_not_placeable hplaceable] at hmore ⊢
        by_cases hsame : d = c
        · -- `c` itself was refused, and nothing that was won later makes room for it.
          subst hsame
          intro hfits
          refine hplaceable ⟨hclaims, hlands, fun i => ?_⟩
          have := hfits i
          rw [Placement.landing_append, Placement.landing_append] at this
          rw [Placement.landing_append]
          omega
        · exact ih (subperm_rest_of_ne (greedy_sublist placements won rest).subperm hmore hsame)

end

end SlotAuction
