import Mathlib.Data.List.Forall2
import Mathlib.Data.List.Nodup
import Mathlib.Data.List.Perm.Subperm
import SlotAuction.Candidate.Basic

/-!
# Positions — candidates by where they stand in a list

The same candidate may stand in a pool more than once, so who is meant is said by positions.

* `entriesAt cs positions` — the candidates at the positions;
* `entriesAt_subperm` — distinct positions never take a candidate more often than it stands there;
* `exists_positions` — and whatever is no more than the list stands at distinct positions of it;
* `StandsAt` — that it does so, in some order;
* `LeadsRivals` — whoever stands at one of the positions comes before all rivals who do not.
-/

namespace SlotAuction

/-- The candidates at the positions, in the order of the positions. -/
def entriesAt (cs : List Candidate) (positions : List Nat) : List Candidate :=
  positions.filterMap (cs[·]?)

@[simp] theorem entriesAt_nil (cs : List Candidate) : entriesAt cs [] = [] := rfl

@[simp] theorem entriesAt_append (cs : List Candidate) (ps qs : List Nat) :
    entriesAt cs (ps ++ qs) = entriesAt cs ps ++ entriesAt cs qs :=
  List.filterMap_append

theorem entriesAt_cons {cs : List Candidate} {position : Nat} {c : Candidate}
    (h : cs[position]? = some c) (ps : List Nat) :
    entriesAt cs (position :: ps) = c :: entriesAt cs ps := by
  simp [entriesAt, h]

theorem mem_entriesAt {cs : List Candidate} {ps : List Nat} {c : Candidate} :
    c ∈ entriesAt cs ps ↔ ∃ p ∈ ps, cs[p]? = some c :=
  List.mem_filterMap

theorem mem_of_mem_entriesAt {cs : List Candidate} {ps : List Nat} {c : Candidate}
    (h : c ∈ entriesAt cs ps) : c ∈ cs := by
  rcases mem_entriesAt.mp h with ⟨_, _, hentry⟩
  exact List.mem_of_getElem? hentry

theorem entriesAt_perm (cs : List Candidate) {ps qs : List Nat} (h : ps.Perm qs) :
    (entriesAt cs ps).Perm (entriesAt cs qs) :=
  h.filterMap _

theorem length_entriesAt {cs : List Candidate} {ps : List Nat} (h : ∀ p ∈ ps, p < cs.length) :
    (entriesAt cs ps).length = ps.length := by
  induction ps with
  | nil => rfl
  | cons p ps ih =>
      have hlt : p < cs.length := h p (List.mem_cons_self ..)
      rw [entriesAt_cons (List.getElem?_eq_getElem hlt), List.length_cons, List.length_cons,
        ih fun q hq => h q (List.mem_cons_of_mem _ hq)]

/-! ## Parts of a list -/

theorem entriesAt_front (front tail : List Candidate) {ps : List Nat}
    (h : ∀ p ∈ ps, p < front.length) : entriesAt (front ++ tail) ps = entriesAt front ps := by
  refine List.filterMap_congr fun p hp => ?_
  exact List.getElem?_append_left (h p hp)

theorem entriesAt_tail (front tail : List Candidate) (ps : List Nat) :
    entriesAt (front ++ tail) (ps.map (front.length + ·)) = entriesAt tail ps := by
  rw [entriesAt, List.filterMap_map]
  refine List.filterMap_congr fun p _ => ?_
  simp [List.getElem?_append_right]

theorem entriesAt_range (cs : List Candidate) : entriesAt cs (List.range cs.length) = cs := by
  induction cs with
  | nil => rfl
  | cons c cs ih =>
      rw [List.length_cons, List.range_succ_eq_map, entriesAt_cons List.getElem?_cons_zero]
      congr 1
      rw [entriesAt, List.filterMap_map]
      exact ih

/-- Positions of the front, and positions of the tail as positions of the whole list. -/
theorem nodup_append_shift {n : Nat} {ps qs : List Nat} (hps : ps.Nodup) (hqs : qs.Nodup)
    (hrange : ∀ p ∈ ps, p < n) : (ps ++ qs.map (n + ·)).Nodup := by
  refine List.nodup_append.mpr ⟨hps, hqs.map fun p q hpq => Nat.add_left_cancel hpq, ?_⟩
  rintro p hp q hq rfl
  obtain ⟨r, _, rfl⟩ := List.mem_map.mp hq
  have := hrange _ hp
  omega

theorem mem_map_shift {n p : Nat} {qs : List Nat} : n + p ∈ qs.map (n + ·) ↔ p ∈ qs := by
  rw [List.mem_map]
  constructor
  · rintro ⟨q, hq, heq⟩
    rwa [← Nat.add_left_cancel heq]
  · intro hp
    exact ⟨p, hp, rfl⟩

theorem lt_of_mem_append_shift {front tail : List Candidate} {ps qs : List Nat}
    (hps : ∀ p ∈ ps, p < front.length) (hqs : ∀ q ∈ qs, q < tail.length) :
    ∀ p ∈ ps ++ qs.map (front.length + ·), p < (front ++ tail).length := by
  intro p hp
  rw [List.length_append]
  rcases List.mem_append.mp hp with hfront | htail
  · have := hps p hfront
    omega
  · obtain ⟨q, hq, rfl⟩ := List.mem_map.mp htail
    have := hqs q hq
    omega

/-! ## Positions and multiplicity -/

theorem entriesAt_subperm {cs : List Candidate} {ps : List Nat} (hdistinct : ps.Nodup)
    (hrange : ∀ p ∈ ps, p < cs.length) : (entriesAt cs ps).Subperm cs := by
  obtain ⟨qs, hperm, hsub⟩ := hdistinct.subperm fun p hp => List.mem_range.mpr (hrange p hp)
  refine ⟨entriesAt cs qs, entriesAt_perm cs hperm, ?_⟩
  have hentries : (entriesAt cs qs).Sublist (entriesAt cs (List.range cs.length)) :=
    hsub.filterMap _
  rwa [entriesAt_range] at hentries

theorem entriesAt_of_forall₂ {cs ds : List Candidate} {ps : List Nat}
    (h : List.Forall₂ (fun c p => ds[p]? = some c) cs ps) : entriesAt ds ps = cs := by
  induction h with
  | nil => rfl
  | cons hhead _ ih => rw [entriesAt_cons hhead, ih]

/-- A list that is no more than another one, counting how often a candidate occurs, stands at
distinct positions of it. -/
theorem exists_positions {cs ds : List Candidate} (h : cs.Subperm ds) :
    ∃ ps : List Nat, ps.Nodup ∧ (∀ p ∈ ps, p < ds.length) ∧ entriesAt ds ps = cs := by
  obtain ⟨sub, hperm, hsub⟩ := h
  obtain ⟨indices, rfl, hincreasing⟩ := List.sublist_eq_map_getElem hsub
  have hentries : List.Forall₂ (fun c p => ds[p]? = some c)
      (indices.map fun i => ds[i]) (indices.map Fin.val) := by
    rw [List.forall₂_map_left_iff, List.forall₂_map_right_iff, List.forall₂_same]
    intro i _
    exact List.getElem?_eq_getElem i.isLt
  obtain ⟨ps, hps, hpositions⟩ := List.perm_comp_forall₂ hperm.symm hentries
  have hdistinct : (indices.map Fin.val).Nodup :=
    List.pairwise_map.mpr (hincreasing.imp Nat.ne_of_lt)
  refine ⟨ps, hpositions.nodup_iff.mpr hdistinct, fun p hp => ?_, entriesAt_of_forall₂ hps⟩
  obtain ⟨i, _, rfl⟩ := List.mem_map.mp (hpositions.mem_iff.mp hp)
  exact i.isLt

theorem forall₂_entriesAt {cs : List Candidate} {ps : List Nat} (hrange : ∀ p ∈ ps, p < cs.length) :
    List.Forall₂ (fun c p => cs[p]? = some c) (entriesAt cs ps) ps := by
  induction ps with
  | nil => exact List.Forall₂.nil
  | cons p ps ih =>
      have hlt : p < cs.length := hrange p (List.mem_cons_self ..)
      rw [entriesAt_cons (List.getElem?_eq_getElem hlt)]
      exact List.Forall₂.cons (List.getElem?_eq_getElem hlt)
        (ih fun q hq => hrange q (List.mem_cons_of_mem _ hq))

/-- Entries in another order stand at the same positions in another order. -/
theorem exists_perm_positions {cs ds : List Candidate} {ps : List Nat}
    (hrange : ∀ p ∈ ps, p < cs.length) (h : (entriesAt cs ps).Perm ds) :
    ∃ qs : List Nat, qs.Perm ps ∧ entriesAt cs qs = ds := by
  obtain ⟨qs, hentries, hperm⟩ := List.perm_comp_forall₂ h.symm (forall₂_entriesAt hrange)
  exact ⟨qs, hperm, entriesAt_of_forall₂ hentries⟩

/-- The candidates stand at the positions of the pool, no position counted twice. -/
structure StandsAt (pool cs : List Candidate) (positions : List Nat) : Prop where
  distinct : positions.Nodup
  inPool : ∀ p ∈ positions, p < pool.length
  entries : cs.Perm (entriesAt pool positions)

/-! ## Rivals -/

/-- Both are singles, and they name the same placement. -/
structure Rivals (x y : Candidate) : Prop where
  left : x.isSingle = true
  right : y.isSingle = true
  placement : x.placement = y.placement

/-- Whoever stands at one of the positions comes before every rival who does not. -/
def LeadsRivals (cs : List Candidate) (positions : List Nat) : Prop :=
  ∀ p q x y, cs[p]? = some x → cs[q]? = some y → Rivals x y → p ∉ positions → q ∈ positions →
    q < p

end SlotAuction
