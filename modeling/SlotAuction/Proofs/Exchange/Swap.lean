import Mathlib.Data.List.Perm.Subperm
import SlotAuction.Proofs.Claim
import SlotAuction.Proofs.Exchange.Search

/-!
# Swap — what an exchange does to the winners

An exchange walks over a list that it extends, with marks over a tail that all bundles share.  In
the end some bundles were given up, everything else was kept, and singles at distinct free positions
of the tail came instead.

* `Exchange.Swapped` — given, kept, and the positions of the stand-ins;
* `Exchange.swapped_stop`, `Exchange.Swapped.keep`, `Exchange.Swapped.replace` — the steps of a walk;
* `Exchange.Swapped.names_perm` — for honest bundles the stand-ins name just what the bundles named.
-/

namespace SlotAuction
namespace Exchange

open scoped List

/-- Of the winners `before`, `given` were given up for the entries of the tail at `standIns`, and
`kept` stayed, which makes the winners `after`.  The stand-ins name no more than the bundles did, are
as many as these claimed, and come before the free singles that might have stood in for them. -/
structure Swapped (tail : List Candidate) (taken : List Bool) (before after : List Candidate)
    (replaced : Nat) (given kept : List Candidate) (standIns : List Nat) : Prop where
  split : before.Perm (given ++ kept)
  result : after.Perm (kept ++ entriesAt tail standIns)
  count : given.length = replaced
  bundles : ∀ c ∈ given, c.isBundle = true
  distinct : standIns.Nodup
  free : ∀ position ∈ standIns, Marks.Free tail taken position
  names : (slotNames (entriesAt tail standIns)).Subperm (slotNames given)
  claims : standIns.length = (given.map Candidate.claim).sum
  leads : Marks.LeadsFree tail taken standIns

section

variable {tail rest : List Candidate} {taken : List Bool} {winner : Candidate} {later : Exchange}
  {given kept : List Candidate} {standIns : List Nat}

theorem swapped_refl (tail : List Candidate) (taken : List Bool) (winners : List Candidate) :
    Swapped tail taken winners winners 0 [] winners [] where
  split := List.Perm.refl _
  result := by simp
  count := rfl
  bundles := by simp
  distinct := List.nodup_nil
  free := by simp
  names := List.Subperm.refl _
  claims := rfl
  leads := Marks.leadsFree_nil tail taken

/-- The order in which the winners come does not matter. -/
theorem Swapped.of_perm {before after : List Candidate} {replaced : Nat}
    (h : Swapped tail taken rest after replaced given kept standIns) (hperm : before.Perm rest) :
    Swapped tail taken before after replaced given kept standIns :=
  ⟨hperm.trans h.split, h.result, h.count, h.bundles, h.distinct, h.free, h.names, h.claims,
    h.leads⟩

theorem swapped_stop (tail : List Candidate) (taken : List Bool) (winners : List Candidate)
    (marks : Marks) :
    Swapped tail taken winners (stop winners marks).winners (stop winners marks).replaced
      [] winners [] := by
  rw [show (stop winners marks).winners = winners from List.append_nil winners]
  exact swapped_refl tail taken winners

theorem Swapped.keep (h : Swapped tail taken rest later.winners later.replaced given kept standIns)
    (winner : Candidate) :
    Swapped tail taken (winner :: rest) (Exchange.keep winner later).winners
      (Exchange.keep winner later).replaced given (winner :: kept) standIns where
  split := (h.split.cons winner).trans List.perm_middle.symm
  result := h.result.cons winner
  count := h.count
  bundles := h.bundles
  distinct := h.distinct
  free := h.free
  names := h.names
  claims := h.claims
  leads := h.leads

/-- A bundle whose stand-ins were just found joins those given up by the later walk. -/
theorem Swapped.replace {b : Bundle} {marks after : Marks} {positions : List Nat}
    {standIn : Candidate} {others : List Candidate}
    (h : Swapped tail after.taken.cells rest later.winners later.replaced given kept standIns)
    (hb : winner.bundle? = some b) (htaken : Marks.Taken tail b.parts marks after positions)
    (hsize : positions.length = b.count.toNat)
    (hentries : entriesAt tail positions = standIn :: others) :
    Swapped tail marks.taken.cells (winner :: rest) (Exchange.replace standIn others later).winners
      (Exchange.replace standIn others later).replaced (winner :: given) kept
        (positions ++ standIns) := by
  have hfresh : ∀ position ∈ standIns, position ∉ positions := by
    intro position hlater hnow
    have := (h.free position hlater).1
    simp [htaken.taken, hnow] at this
  refine ⟨h.split.cons winner, ?_, by simp [h.count, Exchange.replace], ?_, ?_, ?_, ?_, ?_, ?_⟩
  · have hwinners : (Exchange.replace standIn others later).winners.Perm
        ((standIn :: others) ++ later.winners) := by
      have : (later.kept ++ (others ++ later.added)).Perm (others ++ (later.kept ++ later.added)) := by
        rw [← List.append_assoc, ← List.append_assoc]
        exact List.perm_append_comm.append_right _
      exact this.cons standIn
    rw [entriesAt_append, hentries]
    refine hwinners.trans ((h.result.append_left _).trans ?_)
    rw [← List.append_assoc, ← List.append_assoc]
    exact List.perm_append_comm.append_right _
  · intro c hc
    rcases List.mem_cons.mp hc with rfl | hlater
    · simp [Candidate.isBundle, hb]
    · exact h.bundles c hlater
  · refine List.nodup_append.mpr ⟨htaken.distinct, h.distinct, ?_⟩
    rintro position hnow other hlater rfl
    exact hfresh position hlater hnow
  · intro position hmem
    rcases List.mem_append.mp hmem with hnow | hlater
    · exact htaken.free position hnow
    · obtain ⟨hcell, hsingle⟩ := h.free position hlater
      rw [htaken.taken, if_neg (hfresh position hlater)] at hcell
      exact ⟨hcell, hsingle⟩
  · rw [entriesAt_append, slotNames_append, slotNames_cons, slotNames_of_bundle hb,
      slotNames_of_singles (Marks.isSingle_of_free htaken.free)]
    exact htaken.names.subperm.append h.names
  · rw [List.length_append, List.map_cons, List.sum_cons, Candidate.claim_of_bundle hb, hsize,
      h.claims]
  · intro p q x y hx hy hsame hpfree hp hq
    have hnow : p ∉ positions := fun hmem => hp (List.mem_append_left _ hmem)
    have hlater : p ∉ standIns := fun hmem => hp (List.mem_append_right _ hmem)
    rcases List.mem_append.mp hq with hqnow | hqlater
    · exact htaken.leads p q x y hx hy hsame hpfree hnow hqnow
    · have hstill : Marks.Free tail after.taken.cells p :=
        ⟨by rw [htaken.taken, if_neg hnow]; exact hpfree.1, hpfree.2⟩
      exact h.leads p q x y hx hy hsame hstill hlater hqlater

end

namespace Swapped

variable {tail before after : List Candidate} {taken : List Bool} {replaced : Nat}
  {given kept : List Candidate} {standIns : List Nat}

theorem length_entriesAt_standIns
    (h : Swapped tail taken before after replaced given kept standIns) :
    (entriesAt tail standIns).length = standIns.length :=
  length_entriesAt fun position hmem => (h.free position hmem).lt

/-- If no bundle is given up, the winners remain. -/
theorem perm_of_none_given (h : Swapped tail taken before after replaced given kept standIns)
    (hnone : given = []) : after.Perm before := by
  subst hnone
  have hno : standIns = [] := List.length_eq_zero_iff.mp h.claims
  subst hno
  refine h.result.trans ?_
  simpa using h.split.symm

/-- The winners afterwards come from where those before came from, and from the tail. -/
theorem subperm (h : Swapped tail taken before after replaced given kept standIns)
    {front : List Candidate} (hfront : before.Subperm front) : after.Subperm (front ++ tail) := by
  have hkept : kept.Subperm front := by
    have hright : kept.Subperm (given ++ kept) := (List.sublist_append_right given kept).subperm
    exact (hright.trans h.split.symm.subperm).trans hfront
  have hcame : (entriesAt tail standIns).Subperm tail :=
    entriesAt_subperm h.distinct fun position hmem => (h.free position hmem).lt
  exact h.result.subperm.trans (hkept.append hcame)

/-- Honest bundles are given up only for stand-ins that name exactly what they named. -/
theorem names_perm (h : Swapped tail taken before after replaced given kept standIns)
    (hhonest : ∀ c ∈ given, c.Honest) :
    (slotNames (entriesAt tail standIns)).Perm (slotNames given) := by
  refine h.names.perm_of_length_le (le_of_eq ?_)
  have hclaims : (slotNames given).length = (given.map Candidate.claim).sum := by
    rw [length_slotNames, Outcome.awardedSlots, List.length_flatMap]
    congr 1
    exact List.map_congr_left fun c hc => (hhonest c hc).symm
  rw [hclaims, ← h.claims, slotNames_of_singles (Marks.isSingle_of_free h.free), List.length_map,
    h.length_entriesAt_standIns]

/-- Names counted in any way, the winners afterwards have no more of them. -/
theorem countP_slotNames_le (h : Swapped tail taken before after replaced given kept standIns)
    (p : String → Bool) : (slotNames after).countP p ≤ (slotNames before).countP p := by
  have hnames := h.names.countP_le p
  rw [(slotNames_perm h.split).countP_eq, (slotNames_perm h.result).countP_eq]
  simp only [slotNames_append, List.countP_append]
  omega

theorem landing_le {placements : List Placement}
    (h : Swapped tail taken before after replaced given kept standIns) (position : Nat) :
    Placement.landing placements position after ≤ Placement.landing placements position before := by
  rw [Placement.landing_eq_countP_names, Placement.landing_eq_countP_names]
  exact h.countP_slotNames_le _

theorem landed_le {placements : List Placement}
    (h : Swapped tail taken before after replaced given kept standIns) :
    Placement.landed placements after ≤ Placement.landed placements before := by
  rw [Placement.landed_eq_countP_names, Placement.landed_eq_countP_names]
  exact h.countP_slotNames_le _

/-- Among honest winners a swap changes no name, so it changes no landing either. -/
theorem slotNames_perm_of_honest
    (h : Swapped tail taken before after replaced given kept standIns)
    (hhonest : ∀ c ∈ before, c.Honest) : (slotNames after).Perm (slotNames before) := by
  have hgiven : ∀ c ∈ given, c.Honest := fun c hc =>
    hhonest c (h.split.mem_iff.mpr (List.mem_append_left _ hc))
  have hnames := h.names_perm hgiven
  calc slotNames after
      ~ slotNames kept ++ slotNames (entriesAt tail standIns) := by
        simpa using slotNames_perm h.result
    _ ~ slotNames kept ++ slotNames given := hnames.append_left _
    _ ~ slotNames given ++ slotNames kept := List.perm_append_comm
    _ ~ slotNames before := by
        simpa using (slotNames_perm h.split).symm

end Swapped

end Exchange
end SlotAuction
