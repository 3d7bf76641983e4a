import Mathlib.Data.List.GetD
import SlotAuction.Proofs.Award

/-!
# Room — what is booked stays within what is wanted

A tally is cleared, and from then on it is written to only where there is room: one slot at a position
that lacks one, or all the counts of another tally if every position has room for its own.

* `Placement.wantedAt` — the slots that are wanted at a position, none past the last placement;
* `Tally.Bounded`, `Tally.Bounded.fits_iff` — within bounds, the counts fit exactly if the sums do;
* `Tally.Reached`, `Tally.Reached.bounded` — a tally is within bounds after any such writes;
* `Tally.commit_fits_or_changes_nothing` — what a commit answers and changes, in every state reached;
* `Booking.bundle_is_booked_whole_or_not` — the same of a bundle, whatever the deltas held before;
* `Fill.reached_fills` — the tally of every walk is reached by such writes.
-/

namespace SlotAuction

variable {placements : List Placement}

namespace Placement

/-! ## What is wanted -/

/-- The slots that are wanted at a position; past the last placement there are none. -/
def wantedAt (placements : List Placement) (position : Nat) : Nat :=
  match placements[position]? with
  | some p => p.wanted.toNat
  | none => 0

theorem wantedAt_fin (i : Fin placements.length) :
    wantedAt placements i = (placements.get i).wanted.toNat := by
  simp [wantedAt]

theorem wantedAt_past {position : Nat} (h : placements.length ≤ position) :
    wantedAt placements position = 0 := by
  rw [wantedAt, List.getElem?_eq_none h]

theorem wantedAt_le_limit (placements : List Placement) (position : Nat) :
    wantedAt placements position ≤ Word.limit := by
  unfold wantedAt
  cases placements[position]? with
  | none => exact Nat.zero_le _
  | some p => exact Word.toNat_le_limit p.wanted

/-- Numbers are within what is wanted if they are so at the placements, and are zero past the last. -/
theorem forall_le_wantedAt_iff (count : Nat → Nat) :
    (∀ position, count position ≤ wantedAt placements position) ↔
      (∀ i : Fin placements.length, count i ≤ (placements.get i).wanted.toNat) ∧
        ∀ position, placements.length ≤ position → count position = 0 := by
  constructor
  · intro h
    refine ⟨fun i => ?_, fun position hpast => ?_⟩
    · rw [← wantedAt_fin]
      exact h i
    · have hle := h position
      rw [wantedAt_past hpast] at hle
      exact Nat.le_zero.mp hle
  · rintro ⟨hhere, hpast⟩ position
    rcases Nat.lt_or_ge position placements.length with hlt | hge
    · have hle := hhere ⟨position, hlt⟩
      rwa [← wantedAt_fin] at hle
    · rw [hpast position hge]
      exact Nat.zero_le _

end Placement

open Placement (wantedAt)

/-! ## Tallies within bounds -/

namespace Tally

variable {t deltas : Tally}

/-- No count wraps when the counts of the other tally are added. -/
def Addable (t deltas : Tally) : Prop :=
  ∀ position, (get t position).toNat + (get deltas position).toNat ≤ Word.limit

/-- Only the positions that the other tally has cells for need looking at. -/
theorem addable_iff :
    Addable t deltas ↔
      ∀ i : Fin deltas.length, (get t i).toNat + (get deltas i).toNat ≤ Word.limit := by
  constructor
  · intro h i
    exact h i
  · intro h position
    rcases Nat.lt_or_ge position deltas.length with hlt | hge
    · exact h ⟨position, hlt⟩
    · have hnone : get deltas position = 0 := List.getD_eq_default _ _ hge
      rw [hnone]
      exact Word.toNat_le_limit (get t position)

instance (t deltas : Tally) : Decidable (Addable t deltas) :=
  decidable_of_iff _ addable_iff.symm

/-- No position has more slots than are wanted there. -/
def Bounded (placements : List Placement) (t : Tally) : Prop :=
  ∀ position, (get t position).toNat ≤ wantedAt placements position

theorem hasRoom_iff (t : Tally) (placements : List Placement) (position : Nat) :
    hasRoom t placements position = true ↔
      (get t position).toNat < wantedAt placements position := by
  unfold hasRoom wantedAt
  cases placements[position]? with
  | none => simp
  | some p => simp [UInt64.lt_iff_toNat_lt]

/-- A position with room has room for one more without a wrap. -/
theorem toNat_get_increment {position : Nat} (hroom : hasRoom t placements position = true)
    (other : Nat) :
    (get (increment t position 1) other).toNat =
      (get t other).toNat + if other = position then 1 else 0 := by
  have hless := (hasRoom_iff t placements position).mp hroom
  have hlimit := Placement.wantedAt_le_limit placements position
  rw [get_increment]
  by_cases hsame : other = position
  · subst hsame
    rw [if_pos rfl, if_pos rfl, UInt64.toNat_add]
    show (_ + 1) % 2 ^ 64 = _
    unfold Word.limit at hlimit
    omega
  · rw [if_neg hsame, if_neg hsame, Nat.add_zero]

theorem toNat_get_commit (hadd : Addable t deltas) (hfits : fits t deltas placements = true)
    (position : Nat) :
    (get (commit t deltas placements).2 position).toNat =
      (get t position).toNat + (get deltas position).toNat := by
  have hsum := hadd position
  rw [get_commit hfits, UInt64.toNat_add]
  unfold Word.limit at hsum
  omega

/-- For a tally within bounds the zero counts need no exception: they fit too. -/
theorem Bounded.fits_iff (h : Bounded placements t) (hadd : Addable t deltas) :
    fits t deltas placements = true ↔
      ∀ position,
        (get t position).toNat + (get deltas position).toNat ≤ wantedAt placements position := by
  rw [Tally.fits_iff]
  refine forall_congr' fun position => ?_
  have hsmall : (get t position).toNat + (get deltas position).toNat < 2 ^ 64 := by
    have hsum := hadd position
    unfold Word.limit at hsum
    omega
  have hroom := @fitsAt_iff placements t position _ hsmall
  rw [UInt64.ofNat_toNat] at hroom
  rw [hroom]
  have hbound := h position
  unfold wantedAt at hbound ⊢
  cases hp : placements[position]? with
  | none =>
      simp only [hp] at hbound
      simp only [reduceCtorEq, false_and, exists_false, or_false]
      omega
  | some p =>
      simp only [hp] at hbound
      simp only [Option.some.injEq, exists_eq_left']
      omega

/-- Of the tally that is added a commit reads the cells alone. -/
theorem commit_of_cells_eq {other : Tally} (t : Tally) (placements : List Placement)
    (h : deltas.cells = other.cells) : commit t deltas placements = commit t other placements := by
  have hfits : fits t deltas placements = fits t other placements := fits_congr rfl h
  unfold commit
  rw [hfits, h]

/-! ### Writes -/

theorem bounded_clearTo (placements : List Placement) (t : Tally) (size : Nat) :
    Bounded placements (clearTo t size) := by
  intro position
  rw [get_clearTo]
  exact Nat.zero_le _

theorem Bounded.increment (h : Bounded placements t) {position : Nat}
    (hroom : hasRoom t placements position = true) :
    Bounded placements (Tally.increment t position 1) := by
  intro other
  have hother := h other
  rw [toNat_get_increment hroom]
  by_cases hsame : other = position
  · subst hsame
    rw [if_pos rfl]
    exact (hasRoom_iff t placements other).mp hroom
  · rw [if_neg hsame]
    exact hother

theorem Bounded.commit (h : Bounded placements t) (hadd : Addable t deltas) :
    Bounded placements (Tally.commit t deltas placements).2 := by
  cases hfits : fits t deltas placements with
  | false =>
      rw [commit_of_not_fits hfits]
      exact h
  | true =>
      intro position
      rw [toNat_get_commit hadd hfits]
      exact (h.fits_iff hadd).mp hfits position

/-! ### Runs -/

/-- A tally that was cleared for the placements and then written to, in any order: a slot at a position
that has room, or a commit of any other tally. -/
inductive Reached (placements : List Placement) : Tally → Prop
  | cleared (t : Tally) : Reached placements (clearTo t placements.length)
  | incremented {t : Tally} {position : Nat} (h : Reached placements t)
      (hroom : hasRoom t placements position = true) :
      Reached placements (increment t position 1)
  | committed {t deltas : Tally} (h : Reached placements t) (hadd : Addable t deltas) :
      Reached placements (commit t deltas placements).2

theorem Reached.bounded (h : Reached placements t) : Bounded placements t := by
  induction h with
  | cleared t => exact bounded_clearTo placements t _
  | incremented _ hroom ih => exact ih.increment hroom
  | committed _ hadd ih => exact ih.commit hadd

/-- After any writes no placement counts more slots than it wants, and nothing is counted past the last
one.  A commit of any tally that adds up without a wrap is accepted exactly if every placement has room
for the sum and nothing is to be counted past the last one.  Then every count grows by the one added to
it; else the tally stays as it is, down to its buffer. -/
theorem commit_fits_or_changes_nothing (h : Reached placements t) :
    (∀ i : Fin placements.length, get t i ≤ (placements.get i).wanted) ∧
      (∀ position, placements.length ≤ position → get t position = 0) ∧
        ∀ deltas, Addable t deltas →
          ((commit t deltas placements).1 = true ↔
            (∀ i : Fin placements.length,
              (get t i).toNat + (get deltas i).toNat ≤ (placements.get i).wanted.toNat) ∧
            ∀ position, placements.length ≤ position → get deltas position = 0) ∧
          ((commit t deltas placements).1 = true → ∀ position,
            (get (commit t deltas placements).2 position).toNat =
              (get t position).toNat + (get deltas position).toNat) ∧
          ((commit t deltas placements).1 = false → (commit t deltas placements).2 = t) := by
  rcases (Placement.forall_le_wantedAt_iff _).mp h.bounded with ⟨hhere, hpast⟩
  refine ⟨fun i => UInt64.le_iff_toNat_le.mpr (hhere i), fun position hge => ?_, ?_⟩
  · exact UInt64.toNat_inj.mp (hpast position hge)
  intro deltas hadd
  rw [commit_fst]
  refine ⟨?_, fun hfits => toNat_get_commit hadd hfits, fun hfull => ?_⟩
  · rw [h.bounded.fits_iff hadd, Placement.forall_le_wantedAt_iff]
    refine and_congr Iff.rfl (forall_congr' fun position => forall_congr' fun hge => ?_)
    rw [hpast position hge, Nat.zero_add, ← UInt64.toNat_inj]
    rfl
  · rw [commit_of_not_fits hfull]

end Tally

namespace Sample

/-- A page that lists one placement twice. -/
def twice : List Placement :=
  [⟨"top", 2⟩, ⟨"side", 1⟩, ⟨"top", 1⟩]

def counts (cells : List UInt64) : Tally :=
  Buffer.empty.hold cells

/-- A slot was taken at the first position, and then one there and one at the last. -/
def booked : Tally :=
  (Tally.commit (Tally.increment (Tally.clearTo Buffer.empty twice.length) 0 1)
    (counts [1, 0, 1, 0]) twice).2

theorem reached_booked : Tally.Reached twice booked :=
  .committed (.incremented (.cleared Buffer.empty) (by decide)) (by decide)

end Sample

/-- A slot past the last placement is refused, though the side would have room for the other. -/
theorem Tally.commit_fits_or_changes_nothing_of_booked :
    Reached Sample.twice Sample.booked ∧ Addable Sample.booked (Sample.counts [0, 1, 0, 1]) ∧
      (commit Sample.booked (Sample.counts [0, 1, 0, 1]) Sample.twice).1 = false ∧
        (commit Sample.booked (Sample.counts [0, 1, 0, 1]) Sample.twice).2 = Sample.booked ∧
      Addable Sample.booked (Sample.counts [0, 1]) ∧
        (commit Sample.booked (Sample.counts [0, 1]) Sample.twice).1 = true := by
  have hadd : Addable Sample.booked (Sample.counts [0, 1, 0, 1]) := by decide
  have hadd' : Addable Sample.booked (Sample.counts [0, 1]) := by decide
  rcases commit_fits_or_changes_nothing Sample.reached_booked with ⟨_, _, hcommit⟩
  rcases hcommit _ hadd with ⟨hiff, _, hsame⟩
  have hrefused : (commit Sample.booked (Sample.counts [0, 1, 0, 1]) Sample.twice).1 = false := by
    apply Bool.eq_false_of_not_eq_true
    intro hyes
    have hpast := (hiff.mp hyes).2 3 (by decide)
    cases hpast
  refine ⟨Sample.reached_booked, hadd, hrefused, hsame hrefused, hadd', ?_⟩
  apply (hcommit _ hadd').1.mpr
  refine ⟨by decide, fun position hge => ?_⟩
  exact List.getD_eq_default _ _ (Nat.le_of_succ_le hge)

/-! ## Bundles -/

namespace Booking

section

variable {b : Bundle} {fills : Tally}

/-- Past the last placement there are no hits to be counted. -/
theorem forall_add_hits_lt
    (h : ∀ i : Fin placements.length,
      (Tally.get fills i).toNat + hits placements b.parts i < 2 ^ 64) (position : Nat) :
    (Tally.get fills position).toNat + hits placements b.parts position < 2 ^ 64 := by
  rcases Nat.lt_or_ge position placements.length with hlt | hge
  · exact h ⟨position, hlt⟩
  · rw [hits_eq_zero b.parts (List.getElem?_eq_none hge)]
    exact (Tally.get fills position).toNat_lt

/-- The deltas are cleared before they are used, so what they held and their allotment do not matter. -/
theorem ofBundle_of_other_deltas (placements : List Placement) (b : Bundle)
    (fills deltas deltas' : Tally) :
    (ofBundle placements b fills deltas).accepted = (ofBundle placements b fills deltas').accepted ∧
      (ofBundle placements b fills deltas).fills = (ofBundle placements b fills deltas').fills := by
  have hcells := cells_countParts placements
    (Tally.cells_clearTo deltas deltas' placements.length) b.parts
  have hcommit := Tally.commit_of_cells_eq fills placements hcells
  unfold ofBundle
  by_cases hcount : b.count = 0
  · rw [if_pos hcount, if_pos hcount]
    exact ⟨rfl, rfl⟩
  · rw [if_neg hcount, if_neg hcount]
    dsimp only
    by_cases hlocated : located placements b.parts = b.count.toNat
    · rw [if_pos hlocated, if_pos hlocated, hcommit]
      exact ⟨rfl, rfl⟩
    · rw [if_neg hlocated, if_neg hlocated]
      exact ⟨rfl, rfl⟩

end

/-- Where no count would wrap: a bundle is booked exactly if it counts a part, counts as many as name a
placement, and each placement that parts of it hit has room for all of these together.  Then every count
grows by the parts that hit its placement; else the fills stay as they are, down to their buffer.  What
the deltas held before has no part in it. -/
theorem bundle_is_booked_whole_or_not (placements : List Placement) (b : Bundle)
    (fills deltas : Tally)
    (hsmall : ∀ i : Fin placements.length,
      (Tally.get fills i).toNat + hits placements b.parts i < 2 ^ 64) :
    let booking := ofBundle placements b fills deltas
    (booking.accepted = true ↔
        0 < b.count ∧ located placements b.parts = b.count.toNat ∧
          ∀ i : Fin placements.length, 0 < hits placements b.parts i →
            (Tally.get fills i).toNat + hits placements b.parts i ≤ (placements.get i).wanted.toNat) ∧
      (booking.accepted = true → ∀ position,
        (Tally.get booking.fills position).toNat =
          (Tally.get fills position).toNat + hits placements b.parts position) ∧
      (booking.accepted = false → booking.fills = fills) ∧
      ∀ other, (ofBundle placements b fills other).accepted = booking.accepted ∧
        (ofBundle placements b fills other).fills = booking.fills := by
  intro booking
  have hall := forall_add_hits_lt hsmall
  refine ⟨?_, fun hyes => toNat_get_fills hall hyes, fills_of_refused, fun other => ?_⟩
  · have hcounts : b.count ≠ 0 ↔ 0 < b.count := by
      rw [UInt64.lt_iff_toNat_lt, Ne, ← UInt64.toNat_inj]
      exact Nat.pos_iff_ne_zero.symm
    rw [accepted_iff hall, hcounts, and_assoc]
    refine and_congr Iff.rfl (and_congr Iff.rfl ?_)
    constructor
    · intro hroom i
      exact hroom i placements[i] (List.getElem?_eq_getElem i.isLt)
    · intro hroom position p hp
      rcases List.getElem?_eq_some_iff.mp hp with ⟨hlt, rfl⟩
      exact hroom ⟨position, hlt⟩
  · exact ofBundle_of_other_deltas placements b fills other deltas

end Booking

namespace Sample

/-- Two parts of the bundle go to the first placement of the name. -/
def triple : Bundle :=
  ⟨3, [priced "triple-1" "top" 2, priced "triple-2" "side" 1, priced "triple-3" "top" 1]⟩

end Sample

/-- The bundle is booked over deltas that hold old counts, and there is no room for it a second time. -/
theorem Booking.bundle_is_booked_whole_or_not_of_triple :
    let booking := ofBundle Sample.twice Sample.triple (Sample.counts [0, 0, 0])
      (Sample.counts [9, 9, 9, 9])
    (∀ i : Fin Sample.twice.length,
        (Tally.get (Sample.counts [0, 0, 0]) i).toNat +
          hits Sample.twice Sample.triple.parts i < 2 ^ 64) ∧
      booking.accepted = true ∧ booking.fills.cells = [2, 1, 0] ∧
      (∀ i : Fin Sample.twice.length,
        (Tally.get booking.fills i).toNat + hits Sample.twice Sample.triple.parts i < 2 ^ 64) ∧
      (ofBundle Sample.twice Sample.triple booking.fills booking.deltas).accepted = false ∧
      (ofBundle Sample.twice Sample.triple booking.fills booking.deltas).fills = booking.fills := by
  intro booking
  have hsmall : ∀ i : Fin Sample.twice.length,
      (Tally.get (Sample.counts [0, 0, 0]) i).toNat +
        hits Sample.twice Sample.triple.parts i < 2 ^ 64 := by decide
  have hyes : booking.accepted = true :=
    (bundle_is_booked_whole_or_not _ _ _ _ hsmall).1.mpr (by decide)
  have hcells : booking.fills.cells = [2, 1, 0] := by decide
  have hsmall' : ∀ i : Fin Sample.twice.length,
      (Tally.get booking.fills i).toNat + hits Sample.twice Sample.triple.parts i < 2 ^ 64 := by
    decide
  have hagain := bundle_is_booked_whole_or_not Sample.twice Sample.triple booking.fills
    booking.deltas hsmall'
  have hno : (ofBundle Sample.twice Sample.triple booking.fills booking.deltas).accepted = false := by
    apply Bool.eq_false_of_not_eq_true
    intro hyes'
    -- The first position counts two, and wants two.
    have hfull := (hagain.1.mp hyes').2.2 ⟨0, by decide⟩ (by decide)
    exact absurd hfull (by decide)
  exact ⟨hsmall, hyes, hcells, hsmall', hno, hagain.2.2.1 hno⟩

/-! ## Walks -/

section

variable {ledger : Ledger} {won : List Candidate}

theorem Booking.reached_fills {b : Bundle} {fills deltas : Tally} (h : Tally.Reached placements fills)
    (hsmall : located placements b.parts = b.count.toNat → ∀ position,
      (Tally.get fills position).toNat + hits placements b.parts position < 2 ^ 64) :
    Tally.Reached placements (ofBundle placements b fills deltas).fills := by
  rcases ofBundle_cases placements b fills deltas with
    ⟨_, _, hsame⟩ | ⟨⟨_, hlocated⟩, t, ht, hcommit⟩
  · rw [hsame]
    exact h
  · have hadd : Tally.Addable fills t := by
      intro position
      have hsum := hsmall hlocated position
      rw [ht, UInt64.toNat_ofNat']
      unfold Word.limit
      omega
    have hfills : (ofBundle placements b fills deltas).fills =
        (Tally.commit fills t placements).2 := congrArg Prod.snd hcommit
    rw [hfills]
    exact h.committed hadd

/-- An offer writes to the tally only where there is room. -/
theorem Ledger.Accounts.reached_offer (h : ledger.Accounts placements won)
    (hreached : Tally.Reached placements ledger.fills) (c : Candidate) :
    Tally.Reached placements (ledger.offer placements c).2.fills := by
  unfold Ledger.offer
  cases c.bundle? with
  | none =>
      dsimp only
      unfold Ledger.offerSingle
      cases Placement.locate placements c.placement with
      | none => exact hreached
      | some position =>
          dsimp only
          split
          · exact hreached.incremented ‹_›
          · exact hreached
  | some b =>
      dsimp only
      unfold Ledger.offerBundle
      by_cases hskip : ledger.openSlots < b.count
      · rw [if_pos hskip]
        exact hreached
      · rw [if_neg hskip]
        have hroom := UInt64.not_lt.mp hskip
        exact Booking.reached_fills hreached fun hlocated => h.small_of_located hroom hlocated

namespace Fill

theorem reached_walk (h : ledger.Accounts placements won)
    (hreached : Tally.Reached placements ledger.fills) (pool : List Candidate) :
    Tally.Reached placements (walk placements pool ledger).ledger.fills := by
  induction pool generalizing ledger won with
  | nil => exact hreached
  | cons c rest ih =>
      by_cases hclosed : ledger.openSlots < 1
      · rw [walk_of_closed hclosed]
        exact hreached
      · have hlater := ih (h.offer hclosed (c := c)) (h.reached_offer hreached c)
        rw [walk_of_open hclosed]
        cases (ledger.offer placements c).1 with
        | true => exact hlater
        | false => exact hlater

/-- Whatever the pool and the buffers, the tally of a fill is reached by writes that had room. -/
theorem reached_fills (placements : List Placement) (pool : List Candidate) (fills deltas : Tally) :
    Tally.Reached placements (ofPool placements pool fills deltas).ledger.fills :=
  reached_walk (Ledger.accounts_start placements fills deltas) (.cleared fills) pool

end Fill

end

end SlotAuction
