import SlotAuction.Fill

/-!
# Buffers — a fill does not depend on the buffers that it is given

A fill clears the tally that it books in, and each booking clears the deltas first.  So neither the
counts that the buffers held before nor their allotments have an influence on anything but the
buffers themselves.

* `Ledger.Alike` — ledgers that differ in deltas and allotments at most; offers keep them alike;
* `Fill.fresh` — the fill with new buffers;
* `Fill.winners_ofPool`, `Fill.tail_ofPool`, `Fill.openSlots_ofPool` — every fill agrees with it.
-/

namespace SlotAuction

variable {placements : List Placement}

/-! ## Tallies with the same cells -/

namespace Tally

variable {t u deltas deltas' : Tally}

theorem get_congr (h : t.cells = u.cells) (position : Nat) : get t position = get u position := by
  simp only [get, h]

theorem cells_clearTo (t u : Tally) (size : Nat) : (clearTo t size).cells = (clearTo u size).cells := by
  simp [clearTo]

theorem cells_increment (h : t.cells = u.cells) (position : Nat) (n : UInt64) :
    (increment t position n).cells = (increment u position n).cells := by
  have hgrown : (if t.length ≤ position then t.resize (position + 1) 0 else t).cells =
      (if u.length ≤ position then u.resize (position + 1) 0 else u).cells := by
    unfold Buffer.length
    rw [h]
    split
    · simp [h]
    · exact h
  simp only [increment, Buffer.cells_set, get_congr hgrown, hgrown]

theorem cells_addFrom (h : t.cells = u.cells) (position : Nat) (counts : List UInt64) :
    (addFrom t position counts).cells = (addFrom u position counts).cells := by
  induction counts generalizing t u position with
  | nil => exact h
  | cons count counts ih =>
      refine ih ?_ (position + 1)
      split
      · exact cells_increment h position count
      · exact h

theorem hasRoom_congr (h : t.cells = u.cells) (position : Nat) :
    hasRoom t placements position = hasRoom u placements position := by
  simp only [hasRoom, get_congr h]

theorem fits_congr (h : t.cells = u.cells) (hdeltas : deltas.cells = deltas'.cells) :
    fits t deltas placements = fits u deltas' placements := by
  simp only [fits, fitsAt, hdeltas, get_congr h]

theorem commit_congr (h : t.cells = u.cells) (hdeltas : deltas.cells = deltas'.cells) :
    (commit t deltas placements).1 = (commit u deltas' placements).1 ∧
      (commit t deltas placements).2.cells = (commit u deltas' placements).2.cells := by
  unfold commit
  rw [fits_congr h hdeltas]
  split
  · exact ⟨rfl, by rw [hdeltas]; exact cells_addFrom h 0 deltas'.cells⟩
  · exact ⟨rfl, h⟩

end Tally

namespace Booking

variable {t u : Tally}

theorem cells_countParts (placements : List Placement) (h : t.cells = u.cells) (parts : List Candidate) :
    (countParts placements parts t).cells = (countParts placements parts u).cells := by
  induction parts generalizing t u with
  | nil => exact h
  | cons part parts ih =>
      unfold countParts
      cases Placement.locate placements part.placement with
      | none => exact ih h
      | some position => exact ih (Tally.cells_increment h position 1)

theorem ofBundle_congr (placements : List Placement) (h : t.cells = u.cells) (b : Bundle) (deltas deltas' : Tally) :
    (ofBundle placements b t deltas).accepted = (ofBundle placements b u deltas').accepted ∧
      (ofBundle placements b t deltas).fills.cells = (ofBundle placements b u deltas').fills.cells := by
  have hdeltas := cells_countParts placements
    (Tally.cells_clearTo deltas deltas' placements.length) b.parts
  unfold ofBundle
  split
  · exact ⟨rfl, h⟩
  · dsimp only
    split
    · exact Tally.commit_congr h hdeltas
    · exact ⟨rfl, h⟩

end Booking

/-! ## Ledgers that differ in their buffers -/

/-- Both ledgers say the same, up to deltas and allotments. -/
structure Ledger.Alike (l m : Ledger) : Prop where
  openSlots : l.openSlots = m.openSlots
  bundleSkipped : l.bundleSkipped = m.bundleSkipped
  fills : l.fills.cells = m.fills.cells

namespace Ledger

variable {l m : Ledger}

theorem alike_start (fills deltas fills' deltas' : Tally) :
    Alike (start placements fills deltas) (start placements fills' deltas') :=
  ⟨rfl, rfl, Tally.cells_clearTo fills fills' placements.length⟩

theorem Alike.offerSingle (h : Alike l m) (id : String) :
    (l.offerSingle placements id).1 = (m.offerSingle placements id).1 ∧
      Alike (l.offerSingle placements id).2 (m.offerSingle placements id).2 := by
  unfold Ledger.offerSingle
  cases Placement.locate placements id with
  | none => exact ⟨rfl, h⟩
  | some position =>
      dsimp only
      rw [Tally.hasRoom_congr h.fills]
      split
      · exact ⟨rfl, by simp only [h.openSlots], h.bundleSkipped,
          Tally.cells_increment h.fills position 1⟩
      · exact ⟨rfl, h⟩

theorem Alike.offerBundle (h : Alike l m) (b : Bundle) :
    (l.offerBundle placements b).1 = (m.offerBundle placements b).1 ∧
      Alike (l.offerBundle placements b).2 (m.offerBundle placements b).2 := by
  obtain ⟨haccepted, hfills⟩ := Booking.ofBundle_congr placements h.fills b l.deltas m.deltas
  unfold Ledger.offerBundle
  rw [h.openSlots]
  split
  · exact ⟨rfl, rfl, rfl, h.fills⟩
  · exact ⟨haccepted, by simp only [haccepted], h.bundleSkipped, hfills⟩

theorem Alike.offer (placements : List Placement) (h : Alike l m) (c : Candidate) :
    (l.offer placements c).1 = (m.offer placements c).1 ∧
      Alike (l.offer placements c).2 (m.offer placements c).2 := by
  unfold Ledger.offer
  cases c.bundle? with
  | none => exact h.offerSingle c.placement
  | some b => exact h.offerBundle b

end Ledger

/-! ## Fills -/

namespace Fill

theorem walk_congr (pool : List Candidate) {l m : Ledger} (h : Ledger.Alike l m) :
    (walk placements pool l).winners = (walk placements pool m).winners ∧
      (walk placements pool l).tail? = (walk placements pool m).tail? ∧
        Ledger.Alike (walk placements pool l).ledger (walk placements pool m).ledger := by
  induction pool generalizing l m with
  | nil => exact ⟨rfl, rfl, h⟩
  | cons c rest ih =>
      obtain ⟨hsame, hnext⟩ := h.offer placements c
      obtain ⟨hwinners, htail, hledger⟩ := ih hnext
      unfold walk
      dsimp only
      rw [h.openSlots, h.bundleSkipped, hsame]
      split
      · exact ⟨rfl, rfl, h⟩
      · split
        · exact ⟨congrArg (c :: ·) hwinners, htail, hledger⟩
        · exact ⟨hwinners, htail, hledger⟩

/-- The fill of a pool with new buffers. -/
def fresh (placements : List Placement) (pool : List Candidate) : Fill :=
  ofPool placements pool Buffer.empty Buffer.empty

section

variable (placements) (pool : List Candidate) (fills deltas : Tally)

theorem winners_ofPool :
    (ofPool placements pool fills deltas).winners = (fresh placements pool).winners :=
  (walk_congr pool (Ledger.alike_start ..)).1

theorem tail_ofPool :
    (ofPool placements pool fills deltas).tail? = (fresh placements pool).tail? :=
  (walk_congr pool (Ledger.alike_start ..)).2.1

theorem openSlots_ofPool :
    (ofPool placements pool fills deltas).ledger.openSlots =
      (fresh placements pool).ledger.openSlots :=
  (walk_congr pool (Ledger.alike_start ..)).2.2.openSlots

end

end Fill
end SlotAuction
