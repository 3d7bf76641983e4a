import SlotAuction.Exchange

/-!
# Buffers of an exchange — only the marks count

A walk over the winners asks which entries of the tail are taken, and forgets before each bundle what
was found for the one before.  Allotments decide nothing, nor does what is found when the walk begins.

* `Marks.Alike` — marks with the same cells; searches and covers keep them alike;
* `Exchange.Alike`, `Exchange.walk_congr` — walks that begin with the same entries taken do the same;
* `Exchange.ofFill_congr` — so an exchange is the same with any two buffers that say the same.
-/

namespace SlotAuction

/-! ## Marks with the same cells -/

namespace Marks

/-- The marks say the same, up to allotments. -/
structure Alike (m n : Marks) : Prop where
  taken : m.taken.cells = n.taken.cells
  found : m.found.cells = n.found.cells

variable {m n : Marks}

theorem Alike.search (tail parts : List Candidate) (h : Alike m n) :
    Alike (search tail parts m) (search tail parts n) := by
  induction parts generalizing m n with
  | nil => exact h
  | cons part parts ih =>
      unfold Marks.search
      rw [h.taken]
      cases firstFree tail n.taken.cells part.placement with
      | none => exact ih h
      | some position =>
          refine ih ⟨?_, ?_⟩
          · simp [h.taken]
          · simp [h.found]

theorem cells_release_congr {t u : Buffer Bool} (h : t.cells = u.cells) (positions : List Nat) :
    (release t positions).cells = (release u positions).cells := by
  induction positions generalizing t u with
  | nil => exact h
  | cons position rest ih =>
      refine ih ?_
      simp [h]

theorem Alike.cover (tail : List Candidate) (b : Bundle) (h : Alike m n) :
    (cover tail b m).1 = (cover tail b n).1 ∧ Alike (cover tail b m).2 (cover tail b n).2 := by
  have hafter := h.search tail b.parts
  unfold Marks.cover
  dsimp only
  rw [Buffer.length, Buffer.length, hafter.found]
  by_cases henough : (Marks.search tail b.parts n).found.cells ≠ [] ∧
      (Marks.search tail b.parts n).found.cells.length = b.count.toNat
  · rw [if_pos henough, if_pos henough]
    exact ⟨rfl, hafter⟩
  · rw [if_neg henough, if_neg henough]
    exact ⟨rfl, cells_release_congr hafter.taken _, rfl⟩

theorem Alike.covering (tail : List Candidate) (h : Alike m n) :
    covering tail m = covering tail n := by
  rw [Marks.covering, Marks.covering, h.found]

/-- With nothing found, it is the entries taken that count. -/
theorem alike_clear (h : m.taken.cells = n.taken.cells) :
    Alike ⟨m.taken, m.found.clear⟩ ⟨n.taken, n.found.clear⟩ :=
  ⟨h, rfl⟩

end Marks

/-! ## Walks from the same marks -/

namespace Exchange

/-- Both walks do the same to the winners, and take the same entries. -/
structure Alike (e f : Exchange) : Prop where
  kept : e.kept = f.kept
  added : e.added = f.added
  replaced : e.replaced = f.replaced
  taken : e.marks.taken.cells = f.marks.taken.cells

theorem Alike.winners {e f : Exchange} (h : Alike e f) : e.winners = f.winners := by
  rw [Exchange.winners, Exchange.winners, h.kept, h.added]

theorem Alike.keep {e f : Exchange} (winner : Candidate) (h : Alike e f) :
    Alike (keep winner e) (keep winner f) :=
  ⟨congrArg (winner :: ·) h.kept, h.added, h.replaced, h.taken⟩

theorem Alike.replace {e f : Exchange} (standIn : Candidate) (others : List Candidate)
    (h : Alike e f) : Alike (replace standIn others e) (replace standIn others f) :=
  ⟨congrArg (standIn :: ·) h.kept, congrArg (others ++ ·) h.added, congrArg (· + 1) h.replaced,
    h.taken⟩

theorem alike_stop {m n : Marks} (winners : List Candidate) (h : m.taken.cells = n.taken.cells) :
    Alike (stop winners m) (stop winners n) :=
  ⟨rfl, rfl, rfl, h⟩

theorem walk_congr (tail winners : List Candidate) (available : Nat) {m n : Marks}
    (h : m.taken.cells = n.taken.cells) :
    Alike (walk tail winners available m) (walk tail winners available n) := by
  induction winners generalizing available m n with
  | nil => exact alike_stop [] h
  | cons winner rest ih =>
      unfold walk
      by_cases hnone : available = 0
      · rw [if_pos hnone, if_pos hnone]
        exact alike_stop _ h
      · rw [if_neg hnone, if_neg hnone]
        cases winner.bundle? with
        | none => exact alike_stop _ h
        | some b =>
            dsimp only
            by_cases hlarge : available < b.count.toNat
            · rw [if_pos hlarge, if_pos hlarge]
              exact (ih available h).keep winner
            · rw [if_neg hlarge, if_neg hlarge]
              obtain ⟨hcovered, hafter⟩ := (Marks.alike_clear h).cover tail b
              rw [hcovered, hafter.covering tail, Buffer.length, Buffer.length, hafter.found]
              -- Covered or not, both walks go on from marks that are alike.
              split
              · exact (ih _ hafter.taken).replace _ _
              · exact (ih available hafter.taken).keep winner

/-- The exchange is the same with flags that say the same, whatever the allotments. -/
theorem ofFill_congr (tail winners : List Candidate) {taken taken' : Buffer Bool}
    (found found' : Buffer Nat) (h : taken.cells = taken'.cells) :
    Alike (ofFill tail winners taken found) (ofFill tail winners taken' found') := by
  refine walk_congr tail _ _ ?_
  simp [h]

end Exchange
end SlotAuction
