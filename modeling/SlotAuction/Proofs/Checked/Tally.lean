import SlotAuction.Proofs.Commitment

/-!
# Checked tallies — counts that must not wrap

Words wrap, and a cell past the end of a buffer is passed over.  Here the same operations are refused where
that would happen: a checked operation gives none if a number does not fit, or a cell is not there.

* `Word.addChecked`, `Word.subChecked`, `Word.sumChecked` — words that do not wrap;
* `Tally.incrementChecked`, `Tally.commitChecked` — the operations of a tally;
* `Tally.incrementChecked_eq`, `Tally.commitChecked_eq` — where the counts fit they are the plain ones.
-/

namespace SlotAuction

open scoped Arithmetic

/-! ## Words -/

namespace Word

def addChecked (a b : UInt64) : Option UInt64 :=
  if a.toNat + b.toNat ≤ limit then some (a + b) else none

def subChecked (a b : UInt64) : Option UInt64 :=
  if b ≤ a then some (a - b) else none

def sumFromChecked (start : UInt64) : List UInt64 → Option UInt64
  | [] => some start
  | w :: rest => do
      let sum ← addChecked start w
      sumFromChecked sum rest

def sumChecked (words : List UInt64) : Option UInt64 :=
  sumFromChecked 0 words

theorem addChecked_eq {a b : UInt64} (h : a.toNat + b.toNat ≤ limit) : addChecked a b = some (a + b) :=
  if_pos h

/-- One more than the greatest word is none, where the plain sum would be zero. -/
example : addChecked 18446744073709551615 1 = none ∧ (18446744073709551615 : UInt64) + 1 = 0 := by
  decide

theorem subChecked_eq {a b : UInt64} (h : b ≤ a) : subChecked a b = some (a - b) :=
  if_pos h

theorem toNat_add_of_le {a b : UInt64} (h : a.toNat + b.toNat ≤ limit) :
    (a + b).toNat = a.toNat + b.toNat := by
  rw [UInt64.toNat_add]
  unfold limit at h
  omega

theorem sumFromChecked_eq {start : UInt64} {words : List UInt64}
    (h : start.toNat + (words.map UInt64.toNat).sum ≤ limit) :
    sumFromChecked start words = some (start + words.sum) := by
  induction words generalizing start with
  | nil => simp [sumFromChecked]
  | cons w rest ih =>
      rw [List.map_cons, List.sum_cons] at h
      have hadd : start.toNat + w.toNat ≤ limit := by omega
      have hlater : (start + w).toNat + (rest.map UInt64.toNat).sum ≤ limit := by
        rw [toNat_add_of_le hadd]
        omega
      rw [sumFromChecked, addChecked_eq hadd]
      show sumFromChecked (start + w) rest = _
      rw [ih hlater, List.sum_cons, UInt64.add_assoc]

/-- Words that fit in all never wrap on the way. -/
theorem sumChecked_eq {words : List UInt64} (h : (words.map UInt64.toNat).sum ≤ limit) :
    sumChecked words = some words.sum := by
  rw [sumChecked, sumFromChecked_eq (by simpa using h), UInt64.zero_add]

end Word

/-! ## Buffers -/

/-- Writes a cell that must be there. -/
def Buffer.setChecked {α : Type} [Cell α] (b : Buffer α) (position : Nat) (cell : α) :
    Option (Buffer α) :=
  if position < b.length then some (b.set position cell) else none

/-! ## Tallies -/

namespace Tally

def incrementChecked (t : Tally) (position : Nat) (n : UInt64) : Option Tally := do
  let t := if t.length ≤ position then t.resize (position + 1) 0 else t
  let count ← t.cells[position]?
  let sum ← Word.addChecked count n
  t.setChecked position sum

def fitsAtChecked (t : Tally) (placements : List Placement) (position : Nat) (delta : UInt64) :
    Option Bool :=
  if delta = 0 then some true
  else
    match placements[position]? with
    | some p => (Word.addChecked (get t position) delta).map fun sum => decide (sum ≤ p.wanted)
    | none => some false

/-- Looks at one position after the other, up to the first one without room. -/
def fitsFromChecked (t : Tally) (placements : List Placement) : Nat → List UInt64 → Option Bool
  | _, [] => some true
  | position, delta :: rest => do
      let here ← fitsAtChecked t placements position delta
      if here then fitsFromChecked t placements (position + 1) rest else some false

def addAtChecked (t : Tally) (position : Nat) (delta : UInt64) : Option Tally :=
  if 0 < delta then incrementChecked t position delta else some t

def addFromChecked (t : Tally) (position : Nat) : List UInt64 → Option Tally
  | [] => some t
  | delta :: rest => do
      let t ← addAtChecked t position delta
      addFromChecked t (position + 1) rest

def commitChecked (t deltas : Tally) (placements : List Placement) : Option (Bool × Tally) := do
  let fitting ← fitsFromChecked t placements 0 deltas.cells
  if fitting then
    let t ← addFromChecked t 0 deltas.cells
    some (true, t)
  else some (false, t)

/-! ### Where the counts fit -/

/-- A tally that has grown to the position is long enough to write there. -/
theorem incrementChecked_eq {t : Tally} {position : Nat} {n : UInt64}
    (h : (get t position).toNat + n.toNat ≤ Word.limit) :
    incrementChecked t position n = some (increment t position n) := by
  have hwrite : ∀ u : Tally, position < u.length → get u position = get t position →
      (do
        let count ← u.cells[position]?
        let sum ← Word.addChecked count n
        u.setChecked position sum) = some (u.set position (get u position + n)) := by
    intro u hinside hsame
    have hcell : u.cells[position]? = some (get u position) := by
      have hlt : position < u.cells.length := hinside
      simp [get, List.getD_eq_getElem?_getD, hlt]
    rw [hcell]
    show (Word.addChecked (get u position) n).bind _ = _
    rw [Word.addChecked_eq (hsame ▸ h), Option.bind_some]
    exact if_pos hinside
  unfold incrementChecked increment
  by_cases hpast : t.length ≤ position
  · simp only [if_pos hpast]
    refine hwrite _ ?_ (get_resize_of_le t _ _ (by omega))
    rw [Buffer.length_resize]
    omega
  · simp only [if_neg hpast]
    exact hwrite t (Nat.lt_of_not_le hpast) rfl

theorem fitsAtChecked_eq {t : Tally} {position : Nat} {delta : UInt64}
    (h : (get t position).toNat + delta.toNat ≤ Word.limit) (placements : List Placement) :
    fitsAtChecked t placements position delta = some (fitsAt t placements position delta) := by
  unfold fitsAtChecked fitsAt
  by_cases hnone : delta = 0
  · rw [if_pos hnone, hnone]
    rfl
  · rw [if_neg hnone, beq_false_of_ne hnone, Bool.false_or]
    cases placements[position]? with
    | none => rfl
    | some p =>
        dsimp only
        rw [Word.addChecked_eq h]
        rfl

theorem fitsFromChecked_eq {t : Tally} {position : Nat} {deltas : List UInt64}
    (h : ∀ i, (get t (position + i)).toNat + (deltas.getD i 0).toNat ≤ Word.limit)
    (placements : List Placement) :
    fitsFromChecked t placements position deltas =
      some ((deltas.zipIdx position).all fun (delta, position) =>
        fitsAt t placements position delta) := by
  induction deltas generalizing position with
  | nil => rfl
  | cons delta rest ih =>
      have hlater : ∀ i, (get t (position + 1 + i)).toNat + (rest.getD i 0).toNat ≤ Word.limit := by
        intro i
        have hi := h (i + 1)
        rwa [← Nat.add_assoc, Nat.add_right_comm, List.getD_cons_succ] at hi
      have hhere : fitsAtChecked t placements position delta =
          some (fitsAt t placements position delta) := fitsAtChecked_eq (h 0) placements
      rw [fitsFromChecked, hhere]
      show (if fitsAt t placements position delta = true then _ else _) = _
      rw [ih hlater, List.zipIdx_cons, List.all_cons]
      dsimp only
      cases fitsAt t placements position delta with
      | true => rfl
      | false => rfl

theorem addFromChecked_eq {t : Tally} {position : Nat} {deltas : List UInt64}
    (h : ∀ i, (get t (position + i)).toNat + (deltas.getD i 0).toNat ≤ Word.limit) :
    addFromChecked t position deltas = some (addFrom t position deltas) := by
  induction deltas generalizing t position with
  | nil => rfl
  | cons delta rest ih =>
      have hhere : addAtChecked t position delta =
          some (if 0 < delta then increment t position delta else t) := by
        unfold addAtChecked
        split
        · exact incrementChecked_eq (h 0)
        · rfl
      rw [addFromChecked, hhere]
      refine ih fun i => ?_
      -- A write at the position changes no count after it.
      have hsame : get (if 0 < delta then increment t position delta else t) (position + 1 + i) =
          get t (position + (i + 1)) := by
        rw [Nat.add_assoc, Nat.add_comm 1 i]
        split
        · rw [get_increment, if_neg (by omega)]
        · rfl
      have hi := h (i + 1)
      rwa [List.getD_cons_succ, ← hsame] at hi

/-- If the counts of both tallies fit together, nothing wraps while one is committed to the other. -/
theorem commitChecked_eq {t deltas : Tally}
    (h : ∀ position, (get t position).toNat + (get deltas position).toNat ≤ Word.limit)
    (placements : List Placement) :
    commitChecked t deltas placements = some (commit t deltas placements) := by
  have hcells : ∀ i, (get t (0 + i)).toNat + (deltas.cells.getD i 0).toNat ≤ Word.limit := by
    intro i
    rw [Nat.zero_add]
    exact h i
  unfold commitChecked commit
  rw [fitsFromChecked_eq hcells, addFromChecked_eq hcells]
  show (if fits t deltas placements = true then _ else _) = _
  cases fits t deltas placements with
  | true => rfl
  | false => rfl

end Tally
end SlotAuction
