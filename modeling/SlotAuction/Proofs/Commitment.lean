import SlotAuction.Fill
import SlotAuction.Proofs.Landing

/-!
# Commitment — what a commit and a booking change

Tallies count in words that wrap, and a booking works on two of them.  Here both are described by
what `Tally.get` reads afterwards:

* `Tally.fits_iff`, `Tally.get_commit` — a commit adds every count or none;
* `Booking.accepted_iff` — a bundle is booked exactly if it counts its located parts, has one, and
  every placement that they hit has room for all of them together;
* `Booking.toNat_get_fills` — and then each placement counts the parts that hit it.

What the deltas held before a booking appears in none of them.
-/

namespace SlotAuction

variable {placements : List Placement}

/-! ## Commits -/

namespace Tally

theorem get_addFrom (t : Tally) (position : Nat) (deltas : List UInt64) (other : Nat) :
    get (addFrom t position deltas) other =
      get t other + if position ≤ other then deltas.getD (other - position) 0 else 0 := by
  induction deltas generalizing t position with
  | nil => simp [addFrom]
  | cons delta deltas ih =>
      -- A count of zero is passed over, which adds it just as well.
      have hhead : get (if 0 < delta then increment t position delta else t) other =
          get t other + if other = position then delta else 0 := by
        by_cases hpos : 0 < delta
        · rw [if_pos hpos, get_increment]
          by_cases hsame : other = position <;> simp [hsame]
        · have hzero : delta = 0 := by
            simpa [UInt64.lt_iff_toNat_lt, UInt64.toNat_inj.symm] using hpos
          simp [hzero]
      rw [addFrom, ih, hhead, UInt64.add_assoc]
      congr 1
      rcases Nat.lt_trichotomy other position with hlt | rfl | hgt
      · have h₁ : other ≠ position := by omega
        have h₂ : ¬ position + 1 ≤ other := by omega
        have h₃ : ¬ position ≤ other := by omega
        simp [h₁, h₂, h₃]
      · simp
      · obtain ⟨gap, rfl⟩ : ∃ gap, other = position + 1 + gap := ⟨other - (position + 1), by omega⟩
        have h₁ : position + 1 + gap ≠ position := by omega
        have h₂ : position ≤ position + 1 + gap := by omega
        have h₃ : position + 1 + gap - position = gap + 1 := by omega
        simp [h₁, h₂, h₃]

theorem fits_iff (t deltas : Tally) :
    fits t deltas placements = true ↔
      ∀ position, fitsAt t placements position (get deltas position) = true := by
  unfold fits
  rw [List.all_eq_true]
  constructor
  · intro h position
    unfold get
    cases hcell : deltas.cells[position]? with
    | none =>
        simp [List.getD_eq_getElem?_getD, hcell, fitsAt]
    | some delta =>
        have hmem : (delta, position) ∈ deltas.cells.zipIdx :=
          List.mem_zipIdx_iff_getElem?.mpr hcell
        simpa [List.getD_eq_getElem?_getD, hcell] using h (delta, position) hmem
  · rintro h ⟨delta, position⟩ hmem
    have hcell : deltas.cells[position]? = some delta := List.mem_zipIdx_iff_getElem?.mp hmem
    simpa [get, List.getD_eq_getElem?_getD, hcell] using h position

theorem commit_fst (t deltas : Tally) :
    (commit t deltas placements).1 = fits t deltas placements := by
  unfold commit
  split <;> simp_all

theorem commit_of_not_fits {t deltas : Tally} (h : fits t deltas placements = false) :
    commit t deltas placements = (false, t) := by
  simp [commit, h]

theorem get_commit {t deltas : Tally} (h : fits t deltas placements = true) (position : Nat) :
    get (commit t deltas placements).2 position = get t position + get deltas position := by
  rw [commit, if_pos h, get_addFrom]
  simp [get]

/-- Room for `n` more slots, where the count with them does not wrap. -/
theorem fitsAt_iff {t : Tally} {position n : Nat}
    (hsmall : (get t position).toNat + n < 2 ^ 64) :
    fitsAt t placements position (.ofNat n) = true ↔
      n = 0 ∨ ∃ p, placements[position]? = some p ∧ (get t position).toNat + n ≤ p.wanted.toNat := by
  have hn : (UInt64.ofNat n).toNat = n := by
    simp only [UInt64.toNat_ofNat']
    omega
  have hsum : (get t position + .ofNat n).toNat = (get t position).toNat + n := by
    rw [UInt64.toNat_add, hn]
    omega
  have hzero : UInt64.ofNat n = 0 ↔ n = 0 := by
    rw [← UInt64.toNat_inj, hn]
    rfl
  unfold fitsAt
  rw [Bool.or_eq_true, beq_iff_eq, hzero]
  refine or_congr Iff.rfl ?_
  cases placements[position]? with
  | none => simp
  | some p => simp [UInt64.le_iff_toNat_le, hsum]

end Tally

/-! ## Bookings -/

namespace Booking

/-- How many parts name the placement at a position. -/
def hits (placements : List Placement) (parts : List Candidate) (position : Nat) : Nat :=
  parts.countP fun part => Placement.locate placements part.placement == some position

theorem hits_cons (part : Candidate) (parts : List Candidate) (position : Nat) :
    hits placements (part :: parts) position = hits placements parts position +
      if Placement.locate placements part.placement = some position then 1 else 0 := by
  simp [hits, List.countP_cons]

theorem located_cons (part : Candidate) (parts : List Candidate) :
    located placements (part :: parts) = located placements parts +
      if (Placement.locate placements part.placement).isSome then 1 else 0 :=
  List.countP_cons

theorem get_countParts (parts : List Candidate) (deltas : Tally) (position : Nat) :
    Tally.get (countParts placements parts deltas) position =
      Tally.get deltas position + .ofNat (hits placements parts position) := by
  induction parts generalizing deltas with
  | nil => simp [countParts, hits]
  | cons part parts ih =>
      unfold countParts
      rw [hits_cons]
      cases hfound : Placement.locate placements part.placement with
      | none => exact ih deltas
      | some place =>
          dsimp only
          rw [ih, Tally.get_increment]
          by_cases hsame : position = place
          · rw [hsame, if_pos rfl, if_pos rfl, UInt64.ofNat_add, UInt64.add_assoc, UInt64.add_comm 1]
            rfl
          · have hother : ¬ some place = some position := fun h => hsame (Option.some.inj h).symm
            rw [if_neg hsame, if_neg hother, Nat.add_zero]

theorem hits_eq_zero (parts : List Candidate) {position : Nat} (h : placements[position]? = none) :
    hits placements parts position = 0 := by
  refine List.countP_eq_zero.mpr fun part _ hpart => ?_
  have := Placement.locate_lt (beq_iff_eq.mp hpart)
  have := List.getElem?_eq_none_iff.mp h
  omega

theorem hits_le_located (placements : List Placement) (parts : List Candidate) (position : Nat) :
    hits placements parts position ≤ located placements parts := by
  refine List.countP_mono_left fun part _ hpart => ?_
  simp [beq_iff_eq.mp hpart]

section

variable {b : Bundle} {fills deltas : Tally}

/-- A booking is refused before the placements are asked, or it is a commit of the hits. -/
theorem ofBundle_cases (placements : List Placement) (b : Bundle) (fills deltas : Tally) :
    (¬ (b.count ≠ 0 ∧ located placements b.parts = b.count.toNat) ∧
        (ofBundle placements b fills deltas).accepted = false ∧
        (ofBundle placements b fills deltas).fills = fills) ∨
      ((b.count ≠ 0 ∧ located placements b.parts = b.count.toNat) ∧
        ∃ hitsTally : Tally,
          (∀ position, Tally.get hitsTally position = .ofNat (hits placements b.parts position)) ∧
          ((ofBundle placements b fills deltas).accepted, (ofBundle placements b fills deltas).fills) =
            Tally.commit fills hitsTally placements) := by
  unfold ofBundle
  by_cases hcount : b.count = 0
  · left
    simp [hcount]
  · by_cases hlocated : located placements b.parts = b.count.toNat
    · right
      refine ⟨⟨hcount, hlocated⟩,
        countParts placements b.parts (Tally.clearTo deltas placements.length), ?_, ?_⟩
      · intro position
        rw [get_countParts, Tally.get_clearTo, UInt64.zero_add]
      · simp [hcount, hlocated]
    · left
      simp [hcount, hlocated]

theorem counts_of_accepted (h : (ofBundle placements b fills deltas).accepted = true) :
    b.count ≠ 0 ∧ located placements b.parts = b.count.toNat := by
  rcases ofBundle_cases placements b fills deltas with ⟨_, hrefused, _⟩ | ⟨hgood, _⟩
  · rw [hrefused] at h
    cases h
  · exact hgood

theorem accepted_iff
    (hsmall : ∀ position,
      (Tally.get fills position).toNat + hits placements b.parts position < 2 ^ 64) :
    (ofBundle placements b fills deltas).accepted = true ↔
      (b.count ≠ 0 ∧ located placements b.parts = b.count.toNat) ∧
        ∀ position p, placements[position]? = some p → 0 < hits placements b.parts position →
          (Tally.get fills position).toNat + hits placements b.parts position ≤ p.wanted.toNat := by
  rcases ofBundle_cases placements b fills deltas with ⟨hbad, hrefused, _⟩ | ⟨hgood, t, ht, hcommit⟩
  · simp [hrefused, hbad]
  · have haccepted : (ofBundle placements b fills deltas).accepted = Tally.fits fills t placements := by
      rw [← Tally.commit_fst, ← hcommit]
    rw [haccepted, Tally.fits_iff]
    constructor
    · intro h
      refine ⟨hgood, fun position p hp hhit => ?_⟩
      have hfits := h position
      rw [ht, Tally.fitsAt_iff (hsmall position)] at hfits
      rcases hfits with hnone | ⟨q, hq, hle⟩
      · omega
      · rw [hp] at hq
        cases hq
        exact hle
    · rintro ⟨_, h⟩ position
      rw [ht, Tally.fitsAt_iff (hsmall position)]
      rcases Nat.eq_zero_or_pos (hits placements b.parts position) with hnone | hhit
      · exact Or.inl hnone
      · right
        cases hp : placements[position]? with
        | none =>
            have := hits_eq_zero b.parts hp
            omega
        | some p => exact ⟨p, rfl, h position p hp hhit⟩

/-- A refused bundle leaves the fills as they are, down to the buffer. -/
theorem fills_of_refused (h : (ofBundle placements b fills deltas).accepted = false) :
    (ofBundle placements b fills deltas).fills = fills := by
  rcases ofBundle_cases placements b fills deltas with ⟨_, _, hsame⟩ | ⟨_, t, _, hcommit⟩
  · exact hsame
  · have hfits : Tally.fits fills t placements = false := by
      rw [← Tally.commit_fst, ← hcommit]
      exact h
    rw [Tally.commit_of_not_fits hfits] at hcommit
    exact congrArg Prod.snd hcommit

theorem toNat_get_fills
    (hsmall : ∀ position,
      (Tally.get fills position).toNat + hits placements b.parts position < 2 ^ 64)
    (h : (ofBundle placements b fills deltas).accepted = true) (position : Nat) :
    (Tally.get (ofBundle placements b fills deltas).fills position).toNat =
      (Tally.get fills position).toNat + hits placements b.parts position := by
  rcases ofBundle_cases placements b fills deltas with ⟨_, hrefused, _⟩ | ⟨_, t, ht, hcommit⟩
  · rw [hrefused] at h
    cases h
  · have hfits : Tally.fits fills t placements = true := by
      rw [← Tally.commit_fst, ← hcommit]
      exact h
    have hfills : (ofBundle placements b fills deltas).fills =
        (Tally.commit fills t placements).2 := by
      rw [← hcommit]
    have := hsmall position
    rw [hfills, Tally.get_commit hfits, ht, UInt64.toNat_add, UInt64.toNat_ofNat']
    omega

end

end Booking
end SlotAuction
