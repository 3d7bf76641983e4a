import SlotAuction.Exchange
import SlotAuction.Proofs.Landing
import SlotAuction.Proofs.Positions

/-!
# Search — which singles of the tail stand in for a bundle

A search goes through the parts of a bundle and takes a free single of the tail for each part that
one is left for.

* `Marks.Free` — an entry of the tail that may be taken: a single that is not taken yet;
* `Marks.Taken` — what it means that a search took the entries at some positions for some parts;
* `Marks.LeadsFree` — that who was taken comes before every free single left for the placement;
* `Marks.search_spec` — every search takes free entries, each once, that name what parts name;
* `Marks.taken_of_cover`, `Marks.taken_of_cover_failed` — a cover takes as many as the bundle counts,
  or leaves all marks as they were.
-/

namespace SlotAuction
namespace Marks

variable {tail : List Candidate}

/-! ## Free entries -/

/-- A single of the tail that is not taken. -/
def Free (tail : List Candidate) (taken : List Bool) (position : Nat) : Prop :=
  taken[position]? = some false ∧ ∃ c, tail[position]? = some c ∧ c.isSingle = true

theorem Free.lt {taken : List Bool} {position : Nat} (h : Free tail taken position) :
    position < tail.length := by
  obtain ⟨_, c, hc, _⟩ := h
  exact (List.getElem?_eq_some_iff.mp hc).1

theorem isSingle_of_free {taken : List Bool} {positions : List Nat}
    (h : ∀ position ∈ positions, Free tail taken position) :
    ∀ c ∈ entriesAt tail positions, c.isSingle = true := by
  intro c hc
  obtain ⟨position, hmem, hentry⟩ := mem_entriesAt.mp hc
  obtain ⟨_, d, hd, hsingle⟩ := h position hmem
  rw [hentry] at hd
  cases hd
  exact hsingle

theorem firstFree_sound {taken : List Bool} {placement : String} {position : Nat}
    (h : firstFree tail taken placement = some position) :
    Free tail taken position ∧ ∃ c, tail[position]? = some c ∧ c.placement = placement := by
  obtain ⟨hlt, hserves, _⟩ := List.findIdx?_eq_some_iff_getElem.mp h
  rw [List.length_zip] at hlt
  have hcell : taken[position]? = some taken[position] := List.getElem?_eq_getElem (by omega)
  have hentry : tail[position]? = some tail[position] := List.getElem?_eq_getElem (by omega)
  simp only [List.getElem_zip, Bool.and_eq_true, Bool.not_eq_true', beq_iff_eq] at hserves
  obtain ⟨hfree, hsingle, hname⟩ := hserves
  exact ⟨⟨by rw [hcell, hfree], _, hentry, hsingle⟩, _, hentry, hname⟩

/-- No free single before the first one names the placement. -/
theorem le_of_firstFree {taken : List Bool} {placement : String} {position p : Nat} {c : Candidate}
    (h : firstFree tail taken placement = some position) (hfree : Free tail taken p)
    (hentry : tail[p]? = some c) (hname : c.placement = placement) : position ≤ p := by
  obtain ⟨_, _, hbefore⟩ := List.findIdx?_eq_some_iff_getElem.mp h
  obtain ⟨hcell, d, hd, hsingle⟩ := hfree
  rw [hentry] at hd
  cases hd
  by_contra hlt
  obtain ⟨hentryLt, rfl⟩ := List.getElem?_eq_some_iff.mp hentry
  obtain ⟨hcellLt, hfalse⟩ := List.getElem?_eq_some_iff.mp hcell
  have hserves := hbefore p (Nat.lt_of_not_le hlt)
  simp [hfalse, hsingle, hname] at hserves

/-! ## What a search takes -/

/-- Who is taken for a placement comes before every free single that is left for it. -/
def LeadsFree (tail : List Candidate) (taken : List Bool) (positions : List Nat) : Prop :=
  ∀ p q x y, tail[p]? = some x → tail[q]? = some y → x.placement = y.placement →
    Free tail taken p → p ∉ positions → q ∈ positions → q < p

theorem leadsFree_nil (tail : List Candidate) (taken : List Bool) : LeadsFree tail taken [] := by
  intro p q x y _ _ _ _ _ hq
  cases hq

/-- If nobody is taken yet, that is said of all rivals. -/
theorem LeadsFree.leadsRivals {taken : List Bool} {positions : List Nat}
    (h : LeadsFree tail taken positions) (hfresh : ∀ p < tail.length, taken[p]? = some false) :
    LeadsRivals tail positions := by
  intro p q x y hx hy hrivals hp hq
  have hlt : p < tail.length := (List.getElem?_eq_some_iff.mp hx).1
  exact h p q x y hx hy hrivals.placement ⟨hfresh p hlt, x, hx, hrivals.left⟩ hp hq

/-- From `marks` to `after`, just the entries at the positions were taken, for some of the parts. -/
structure Taken (tail parts : List Candidate) (marks after : Marks) (positions : List Nat) :
    Prop where
  found : after.found.cells = marks.found.cells ++ positions
  distinct : positions.Nodup
  free : ∀ position ∈ positions, Free tail marks.taken.cells position
  taken : ∀ position, after.taken.cells[position]? =
    if position ∈ positions then some true else marks.taken.cells[position]?
  names : ((entriesAt tail positions).map Candidate.placement).Sublist
    (parts.map Candidate.placement)
  leads : LeadsFree tail marks.taken.cells positions

theorem search_spec (tail parts : List Candidate) (marks : Marks) :
    ∃ positions, Taken tail parts marks (search tail parts marks) positions := by
  induction parts generalizing marks with
  | nil =>
      exact ⟨[], by simp [search], List.nodup_nil, by simp, by simp [search], by simp,
        leadsFree_nil _ _⟩
  | cons part parts ih =>
      unfold search
      cases hfirst : firstFree tail marks.taken.cells part.placement with
      | none =>
          obtain ⟨positions, h⟩ := ih marks
          exact ⟨positions, h.found, h.distinct, h.free, h.taken, h.names.cons _, h.leads⟩
      | some position =>
          obtain ⟨hfree, c, hentry, hname⟩ := firstFree_sound hfirst
          obtain ⟨positions, h⟩ := ih ⟨marks.taken.set position true, marks.found.push position⟩
          have hlt : position < marks.taken.cells.length :=
            (List.getElem?_eq_some_iff.mp hfree.1).1
          -- The entry is no longer free for the rest of the search.
          have hfresh : position ∉ positions := by
            intro hmem
            have := (h.free position hmem).1
            simp [hlt] at this
          refine ⟨position :: positions, ?_, List.nodup_cons.mpr ⟨hfresh, h.distinct⟩, ?_, ?_, ?_, ?_⟩
          · simp [h.found]
          · intro other hmem
            rcases List.mem_cons.mp hmem with rfl | hlater
            · exact hfree
            · obtain ⟨hcell, hsingle⟩ := h.free other hlater
              have hother : position ≠ other := fun hsame => hfresh (hsame ▸ hlater)
              exact ⟨by simpa [hother] using hcell, hsingle⟩
          · intro other
            rw [h.taken]
            by_cases hsame : other = position
            · subst hsame
              simp [hfresh, hlt]
            · have hother : ¬ position = other := fun hs => hsame hs.symm
              simp [hsame, hother]
          · rw [entriesAt_cons hentry, List.map_cons, List.map_cons, hname]
            exact h.names.cons_cons _
          · intro p q x y hx hy hsame hpfree hp hq
            have hother : position ≠ p := fun heq => hp (heq ▸ List.mem_cons_self ..)
            rcases List.mem_cons.mp hq with rfl | hlater
            · rw [hentry] at hy
              cases hy
              exact lt_of_le_of_ne (le_of_firstFree hfirst hpfree hx (hsame.trans hname)) hother
            · have hstill : Free tail (marks.taken.set position true).cells p :=
                ⟨by simpa [hother] using hpfree.1, hpfree.2⟩
              exact h.leads p q x y hx hy hsame hstill (fun hmem => hp (List.mem_cons_of_mem _ hmem))
                hlater

theorem cells_release (taken : Buffer Bool) (positions : List Nat) (position : Nat) :
    (release taken positions).cells[position]? =
      if position ∈ positions then taken.cells[position]?.map (fun _ => false)
      else taken.cells[position]? := by
  induction positions generalizing taken with
  | nil => rfl
  | cons first rest ih =>
      rw [release, ih]
      by_cases hfirst : position = first
      · subst hfirst
        by_cases hlt : position < taken.cells.length
        · simp [hlt]
        · simp [hlt]
      · have hother : ¬ first = position := fun hs => hfirst hs.symm
        simp [hfirst, hother]

/-! ## Covers -/

/-- A cover that fails leaves every entry as free as it was. -/
theorem taken_of_cover_failed {b : Bundle} {marks : Marks} (hempty : marks.found.cells = [])
    (h : (cover tail b marks).1 = false) :
    (cover tail b marks).2.taken.cells = marks.taken.cells := by
  obtain ⟨positions, htaken⟩ := search_spec tail b.parts marks
  unfold cover at h ⊢
  dsimp only at h ⊢
  split at h
  · cases h
  · rename_i hshort
    rw [if_neg hshort]
    refine List.ext_getElem? fun position => ?_
    rw [cells_release, htaken.found, htaken.taken, hempty, List.nil_append]
    by_cases hmem : position ∈ positions
    · simp [hmem, (htaken.free position hmem).1]
    · simp [hmem]

/-- A cover that succeeds leaves the marks as the search does. -/
theorem cover_of_true {b : Bundle} {marks : Marks} (h : (cover tail b marks).1 = true) :
    (cover tail b marks).2 = search tail b.parts marks := by
  unfold cover at h ⊢
  dsimp only at h ⊢
  split at h
  · rename_i henough
    rw [if_pos henough]
  · cases h

/-- A cover that succeeds takes as many entries as the bundle counts, and at least one. -/
theorem taken_of_cover {b : Bundle} {marks : Marks} (hempty : marks.found.cells = [])
    (h : (cover tail b marks).1 = true) :
    ∃ positions, Taken tail b.parts marks (cover tail b marks).2 positions ∧
      (cover tail b marks).2.found.cells = positions ∧
        positions ≠ [] ∧ positions.length = b.count.toNat := by
  obtain ⟨positions, htaken⟩ := search_spec tail b.parts marks
  have hfound : (search tail b.parts marks).found.cells = positions := by
    rw [htaken.found, hempty, List.nil_append]
  unfold cover at h ⊢
  dsimp only at h ⊢
  split at h
  · rename_i henough
    rw [if_pos henough]
    rw [Buffer.length, hfound] at henough
    exact ⟨positions, htaken, hfound, henough.1, henough.2⟩
  · cases h

end Marks
end SlotAuction
