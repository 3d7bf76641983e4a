import SlotAuction.Proofs.Exchange.Lines
import SlotAuction.Proofs.Exchange.Swap

/-!
# Sweep — an exchange tries every bundle before the first single

The walk goes through the winners up to the first single, or until no entry of the tail is left.  Each
bundle on the way is given up or stays, and one that stays could not be covered when it was tried.
Entries of the tail are only ever taken, so it cannot be covered in the end either.

* `Exchange.Tried`, `Exchange.walk_tried` — what one step of the walk does;
* `Exchange.Swept` — what became of the leading bundles, and of the lines of the tail;
* `Exchange.walk_sweeps` — every walk sweeps the leading bundles;
* `Exchange.walk_swaps` — so it is a swap.
-/

namespace SlotAuction

theorem Candidate.isBundle_of_leads {winners : List Candidate} {c : Candidate}
    (h : c ∈ winners.takeWhile isBundle) : c.isBundle = true :=
  List.all_eq_true.mp (List.all_takeWhile ..) c h

namespace Exchange

open Marks (Short Taken cover search waiting)

/-! ## One step -/

/-- What the walk does with one winner, before it goes on with the rest: it stops, keeps the winner, or
replaces it by what a search found. -/
inductive Tried (tail : List Candidate) (winner : Candidate) (rest : List Candidate)
    (available : Nat) (marks : Marks) : Exchange → Prop
  | stopped (h : available = 0 ∨ winner.bundle? = none) :
      Tried tail winner rest available marks (stop (winner :: rest) marks)
  | kept {b : Bundle} {after : Marks} (hb : winner.bundle? = some b)
      (hsame : after.taken.cells = marks.taken.cells)
      (hfails : available < b.count.toNat ∨
        (cover tail b ⟨marks.taken, marks.found.clear⟩).1 = false) :
      Tried tail winner rest available marks (keep winner (walk tail rest available after))
  | replaced {b : Bundle} {after : Marks} {positions : List Nat} {standIn : Candidate}
      {others : List Candidate} (hb : winner.bundle? = some b)
      (hafter : after = search tail b.parts ⟨marks.taken, marks.found.clear⟩)
      (htaken : Taken tail b.parts ⟨marks.taken, marks.found.clear⟩ after positions)
      (hsize : positions.length = b.count.toNat)
      (hentries : entriesAt tail positions = standIn :: others) :
      Tried tail winner rest available marks
        (replace standIn others (walk tail rest (available - positions.length) after))

theorem walk_tried (tail : List Candidate) (winner : Candidate) (rest : List Candidate)
    (available : Nat) (marks : Marks) :
    Tried tail winner rest available marks (walk tail (winner :: rest) available marks) := by
  unfold walk
  by_cases hnone : available = 0
  · rw [if_pos hnone]
    exact .stopped (Or.inl hnone)
  · rw [if_neg hnone]
    cases hb : winner.bundle? with
    | none => exact .stopped (Or.inr hb)
    | some b =>
        dsimp only
        by_cases hlarge : available < b.count.toNat
        · rw [if_pos hlarge]
          exact .kept hb rfl (Or.inl hlarge)
        · rw [if_neg hlarge]
          -- The marks with which the bundle is tried: nothing is found for it yet.
          have hempty : (⟨marks.taken, marks.found.clear⟩ : Marks).found.cells = [] := rfl
          cases hcover : (cover tail b ⟨marks.taken, marks.found.clear⟩).1 with
          | false =>
              exact .kept hb (Marks.taken_of_cover_failed hempty hcover) (Or.inr hcover)
          | true =>
              obtain ⟨positions, htaken, hfound, hsome, hsize⟩ :=
                Marks.taken_of_cover hempty hcover
              have hafter := Marks.cover_of_true hcover
              have hentries : Marks.covering tail
                  (cover tail b ⟨marks.taken, marks.found.clear⟩).2 = entriesAt tail positions := by
                rw [Marks.covering, hfound, entriesAt]
              have hlength : (entriesAt tail positions).length = positions.length :=
                length_entriesAt fun position hnow => (htaken.free position hnow).lt
              rw [hentries, Buffer.length, hfound]
              cases hlist : entriesAt tail positions with
              | nil =>
                  rw [hlist] at hlength
                  exact absurd (List.length_eq_zero_iff.mp hlength.symm) hsome
              | cons standIn others => exact .replaced hb hafter htaken hsize hlist

/-! ## The run -/

/-- Of the bundles before the first single, `given` were given up and `refused` stay; everybody else was
left alone.  The entries at `standIns` were taken, from the head of each line, and for each honest bundle
that stays some line is too short. -/
structure Swept (tail winners : List Candidate) (available : Nat) (marks : Marks) (e : Exchange)
    (given refused : List Candidate) (standIns : List Nat) : Prop extends
    Swapped tail marks.taken.cells winners e.winners e.replaced given
      (refused ++ winners.dropWhile Candidate.isBundle) standIns where
  leading : (winners.takeWhile Candidate.isBundle).Perm (given ++ refused)
  marked : ∀ position, e.marks.taken.cells[position]? =
    if position ∈ standIns then some true else marks.taken.cells[position]?
  served : ∀ name, ∃ k,
    waiting tail e.marks.taken.cells name = (waiting tail marks.taken.cells name).drop k
  short : marks.taken.cells.count false ≤ available →
    ∀ c ∈ refused, c.Honest → 0 < c.claim → Short tail e.marks.taken.cells c

section

variable {tail rest : List Candidate} {winner : Candidate} {available : Nat} {marks : Marks}
  {later : Exchange} {given refused : List Candidate} {standIns : List Nat}

/-- A walk that stops leaves the leading bundles: there are none, or there is nobody to stand in. -/
theorem swept_stop {winners : List Candidate}
    (h : available = 0 ∨ winners.takeWhile Candidate.isBundle = []) :
    Swept tail winners available marks (stop winners marks) []
      (winners.takeWhile Candidate.isBundle) [] where
  toSwapped := by
    rw [List.takeWhile_append_dropWhile]
    exact swapped_stop tail marks.taken.cells winners marks
  leading := List.Perm.refl _
  marked _ := by simp [stop]
  served _ := ⟨0, rfl⟩
  short hcount c hc hhonest hclaim := by
    rcases h with hnone | hnobody
    · obtain ⟨b, hb⟩ := Option.isSome_iff_exists.mp (Candidate.isBundle_of_leads hc)
      have hfew : marks.taken.cells.count false < c.claim := by omega
      exact Marks.short_of_few_left hb hhonest hfew
    · rw [hnobody] at hc
      cases hc

/-- A bundle that stays was not covered when it was tried, and the lines only got shorter since. -/
theorem Swept.keep {b : Bundle} {after : Marks}
    (h : Swept tail rest available after later given refused standIns)
    (hb : winner.bundle? = some b) (hsame : after.taken.cells = marks.taken.cells)
    (hfails : available < b.count.toNat ∨
      (cover tail b ⟨marks.taken, marks.found.clear⟩).1 = false) :
    Swept tail (winner :: rest) available marks (Exchange.keep winner later) given
      (winner :: refused) standIns := by
  have hbundle : winner.isBundle = true := by simp [Candidate.isBundle, hb]
  refine ⟨?_, ?_, ?_, ?_, ?_⟩
  · rw [List.dropWhile_cons_of_pos hbundle, ← hsame]
    exact h.toSwapped.keep winner
  · rw [List.takeWhile_cons_of_pos hbundle]
    exact (h.leading.cons winner).trans List.perm_middle.symm
  · rw [← hsame]
    exact h.marked
  · rw [← hsame]
    exact h.served
  · intro hcount c hc hhonest hclaim
    rcases List.mem_cons.mp hc with rfl | hlater
    · have hnow : Short tail marks.taken.cells c := by
        rcases hfails with hfew | hcover
        · rw [← Candidate.claim_of_bundle hb] at hfew
          exact Marks.short_of_few_left hb hhonest (hcount.trans_lt hfew)
        · have hshort := Marks.short_of_cover_failed hb hhonest hclaim rfl hcover
          exact hshort
      exact hnow.of_drop (hsame ▸ h.served)
    · exact h.short (hsame ▸ hcount) c hlater hhonest hclaim

/-- A bundle that is covered joins those given up. -/
theorem Swept.replace {b : Bundle} {after : Marks} {positions : List Nat} {standIn : Candidate}
    {others : List Candidate}
    (h : Swept tail rest (available - positions.length) after later given refused standIns)
    (hb : winner.bundle? = some b)
    (hafter : after = search tail b.parts ⟨marks.taken, marks.found.clear⟩)
    (htaken : Taken tail b.parts ⟨marks.taken, marks.found.clear⟩ after positions)
    (hsize : positions.length = b.count.toNat)
    (hentries : entriesAt tail positions = standIn :: others) :
    Swept tail (winner :: rest) available marks (Exchange.replace standIn others later)
      (winner :: given) refused (positions ++ standIns) := by
  have hbundle : winner.isBundle = true := by simp [Candidate.isBundle, hb]
  refine ⟨?_, ?_, ?_, ?_, ?_⟩
  · rw [List.dropWhile_cons_of_pos hbundle]
    have hswapped := h.toSwapped.replace hb htaken hsize hentries
    exact hswapped
  · rw [List.takeWhile_cons_of_pos hbundle]
    exact h.leading.cons winner
  · intro position
    show later.marks.taken.cells[position]? = _
    rw [h.marked, htaken.taken]
    by_cases hlater : position ∈ standIns
    · simp [hlater]
    · simp [hlater]
  · intro name
    obtain ⟨k, hk⟩ := h.served name
    refine ⟨Marks.need b.parts name + k, ?_⟩
    show waiting tail later.marks.taken.cells name = _
    rw [hk, hafter, Marks.waiting_search, List.drop_drop]
  · intro hcount c hc hhonest hclaim
    refine h.short ?_ c hc hhonest hclaim
    -- As many entries of the tail are gone as the walk counts.
    have hbalance := Marks.found_search_add_count tail b.parts ⟨marks.taken, marks.found.clear⟩
    rw [← hafter, Buffer.length, htaken.found] at hbalance
    simp only [Buffer.cells_clear, List.nil_append, Buffer.length, List.length_nil] at hbalance
    omega

end

/-- The run of the walk: it sweeps the leading bundles, whatever the marks are. -/
theorem walk_sweeps (tail winners : List Candidate) (available : Nat) (marks : Marks) :
    ∃ given refused standIns,
      Swept tail winners available marks (walk tail winners available marks) given refused
        standIns := by
  induction winners generalizing available marks with
  | nil => exact ⟨[], [], [], swept_stop (Or.inr rfl)⟩
  | cons winner rest ih =>
      have htried := walk_tried tail winner rest available marks
      generalize walk tail (winner :: rest) available marks = e at htried ⊢
      cases htried with
      | stopped h =>
          refine ⟨_, _, _, swept_stop (h.imp id fun hsingle => ?_)⟩
          exact List.takeWhile_cons_of_neg (by simp [Candidate.isBundle, hsingle])
      | kept hb hsame hfails =>
          obtain ⟨given, refused, standIns, h⟩ := ih available _
          exact ⟨_, _, _, h.keep hb hsame hfails⟩
      | replaced hb hafter htaken hsize hentries =>
          obtain ⟨given, refused, standIns, h⟩ := ih _ _
          exact ⟨_, _, _, h.replace hb hafter htaken hsize hentries⟩

/-- Whatever the marks and the number of available entries are, the walk is a swap. -/
theorem walk_swaps (tail winners : List Candidate) (available : Nat) (marks : Marks) :
    ∃ given kept standIns,
      Swapped tail marks.taken.cells winners (walk tail winners available marks).winners
        (walk tail winners available marks).replaced given kept standIns := by
  obtain ⟨given, refused, standIns, h⟩ := walk_sweeps tail winners available marks
  exact ⟨_, _, _, h.toSwapped⟩

end Exchange
end SlotAuction
