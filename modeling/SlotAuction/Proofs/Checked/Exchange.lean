import Mathlib.Data.Bool.Count
import SlotAuction.Proofs.Checked.Tally
import SlotAuction.Proofs.Exchange.Sweep

/-!
# Checked exchanges — positions that exist, and entries that are counted right

An exchange goes over the winners by their positions and reaches into the tail by what a search found.  It
counts down the entries of the tail that are left.  Here every position is checked, and before each winner
also that the count is right: together with the entries taken it makes up the tail.

* `Marks.searchChecked`, `Marks.coverChecked` — searches by positions;
* `Exchange.Progress`, `Exchange.runChecked` — the walk over the winners, which are replaced in place;
* `Marks.Counted` — the invariant of the walk;
* `Exchange.runChecked_eq` — no such walk fails, and it comes to the plain one.
-/

namespace SlotAuction

/-! ## Searches -/

namespace Marks

/-- Looks through the tail from a position on. -/
def firstFreeChecked (taken : List Bool) (placement : String) :
    List Candidate → Nat → Option (Option Nat)
  | [], _ => some none
  | c :: rest, index => do
      let used ← taken[index]?
      if !used && (c.isSingle && c.placement == placement) then some (some index)
      else firstFreeChecked taken placement rest (index + 1)

def searchChecked (tail : List Candidate) : List Candidate → Marks → Option Marks
  | [], marks => some marks
  | part :: parts, marks => do
      let hit ← firstFreeChecked marks.taken.cells part.placement tail 0
      match hit with
      | some position => do
          let taken ← marks.taken.setChecked position true
          searchChecked tail parts ⟨taken, marks.found.push position⟩
      | none => searchChecked tail parts marks

def releaseChecked (taken : Buffer Bool) : List Nat → Option (Buffer Bool)
  | [] => some taken
  | position :: rest => do
      let taken ← taken.setChecked position false
      releaseChecked taken rest

def coverChecked (tail : List Candidate) (b : Bundle) (marks : Marks) : Option (Bool × Marks) := do
  let after ← searchChecked tail b.parts marks
  if after.found.cells ≠ [] ∧ after.found.length = b.count.toNat then some (true, after)
  else do
    let taken ← releaseChecked after.taken after.found.cells
    some (false, ⟨taken, after.found.clear⟩)

/-- The entries of the tail at positions that must be there. -/
def entriesChecked (tail : List Candidate) (positions : List Nat) : Option (List Candidate) :=
  positions.mapM fun position => tail[position]?

variable {tail : List Candidate}

theorem firstFreeChecked_eq {taken : List Bool} {rest : List Candidate} {index : Nat}
    (h : index + rest.length ≤ taken.length) (placement : String) :
    firstFreeChecked taken placement rest index =
      some ((firstFree rest (taken.drop index) placement).map (· + index)) := by
  induction rest generalizing index with
  | nil => rfl
  | cons c rest ih =>
      rw [List.length_cons] at h
      have hlt : index < taken.length := by omega
      rw [firstFreeChecked, List.getElem?_eq_getElem hlt, List.drop_eq_getElem_cons hlt, firstFree,
        List.zip_cons_cons, List.findIdx?_cons]
      show (if _ then _ else _) = _
      dsimp only
      rw [ih (by omega)]
      split
      · simp
      · rw [firstFree, Option.map_map]
        congr 2
        funext position
        show position + (index + 1) = position + 1 + index
        omega

theorem length_search (tail parts : List Candidate) (marks : Marks) :
    (search tail parts marks).taken.cells.length = marks.taken.cells.length := by
  induction parts generalizing marks with
  | nil => rfl
  | cons part parts ih =>
      unfold search
      cases firstFree tail marks.taken.cells part.placement with
      | none => exact ih marks
      | some position => simp [ih]

theorem searchChecked_eq {marks : Marks} (h : marks.taken.cells.length = tail.length)
    (parts : List Candidate) : searchChecked tail parts marks = some (search tail parts marks) := by
  induction parts generalizing marks with
  | nil => rfl
  | cons part parts ih =>
      have hfirst : firstFreeChecked marks.taken.cells part.placement tail 0 =
          some (firstFree tail marks.taken.cells part.placement) := by
        rw [firstFreeChecked_eq (by omega), List.drop_zero]
        simp
      rw [searchChecked, hfirst]
      unfold search
      cases hfound : firstFree tail marks.taken.cells part.placement with
      | none => exact ih h
      | some position =>
          have hinside : position < marks.taken.length :=
            (firstFree_sound hfound).1.lt.trans_eq h.symm
          show (marks.taken.setChecked position true).bind _ = _
          rw [Buffer.setChecked, if_pos hinside]
          exact ih (by simp [h])

theorem releaseChecked_eq {taken : Buffer Bool} {positions : List Nat}
    (h : ∀ position ∈ positions, position < taken.cells.length) :
    releaseChecked taken positions = some (release taken positions) := by
  induction positions generalizing taken with
  | nil => rfl
  | cons position rest ih =>
      have hinside : position < taken.length := h position (List.mem_cons_self ..)
      rw [releaseChecked, Buffer.setChecked, if_pos hinside]
      refine ih fun other hother => ?_
      rw [Buffer.cells_set, List.length_set]
      exact h other (List.mem_cons_of_mem _ hother)

/-- What is found, from nothing found before, are positions of the tail. -/
theorem lt_of_found {marks : Marks} (hempty : marks.found.cells = []) (parts : List Candidate) :
    ∀ position ∈ (search tail parts marks).found.cells, position < tail.length := by
  obtain ⟨positions, htaken⟩ := search_spec tail parts marks
  rw [htaken.found, hempty, List.nil_append]
  exact fun position hposition => (htaken.free position hposition).lt

theorem coverChecked_eq {marks : Marks} (h : marks.taken.cells.length = tail.length)
    (hempty : marks.found.cells = []) (b : Bundle) :
    coverChecked tail b marks = some (cover tail b marks) := by
  have hrelease : releaseChecked (search tail b.parts marks).taken
      (search tail b.parts marks).found.cells =
        some (release (search tail b.parts marks).taken (search tail b.parts marks).found.cells) := by
    refine releaseChecked_eq fun position hposition => ?_
    rw [length_search, h]
    exact lt_of_found hempty b.parts position hposition
  rw [coverChecked, searchChecked_eq h]
  show (if _ then _ else _) = _
  rw [hrelease, cover]
  by_cases henough : (search tail b.parts marks).found.cells ≠ [] ∧
      (search tail b.parts marks).found.length = b.count.toNat
  · rw [if_pos henough]
    simp only [if_pos henough]
  · rw [if_neg henough]
    simp only [if_neg henough]
    rfl

theorem entriesChecked_eq {positions : List Nat} (h : ∀ position ∈ positions, position < tail.length) :
    entriesChecked tail positions = some (entriesAt tail positions) := by
  induction positions with
  | nil => rfl
  | cons position rest ih =>
      have hlt := h position (List.mem_cons_self ..)
      have hlater := ih fun other hother => h other (List.mem_cons_of_mem _ hother)
      unfold entriesChecked at hlater ⊢
      rw [List.mapM_cons, hlater, List.getElem?_eq_getElem hlt,
        entriesAt_cons (List.getElem?_eq_getElem hlt)]
      rfl

/-! ## What is counted -/

/-- There is a mark for each entry of the tail, and the count is that of the entries not taken. -/
structure Counted (tail : List Candidate) (available : Nat) (marks : Marks) : Prop where
  length : marks.taken.cells.length = tail.length
  count : available = marks.taken.cells.count false

/-- So the count is the size of the tail but for the entries taken. -/
theorem Counted.add_taken {available : Nat} {marks : Marks} (h : Counted tail available marks) :
    available + marks.taken.cells.count true = tail.length := by
  rw [h.count, ← h.length, List.count_false_add_count_true]

end Marks

/-! ## The walk over the winners -/

namespace Exchange

/-- How far a walk has come: the winners, with the first stand-ins in their places and the other ones at the
end; how many entries of the tail are left; and how many bundles were replaced. -/
structure Progress where
  winners : List Candidate
  available : Nat
  replaced : Nat
  marks : Marks

namespace Progress

/-- The same, if the entries left and those taken make up the tail. -/
def balanced (tail : List Candidate) (s : Progress) : Option Progress :=
  if s.available + s.marks.taken.cells.count true = tail.length then some s else none

/-- Replaces the winner at a position by what was found.  Something must have been found, no more than is
left; the position must be one of the winners; and the number of replacements must stay a word. -/
def replaceChecked (tail : List Candidate) (index : Nat) (s : Progress) (marks : Marks) :
    Option Progress := do
  let entries ← Marks.entriesChecked tail marks.found.cells
  let standIn ← entries.head?
  if marks.found.length ≤ s.available ∧ index < s.winners.length ∧ s.replaced < Word.limit then
    some ⟨s.winners.set index standIn ++ entries.tail, s.available - marks.found.length,
      s.replaced + 1, marks⟩
  else none

end Progress

/-- Goes over as many winners, from a position on. -/
def runChecked (tail : List Candidate) : Nat → Nat → Progress → Option Progress
  | 0, _, s => s.balanced tail
  | left + 1, index, s => do
      let s ← s.balanced tail
      if s.available = 0 then some s
      else do
        let winner ← s.winners[index]?
        match winner.bundle? with
        | none => some s
        | some b =>
            if s.available < b.count.toNat then runChecked tail left (index + 1) s
            else do
              let tried ← Marks.coverChecked tail b ⟨s.marks.taken, s.marks.found.clear⟩
              if tried.1 then do
                let s ← s.replaceChecked tail index tried.2
                runChecked tail left (index + 1) s
              else runChecked tail left (index + 1) { s with marks := tried.2 }

def ofFillChecked (tail winners : List Candidate) (taken : Buffer Bool) (found : Buffer Nat) :
    Option Progress :=
  let ranked := Candidate.sortForExchange winners
  runChecked tail ranked.length 0
    ⟨ranked, tail.length, 0, ⟨taken.resize tail.length false, found⟩⟩

/-- An exchange as the end of a walk, with the winners before it and the stand-ins added by then. -/
def progress (e : Exchange) (front added : List Candidate) (replaced : Nat) : Progress where
  winners := front ++ e.kept ++ (added ++ e.added)
  available := e.marks.taken.cells.count false
  replaced := replaced + e.replaced
  marks := e.marks

section

variable {tail front rest added others : List Candidate} {winner standIn : Candidate}
  {available replaced : Nat} {marks : Marks}

theorem progress_stop (winners : List Candidate) (h : Marks.Counted tail available marks) :
    (stop winners marks).progress front added replaced =
      ⟨front ++ winners ++ added, available, replaced, marks⟩ := by
  rw [h.count]
  simp [progress, stop]

theorem progress_keep (e : Exchange) :
    (keep winner e).progress front added replaced =
      e.progress (front ++ [winner]) added replaced := by
  simp [progress, keep]

theorem progress_replace (e : Exchange) :
    (replace standIn others e).progress front added replaced =
      e.progress (front ++ [standIn]) (added ++ others) (replaced + 1) := by
  simp [progress, replace]
  omega

theorem balanced_eq {s : Progress} (h : Marks.Counted tail s.available s.marks) :
    s.balanced tail = some s :=
  if_pos h.add_taken

/-- The winner at hand is the one after those walked over, and another one may take its place. -/
theorem replaceChecked_eq {positions : List Nat} {after : Marks} (hfound : after.found.cells = positions)
    (hlt : ∀ position ∈ positions, position < tail.length)
    (hentries : entriesAt tail positions = standIn :: others) (hsize : positions.length ≤ available)
    (hreplaced : replaced < Word.limit) :
    Progress.replaceChecked tail front.length ⟨front ++ winner :: rest ++ added, available, replaced, marks⟩
        after =
      some ⟨(front ++ [standIn]) ++ rest ++ (added ++ others), available - positions.length,
        replaced + 1, after⟩ := by
  have hinside : front.length < (front ++ winner :: rest ++ added).length := by
    simp
  have hset : (front ++ winner :: rest ++ added).set front.length standIn =
      (front ++ [standIn]) ++ rest ++ added := by
    simp
  rw [Progress.replaceChecked, hfound, Marks.entriesChecked_eq hlt, hentries, Buffer.length, hfound]
  show (if _ then _ else _) = _
  rw [if_pos ⟨hsize, hinside, hreplaced⟩, hset, List.tail_cons, List.append_assoc _ added]

/-- The step for a bundle that is covered. -/
theorem exists_entries_of_cover {b : Bundle} (h : Marks.Counted tail available marks)
    (hroom : b.count.toNat ≤ available)
    (hcovered : (Marks.cover tail b ⟨marks.taken, marks.found.clear⟩).1 = true) :
    ∃ positions standIn others,
      (Marks.cover tail b ⟨marks.taken, marks.found.clear⟩).2.found.cells = positions ∧
        (∀ position ∈ positions, position < tail.length) ∧
          entriesAt tail positions = standIn :: others ∧ positions.length ≤ available ∧
            Marks.Counted tail (available - positions.length)
              (Marks.cover tail b ⟨marks.taken, marks.found.clear⟩).2 := by
  have hempty : (⟨marks.taken, marks.found.clear⟩ : Marks).found.cells = [] := rfl
  obtain ⟨positions, htaken, hfound, hsome, hsize⟩ := Marks.taken_of_cover hempty hcovered
  have hlt : ∀ position ∈ positions, position < tail.length :=
    fun position hposition => (htaken.free position hposition).lt
  have hlength := length_entriesAt hlt
  cases hentries : entriesAt tail positions with
  | nil =>
      rw [hentries] at hlength
      exact absurd (List.length_eq_zero_iff.mp hlength.symm) hsome
  | cons standIn others =>
      refine ⟨positions, standIn, others, hfound, hlt, hentries, by omega, ?_, ?_⟩
      · rw [Marks.cover_of_true hcovered, Marks.length_search]
        exact h.length
      · -- What is found is what is no longer free.
        have hbalance := Marks.found_search_add_count tail b.parts ⟨marks.taken, marks.found.clear⟩
        rw [← Marks.cover_of_true hcovered, Buffer.length, hfound, ← h.count] at hbalance
        simp only [Buffer.length, Buffer.cells_clear, List.length_nil, Nat.zero_add] at hbalance
        omega

/-- A bundle that is not covered leaves the count right. -/
theorem counted_of_cover_failed {b : Bundle} (h : Marks.Counted tail available marks)
    (hfailed : (Marks.cover tail b ⟨marks.taken, marks.found.clear⟩).1 = false) :
    Marks.Counted tail available (Marks.cover tail b ⟨marks.taken, marks.found.clear⟩).2 := by
  have hempty : (⟨marks.taken, marks.found.clear⟩ : Marks).found.cells = [] := rfl
  have hsame := Marks.taken_of_cover_failed hempty hfailed
  exact ⟨hsame ▸ h.length, hsame ▸ h.count⟩

/-- The run: from a count that is right, with as many winners before as the position says. -/
theorem runChecked_eq (h : Marks.Counted tail available marks)
    (hreplaced : replaced + rest.length ≤ Word.limit) (front added : List Candidate) :
    runChecked tail rest.length front.length ⟨front ++ rest ++ added, available, replaced, marks⟩ =
      some ((walk tail rest available marks).progress front added replaced) := by
  induction rest generalizing front added available replaced marks with
  | nil =>
      rw [List.length_nil, runChecked, balanced_eq h, walk, progress_stop [] h]
  | cons winner rest ih =>
      have hwinner : (front ++ winner :: rest ++ added)[front.length]? = some winner := by simp
      have hnext : ∀ c : Candidate, (front ++ [c]).length = front.length + 1 := fun c => by simp
      have hmove : front ++ winner :: rest ++ added = (front ++ [winner]) ++ rest ++ added := by simp
      rw [List.length_cons] at hreplaced ⊢
      rw [runChecked, balanced_eq h]
      unfold walk
      by_cases hnone : available = 0
      · rw [if_pos hnone, progress_stop _ h]
        exact if_pos hnone
      · rw [if_neg hnone]
        show (if available = 0 then _ else (_ : Option Progress)) = _
        rw [if_neg hnone, hwinner]
        simp only [Option.bind_eq_bind, Option.bind_some]
        cases hb : winner.bundle? with
        | none => rw [progress_stop _ h]
        | some b =>
            dsimp only
            by_cases hlarge : available < b.count.toNat
            · rw [if_pos hlarge, if_pos hlarge, progress_keep, ← hnext winner, hmove]
              exact ih h (by omega) _ _
            · have hlength : (⟨marks.taken, marks.found.clear⟩ : Marks).taken.cells.length =
                  tail.length := h.length
              have hcover := Marks.coverChecked_eq hlength rfl b
              rw [if_neg hlarge, if_neg hlarge, hcover, Option.bind_some]
              cases hcovered : (Marks.cover tail b ⟨marks.taken, marks.found.clear⟩).1 with
              | false =>
                  rw [if_neg Bool.false_ne_true]
                  dsimp only
                  rw [progress_keep, ← hnext winner, hmove]
                  exact ih (counted_of_cover_failed h hcovered) (by omega) _ _
              | true =>
                  obtain ⟨positions, standIn, others, hfound, hlt, hentries, hsize, hcounted⟩ :=
                    exists_entries_of_cover h (Nat.le_of_not_lt hlarge) hcovered
                  have hcovering : Marks.covering tail
                      (Marks.cover tail b ⟨marks.taken, marks.found.clear⟩).2 = standIn :: others := by
                    rw [Marks.covering, hfound, ← hentries, entriesAt]
                  rw [if_pos rfl, replaceChecked_eq hfound hlt hentries hsize (by omega),
                    Option.bind_some, hcovering, Buffer.length, hfound]
                  dsimp only
                  rw [progress_replace, ← hnext standIn]
                  exact ih hcounted (by omega) _ _

/-- With flags that are empty, nobody is taken when an exchange begins. -/
theorem counted_start {taken : Buffer Bool} (hempty : taken.cells = []) (tail : List Candidate)
    (found : Buffer Nat) :
    Marks.Counted tail tail.length ⟨taken.resize tail.length false, found⟩ where
  length := Buffer.length_resize taken tail.length false
  count := by simp [hempty]

theorem ofFillChecked_eq {winners : List Candidate} {taken : Buffer Bool} (hempty : taken.cells = [])
    (hfew : winners.length ≤ Word.limit) (tail : List Candidate) (found : Buffer Nat) :
    ofFillChecked tail winners taken found =
      some ((ofFill tail winners taken found).progress [] [] 0) := by
  have hlength : (Candidate.sortForExchange winners).length = winners.length :=
    List.length_mergeSort winners
  have hranked : 0 + (Candidate.sortForExchange winners).length ≤ Word.limit := by omega
  have hrun := runChecked_eq (counted_start hempty tail found) hranked [] []
  rwa [List.nil_append, List.append_nil] at hrun

end

end Exchange
end SlotAuction
