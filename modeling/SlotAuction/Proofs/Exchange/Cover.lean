import Mathlib.Algebra.Order.BigOperators.Group.Finset
import SlotAuction.Proofs.Exchange.Lines

/-!
# Cover — when the tail covers a bundle, and by whom

A search goes through the parts of a bundle, and each part gets the next one who waits in the line for
its placement, or nobody once the line has run out.  So each line is served up to the number of parts
that name its placement, and a bundle is covered exactly if those who are served are as many as it
counts.

* `Marks.called` — who is found for the parts, one part after the other;
* `Marks.found_search` — a search finds just them;
* `Marks.filter_called`, `Marks.length_called` — of each line they are the first, and how many they are;
* `Marks.Covered` — what the marks say when a bundle is covered;
* `Marks.cover_or_restore` — a bundle is covered like that, or the marks are as they were.
-/

namespace SlotAuction

variable {tail : List Candidate}

theorem eq_of_mem_lineFor {a b : String} {p : Nat} (ha : p ∈ lineFor tail a)
    (hb : p ∈ lineFor tail b) : a = b := by
  rcases mem_lineFor.mp ha with ⟨c, hc, _, rfl⟩
  rcases mem_lineFor.mp hb with ⟨d, hd, _, rfl⟩
  rw [hc] at hd
  cases hd
  rfl

namespace Marks

theorem mem_lineFor_of_waiting {taken : List Bool} {name : String} {p : Nat}
    (h : p ∈ waiting tail taken name) : p ∈ lineFor tail name :=
  List.mem_of_mem_filter h

theorem need_append (parts others : List Candidate) (name : String) :
    need (parts ++ others) name = need parts name + need others name := by
  simp [need]

theorem need_singleton (part : Candidate) (name : String) :
    need [part] name = if part.placement = name then 1 else 0 := by
  simp [need, List.count_cons]

/-! ## Who is called -/

/-- Those who are found for the parts in turn: a part gets the one who waits for its placement behind as
many others as there are parts before it that name the placement. -/
def called (tail : List Candidate) (taken : List Bool) (parts : List Candidate) : List Nat :=
  parts.zipIdx.filterMap fun (part, i) =>
    (waiting tail taken part.placement)[need (parts.take i) part.placement]?

theorem called_append_singleton (tail : List Candidate) (taken : List Bool)
    (parts : List Candidate) (part : Candidate) :
    called tail taken (parts ++ [part]) = called tail taken parts ++
      ((waiting tail taken part.placement)[need parts part.placement]?).toList := by
  unfold called
  rw [List.zipIdx_append, List.filterMap_append]
  congr 1
  · refine List.filterMap_congr ?_
    rintro ⟨other, i⟩ hmem
    have hlt : i < parts.length := List.snd_lt_of_mem_zipIdx hmem
    dsimp only
    rw [List.take_append_of_le_length hlt.le]
  · cases h : (waiting tail taken part.placement)[need parts part.placement]? <;> simp [h]

theorem search_append (tail parts others : List Candidate) (marks : Marks) :
    search tail (parts ++ others) marks = search tail others (search tail parts marks) := by
  induction parts generalizing marks with
  | nil => rfl
  | cons part parts ih =>
      rw [List.cons_append, search, search]
      cases firstFree tail marks.taken.cells part.placement with
      | none => exact ih marks
      | some position => exact ih _

/-- A search finds them all, and nobody else. -/
theorem found_search (tail parts : List Candidate) (marks : Marks) :
    (search tail parts marks).found.cells =
      marks.found.cells ++ called tail marks.taken.cells parts := by
  induction parts using List.reverseRecOn with
  | nil => simp [search, called]
  | append_singleton parts part ih =>
      -- The earlier parts have served the line for this one as often as they named it.
      have hnext : firstFree tail (search tail parts marks).taken.cells part.placement =
          (waiting tail marks.taken.cells part.placement)[need parts part.placement]? := by
        rw [firstFree_eq_head?, waiting_search, List.head?_drop]
      rw [search_append, called_append_singleton, ← List.append_assoc, ← ih, search, hnext]
      cases (waiting tail marks.taken.cells part.placement)[need parts part.placement]? with
      | none => simp [search]
      | some position => simp [search]

/-- Of those who wait for a placement the first ones are called, as many as are needed. -/
theorem filter_called (tail : List Candidate) (taken : List Bool) (parts : List Candidate)
    (name : String) :
    (called tail taken parts).filter (· ∈ lineFor tail name) =
      (waiting tail taken name).take (need parts name) := by
  induction parts using List.reverseRecOn with
  | nil => simp [called, need]
  | append_singleton parts part ih =>
      rw [called_append_singleton, List.filter_append, ih, need_append, need_singleton]
      by_cases hname : part.placement = name
      · subst hname
        rw [if_pos rfl, List.take_add_one]
        congr 1
        cases hnext : (waiting tail taken part.placement)[need parts part.placement]? with
        | none => rfl
        | some p =>
            have hline := mem_lineFor_of_waiting (List.mem_of_getElem? hnext)
            simp [hline]
      · rw [if_neg hname, Nat.add_zero]
        cases hnext : (waiting tail taken part.placement)[need parts part.placement]? with
        | none => simp
        | some p =>
            -- Whoever is called for another placement does not stand in this line.
            have hline := mem_lineFor_of_waiting (List.mem_of_getElem? hnext)
            have hother : p ∉ lineFor tail name := fun hp => hname (eq_of_mem_lineFor hline hp)
            simp [hother]

/-- Each line gives as many as are needed of it, or all who wait. -/
theorem length_called (tail : List Candidate) (taken : List Bool) {parts : List Candidate}
    {names : Finset String} (h : ∀ part ∈ parts, part.placement ∈ names) :
    (called tail taken parts).length =
      ∑ name ∈ names, min (need parts name) (waiting tail taken name).length := by
  induction parts using List.reverseRecOn with
  | nil => simp [called, need]
  | append_singleton parts part ih =>
      have hpart : part.placement ∈ names := h part (by simp)
      have hparts : ∀ other ∈ parts, other.placement ∈ names := fun other hother =>
        h other (List.mem_append_left _ hother)
      let next := ((waiting tail taken part.placement)[need parts part.placement]?).toList
      -- One part more makes a difference to its own line alone.
      have hstep : ∀ name ∈ names,
          min (need (parts ++ [part]) name) (waiting tail taken name).length =
            min (need parts name) (waiting tail taken name).length +
              if part.placement = name then next.length else 0 := by
        intro name _
        rw [need_append, need_singleton]
        by_cases hname : part.placement = name
        · subst hname
          rw [if_pos rfl, if_pos rfl]
          cases hnext : (waiting tail taken part.placement)[need parts part.placement]? with
          | none =>
              have hshort := List.getElem?_eq_none_iff.mp hnext
              simp only [next, hnext, Option.toList_none, List.length_nil]
              omega
          | some p =>
              have hlong := (List.getElem?_eq_some_iff.mp hnext).1
              simp only [next, hnext, Option.toList_some, List.length_singleton]
              omega
        · rw [if_neg hname, if_neg hname, Nat.add_zero, Nat.add_zero]
      calc (called tail taken (parts ++ [part])).length
          = (called tail taken parts).length + next.length := by
            rw [called_append_singleton, List.length_append]
        _ = ∑ name ∈ names, min (need parts name) (waiting tail taken name).length +
              ∑ name ∈ names, if part.placement = name then next.length else 0 := by
            rw [ih hparts, Finset.sum_ite_eq, if_pos hpart]
        _ = _ := by
            rw [← Finset.sum_add_distrib]
            exact (Finset.sum_congr rfl hstep).symm

/-! ## Covers -/

variable {b : Bundle} {marks : Marks}

/-- A cover succeeds if somebody is called, and as many are as the bundle counts. -/
theorem cover_fst_iff (hempty : marks.found.cells = []) :
    (cover tail b marks).1 = true ↔
      0 < b.count.toNat ∧ (called tail marks.taken.cells b.parts).length = b.count.toNat := by
  have hfound := found_search tail b.parts marks
  rw [hempty, List.nil_append] at hfound
  have hsame : (called tail marks.taken.cells b.parts ≠ [] ∧
        (called tail marks.taken.cells b.parts).length = b.count.toNat) ↔
      0 < b.count.toNat ∧ (called tail marks.taken.cells b.parts).length = b.count.toNat := by
    rw [← List.length_pos_iff]
    refine and_congr_left fun hlength => ?_
    rw [hlength]
  rw [← hsame]
  unfold cover
  dsimp only
  rw [Buffer.length, hfound]
  split
  · exact iff_of_true rfl ‹_›
  · exact iff_of_false Bool.false_ne_true ‹_›

/-- The marks after a cover of the bundle.  Free singles were called, each of them once; of each line the
first who waited, as many as are needed or all; and they are listed in the order of the parts that called
them.  They count as taken now, and every other mark is as it was. -/
structure Covered (tail : List Candidate) (b : Bundle) (before after : Marks) : Prop where
  distinct : after.found.cells.Nodup
  free : ∀ p ∈ after.found.cells, Free tail before.taken.cells p
  first : ∀ name, after.found.cells.filter (· ∈ lineFor tail name) =
    (waiting tail before.taken.cells name).take (need b.parts name)
  listed : after.found.cells = called tail before.taken.cells b.parts
  taken : ∀ p, after.taken.cells[p]? =
    if p ∈ after.found.cells then some true else before.taken.cells[p]?

theorem covered_of_cover (hempty : marks.found.cells = []) (h : (cover tail b marks).1 = true) :
    Covered tail b marks (cover tail b marks).2 := by
  rcases search_spec tail b.parts marks with ⟨positions, htaken⟩
  have hcalled : (search tail b.parts marks).found.cells =
      called tail marks.taken.cells b.parts := by
    rw [found_search, hempty, List.nil_append]
  have hpositions : (search tail b.parts marks).found.cells = positions := by
    rw [htaken.found, hempty, List.nil_append]
  rw [cover_of_true h]
  refine ⟨?_, ?_, fun name => ?_, hcalled, ?_⟩
  · rw [hpositions]
    exact htaken.distinct
  · rw [hpositions]
    exact htaken.free
  · rw [hcalled]
    exact filter_called tail marks.taken.cells b.parts name
  · rw [hpositions]
    exact htaken.taken

theorem found_of_cover_failed (h : (cover tail b marks).1 = false) :
    (cover tail b marks).2.found.cells = [] := by
  unfold cover at h ⊢
  dsimp only at h ⊢
  split at h
  · cases h
  · rename_i hshort
    rw [if_neg hshort]
    rfl

/-- Each part names one placement, so the needs of all placements add up to the parts. -/
theorem sum_need {parts : List Candidate} {names : Finset String}
    (h : ∀ part ∈ parts, part.placement ∈ names) : ∑ name ∈ names, need parts name = parts.length := by
  have hnames : ∀ name ∈ (parts.map Candidate.placement : Multiset String), name ∈ names := by
    intro name hname
    rcases List.mem_map.mp (Multiset.mem_coe.mp hname) with ⟨part, hpart, rfl⟩
    exact h part hpart
  have hsum := Multiset.sum_count_eq_card hnames
  simpa [need] using hsum

/-- If the bundle counts its parts, the lines give that many exactly if each is long enough. -/
theorem length_called_eq_iff (hcount : b.count.toNat = b.parts.length) (taken : List Bool) :
    (called tail taken b.parts).length = b.count.toNat ↔
      ∀ name, need b.parts name ≤ (waiting tail taken name).length := by
  let names := (b.parts.map Candidate.placement).toFinset
  have hnames : ∀ part ∈ b.parts, part.placement ∈ names := fun part hpart =>
    List.mem_toFinset.mpr (List.mem_map_of_mem hpart)
  have hle : ∀ name ∈ names, min (need b.parts name) (waiting tail taken name).length ≤
      need b.parts name := fun name _ => Nat.min_le_left _ _
  rw [hcount, length_called tail taken hnames, ← sum_need hnames, Finset.sum_eq_sum_iff_of_le hle]
  constructor
  · intro h name
    by_cases hname : name ∈ names
    · exact min_eq_left_iff.mp (h name hname)
    · -- Nobody is needed for a placement that no part names.
      have hnone : need b.parts name = 0 :=
        List.count_eq_zero.mpr fun hmem => hname (List.mem_toFinset.mpr hmem)
      rw [hnone]
      exact Nat.zero_le _
  · intro h name _
    exact Nat.min_eq_left (h name)

/-- From marks with nobody found: a bundle is covered exactly if it counts a part, and as many as its lines
give, each of them as many as parts name its placement or all who wait.  If it counts all its parts, this
means that each line is long enough.  A cover that fails leaves everybody as free as they were, and nobody
found. -/
theorem cover_or_restore (tail : List Candidate) (b : Bundle) {marks : Marks}
    (hempty : marks.found.cells = []) :
    let names := (b.parts.map Candidate.placement).toFinset
    let line := waiting tail marks.taken.cells
    let tried := cover tail b marks
    (tried.1 = true ↔ 0 < b.count.toNat ∧
        ∑ name ∈ names, min (need b.parts name) (line name).length = b.count.toNat) ∧
      (b.count.toNat = b.parts.length → (tried.1 = true ↔
        0 < b.count.toNat ∧ ∀ name, need b.parts name ≤ (line name).length)) ∧
      (tried.1 = true → Covered tail b marks tried.2) ∧
      (tried.1 = false →
        tried.2.taken.cells = marks.taken.cells ∧ tried.2.found.cells = []) := by
  intro names line tried
  have hnames : ∀ part ∈ b.parts, part.placement ∈ names := fun part hpart =>
    List.mem_toFinset.mpr (List.mem_map_of_mem hpart)
  refine ⟨?_, fun hcount => ?_, covered_of_cover hempty, fun hfails => ?_⟩
  · rw [cover_fst_iff hempty, length_called tail marks.taken.cells hnames]
  · rw [cover_fst_iff hempty, length_called_eq_iff hcount]
  · exact ⟨taken_of_cover_failed hempty hfails, found_of_cover_failed hfails⟩

end Marks

namespace Sample

/-- Singles for two placements, and a bundle among them that nobody may call. -/
def hopefuls : List Candidate :=
  [.ad "first" "top" (.ofUnits 5) none, .bundle "hidden" [.ad "part" "top" (.ofUnits 9) none],
   .ad "second" "top" (.ofUnits 4) none, .ad "third" "side" (.ofUnits 3) none,
   .ad "fourth" "top" (.ofUnits 2) none]

/-- The second single was called before. -/
def secondTaken : Marks :=
  ⟨Buffer.empty.hold [false, false, true, false, false], Buffer.empty⟩

/-- Two parts are counted, and nobody waits for the third. -/
def modest : Bundle :=
  ⟨2, [.ad "a" "top" (.ofUnits 1) none, .ad "b" "elsewhere" (.ofUnits 1) none,
    .ad "c" "top" (.ofUnits 1) none]⟩

def threefold : Bundle :=
  ⟨3, [.ad "a" "top" (.ofUnits 1) none, .ad "b" "top" (.ofUnits 1) none,
    .ad "c" "top" (.ofUnits 1) none]⟩

end Sample

theorem Marks.cover_or_restore_of_hopefuls :
    Sample.secondTaken.found.cells = [] ∧
      (cover Sample.hopefuls Sample.modest Sample.secondTaken).1 = true ∧
      (cover Sample.hopefuls Sample.modest Sample.secondTaken).2.found.cells = [0, 4] ∧
      Sample.threefold.count.toNat = Sample.threefold.parts.length ∧
      (cover Sample.hopefuls Sample.threefold Sample.secondTaken).1 = false ∧
      (cover Sample.hopefuls Sample.threefold Sample.secondTaken).2.taken.cells =
        Sample.secondTaken.taken.cells := by
  have hempty : Sample.secondTaken.found.cells = [] := rfl
  rcases cover_or_restore Sample.hopefuls Sample.modest hempty with ⟨hcovers, _, hcovered, _⟩
  rcases cover_or_restore Sample.hopefuls Sample.threefold hempty with ⟨_, hall, _, hfails⟩
  have hyes := hcovers.mpr (by decide)
  have hcount : Sample.threefold.count.toNat = Sample.threefold.parts.length := rfl
  have hno : (cover Sample.hopefuls Sample.threefold Sample.secondTaken).1 = false := by
    apply Bool.eq_false_of_not_eq_true
    intro hyes'
    -- Three are needed for the top, and two wait.
    exact absurd (((hall hcount).mp hyes').2 "top") (by decide)
  exact ⟨hempty, hyes, (hcovered hyes).listed.trans (by decide), hcount, hno, (hfails hno).1⟩

end SlotAuction
