import SlotAuction.Proofs.Claim
import SlotAuction.Proofs.Exchange.Search

/-!
# Lines — a search serves the singles of each placement in turn

The singles of the tail that name one placement stand in line for it, in the order of the tail.  A
search takes, for each part that names the placement, the first one of the line that is not taken yet,
and does not touch the lines of other placements.

* `lineFor tail name`, `Marks.waiting` — the line for a placement, and who of it is not taken;
* `Marks.firstFree_eq_head?` — the one that is found for a part is the first who waits;
* `Marks.waiting_search` — a search serves each line from its head, for as many parts as name it;
* `Marks.found_search_of_enough` — if each line is long enough, every part is served;
* `Marks.Short`, `Marks.short_of_cover_failed`, `Marks.short_of_few_left` — when a bundle is not covered,
  some line is too short for its parts.
-/

namespace SlotAuction

variable {tail : List Candidate} {name : String}

/-! ## Lines -/

/-- The positions of the singles of the tail that name the placement, in the order of the tail. -/
def lineFor (tail : List Candidate) (name : String) : List Nat :=
  (List.range tail.length).filter fun p =>
    tail[p]?.any fun c => c.isSingle && c.placement == name

theorem mem_lineFor {p : Nat} :
    p ∈ lineFor tail name ↔ ∃ c, tail[p]? = some c ∧ c.isSingle = true ∧ c.placement = name := by
  rw [lineFor, List.mem_filter, List.mem_range]
  constructor
  · rintro ⟨_, h⟩
    simpa [Option.any_eq_true] using h
  · rintro ⟨c, hc, hsingle, hname⟩
    exact ⟨(List.getElem?_eq_some_iff.mp hc).1, by simp [hc, hsingle, hname]⟩

theorem lineFor_pairwise (tail : List Candidate) (name : String) :
    (lineFor tail name).Pairwise (· < ·) :=
  List.pairwise_lt_range.filter _

namespace Marks

/-- Those who stand in line for the placement and are not taken. -/
def waiting (tail : List Candidate) (taken : List Bool) (name : String) : List Nat :=
  (lineFor tail name).filter fun p => taken[p]? == some false

variable {taken : List Bool}

theorem mem_waiting {p : Nat} :
    p ∈ waiting tail taken name ↔
      Free tail taken p ∧ ∃ c, tail[p]? = some c ∧ c.placement = name := by
  rw [waiting, List.mem_filter, mem_lineFor, beq_iff_eq]
  constructor
  · rintro ⟨⟨c, hc, hsingle, hname⟩, hfree⟩
    exact ⟨⟨hfree, c, hc, hsingle⟩, c, hc, hname⟩
  · rintro ⟨⟨hfree, c, hc, hsingle⟩, d, hd, hname⟩
    rw [hc] at hd
    cases hd
    exact ⟨⟨c, hc, hsingle, hname⟩, hfree⟩

theorem waiting_pairwise (tail : List Candidate) (taken : List Bool) (name : String) :
    (waiting tail taken name).Pairwise (· < ·) :=
  (lineFor_pairwise tail name).filter _

/-! ## The head of a line -/

theorem waiting_eq_nil_of_firstFree (h : firstFree tail taken name = none) :
    waiting tail taken name = [] := by
  refine List.eq_nil_iff_forall_not_mem.mpr fun p hp => ?_
  obtain ⟨⟨hcell, c, hc, hsingle⟩, d, hd, hname⟩ := mem_waiting.mp hp
  rw [hc] at hd
  cases hd
  have hmem : (c, false) ∈ tail.zip taken := by
    refine List.mem_of_getElem? (i := p) ?_
    rw [List.getElem?_zip_eq_some]
    exact ⟨hc, hcell⟩
  have hserves := List.findIdx?_eq_none_iff.mp h _ hmem
  simp [hsingle, hname] at hserves

theorem firstFree_eq_head? (tail : List Candidate) (taken : List Bool) (name : String) :
    firstFree tail taken name = (waiting tail taken name).head? := by
  cases hfirst : firstFree tail taken name with
  | none => rw [waiting_eq_nil_of_firstFree hfirst, List.head?_nil]
  | some position =>
      have hmem : position ∈ waiting tail taken name := mem_waiting.mpr (firstFree_sound hfirst)
      have hsorted := waiting_pairwise tail taken name
      cases hline : waiting tail taken name with
      | nil => simp [hline] at hmem
      | cons head line =>
          rw [hline] at hmem hsorted
          obtain ⟨hfree, c, hc, hname⟩ := mem_waiting.mp (hline ▸ List.mem_cons_self ..)
          have hle : position ≤ head := le_of_firstFree hfirst hfree hc hname
          rcases List.mem_cons.mp hmem with rfl | hlater
          · rfl
          · have := List.rel_of_pairwise_cons hsorted hlater
            omega

theorem waiting_set (tail : List Candidate) (taken : List Bool) (position : Nat) (name : String) :
    waiting tail (taken.set position true) name =
      (waiting tail taken name).filter (· != position) := by
  rw [waiting, waiting, List.filter_filter]
  refine List.filter_congr fun p _ => ?_
  rw [List.getElem?_set]
  by_cases hsame : position = p
  · subst hsame
    by_cases hlt : position < taken.length <;> simp [hlt]
  · simp [hsame, Ne.symm hsame]

/-- Who is found for a placement leaves its line, of which he was the head, and no other one. -/
theorem waiting_set_of_firstFree {placement : String} {position : Nat}
    (h : firstFree tail taken placement = some position) (name : String) :
    waiting tail (taken.set position true) name =
      (waiting tail taken name).drop (if placement = name then 1 else 0) := by
  rw [waiting_set]
  by_cases hname : placement = name
  · subst hname
    have hhead := firstFree_eq_head? tail taken placement
    have hsorted := waiting_pairwise tail taken placement
    rw [h] at hhead
    cases hline : waiting tail taken placement with
    | nil => simp [hline] at hhead
    | cons head line =>
        rw [hline] at hhead hsorted
        cases hhead
        have hlater : ∀ p ∈ line, (p != position) = true := by
          intro p hp
          have := List.rel_of_pairwise_cons hsorted hp
          simp only [bne_iff_ne]
          omega
        simp [List.filter_eq_self.mpr hlater]
  · have hother : ∀ p ∈ waiting tail taken name, (p != position) = true := by
      intro p hp
      obtain ⟨_, c, hc, hcname⟩ := mem_waiting.mp hp
      obtain ⟨_, d, hd, hdname⟩ := firstFree_sound h
      rw [bne_iff_ne]
      rintro rfl
      rw [hc] at hd
      cases hd
      exact hname (hdname.symm.trans hcname)
    rw [List.filter_eq_self.mpr hother, if_neg hname, List.drop_zero]

/-! ## Searches -/

/-- How many of the parts name the placement. -/
def need (parts : List Candidate) (name : String) : Nat :=
  (parts.map Candidate.placement).count name

theorem need_cons (part : Candidate) (parts : List Candidate) (name : String) :
    need (part :: parts) name = need parts name + if part.placement = name then 1 else 0 := by
  simp [need, List.count_cons]

/-- A search takes from the head of each line, once for each part that names the placement. -/
theorem waiting_search (tail parts : List Candidate) (marks : Marks) (name : String) :
    waiting tail (search tail parts marks).taken.cells name =
      (waiting tail marks.taken.cells name).drop (need parts name) := by
  -- By induction on the parts: each one serves the head of its own line, or nobody if that is empty.
  induction parts generalizing marks with
  | nil => rfl
  | cons part parts ih =>
      unfold search
      rw [need_cons]
      cases hfirst : firstFree tail marks.taken.cells part.placement with
      | none =>
          dsimp only
          rw [ih]
          by_cases hname : part.placement = name
          · -- Nobody waits for the placement, so one part more makes no difference.
            rw [← hname, waiting_eq_nil_of_firstFree hfirst, List.drop_nil, List.drop_nil]
          · rw [if_neg hname, Nat.add_zero]
      | some position =>
          dsimp only
          rw [ih, Buffer.cells_set, waiting_set_of_firstFree hfirst, List.drop_drop, Nat.add_comm]

/-- If every line is long enough for the parts that name it, then somebody is found for each part. -/
theorem found_search_of_enough {parts : List Candidate} {marks : Marks}
    (h : ∀ name, need parts name ≤ (waiting tail marks.taken.cells name).length) :
    (search tail parts marks).found.length = marks.found.length + parts.length := by
  induction parts generalizing marks with
  | nil => rfl
  | cons part parts ih =>
      unfold search
      cases hfirst : firstFree tail marks.taken.cells part.placement with
      | none =>
          have henough := h part.placement
          rw [need_cons, waiting_eq_nil_of_firstFree hfirst] at henough
          simp at henough
      | some position =>
          dsimp only
          rw [ih]
          · simp [Buffer.length]
            omega
          · intro name
            have henough := h name
            rw [need_cons] at henough
            rw [Buffer.cells_set, waiting_set_of_firstFree hfirst, List.length_drop]
            omega

/-- Each entry that is found is no longer among those that are not taken. -/
theorem found_search_add_count (tail parts : List Candidate) (marks : Marks) :
    (search tail parts marks).found.length + (search tail parts marks).taken.cells.count false =
      marks.found.length + marks.taken.cells.count false := by
  induction parts generalizing marks with
  | nil => rfl
  | cons part parts ih =>
      unfold search
      cases hfirst : firstFree tail marks.taken.cells part.placement with
      | none => exact ih marks
      | some position =>
          dsimp only
          rw [ih]
          obtain ⟨⟨hfree, _⟩, _⟩ := firstFree_sound hfirst
          obtain ⟨hlt, hcell⟩ := List.getElem?_eq_some_iff.mp hfree
          have hpos : 0 < marks.taken.cells.count false :=
            List.count_pos_iff.mpr (hcell ▸ List.getElem_mem hlt)
          simp only [Buffer.length, Buffer.cells_set, Buffer.cells_push, List.count_set hlt, hcell,
            List.length_append, List.length_cons, List.length_nil]
          simp
          omega

/-! ## Bundles that are not covered -/

/-- Some line is too short for the slots that the candidate takes. -/
def Short (tail : List Candidate) (taken : List Bool) (c : Candidate) : Prop :=
  ∃ name, (waiting tail taken name).length < (slotNames [c]).count name

variable {marks : Marks} {c : Candidate} {b : Bundle}

/-- Lines that go on being served do not get longer. -/
theorem Short.of_drop {later : List Bool} (h : Short tail taken c)
    (hserved : ∀ name, ∃ k, waiting tail later name = (waiting tail taken name).drop k) :
    Short tail later c := by
  obtain ⟨name, hshort⟩ := h
  obtain ⟨k, hk⟩ := hserved name
  refine ⟨name, ?_⟩
  rw [hk, List.length_drop]
  omega

theorem short_of_few_found (hb : c.bundle? = some b)
    (h : (search tail b.parts marks).found.length < marks.found.length + b.parts.length) :
    Short tail marks.taken.cells c := by
  -- Lines that are long enough would serve every part.
  by_contra henough
  refine absurd (found_search_of_enough fun name => ?_) (Nat.ne_of_lt h)
  have hname : ¬ (waiting tail marks.taken.cells name).length < (slotNames [c]).count name :=
    fun hlt => henough ⟨name, hlt⟩
  rw [slotNames_of_bundle hb] at hname
  exact Nat.le_of_not_lt hname

theorem count_eq_of_honest (hb : c.bundle? = some b) (h : c.Honest) :
    b.count.toNat = b.parts.length := by
  have hclaim : c.claim = c.slots.length := h
  rwa [Candidate.claim_of_bundle hb, Candidate.slots_of_bundle hb, List.length_map] at hclaim

/-- An honest bundle is covered unless some line is too short. -/
theorem short_of_cover_failed (hb : c.bundle? = some b) (hhonest : c.Honest) (hclaim : 0 < c.claim)
    (hempty : marks.found.cells = []) (h : (cover tail b marks).1 = false) :
    Short tail marks.taken.cells c := by
  have hcount := count_eq_of_honest hb hhonest
  rw [Candidate.claim_of_bundle hb] at hclaim
  refine short_of_few_found hb (Nat.lt_of_le_of_ne ?_ fun hall => ?_)
  · obtain ⟨positions, htaken⟩ := search_spec tail b.parts marks
    have hnames := htaken.names.length_le
    rw [List.length_map, List.length_map, length_entriesAt fun p hp => (htaken.free p hp).lt] at hnames
    rw [Buffer.length, htaken.found, List.length_append]
    exact Nat.add_le_add_left hnames _
  · -- Somebody was found for each part, and so the cover did not fail.
    have hlength : (search tail b.parts marks).found.length = b.count.toNat := by
      rw [hall, Buffer.length, hempty, hcount, List.length_nil, Nat.zero_add]
    have hsome : (search tail b.parts marks).found.cells ≠ [] := by
      intro hnil
      rw [Buffer.length, hnil, List.length_nil] at hlength
      omega
    unfold cover at h
    dsimp only at h
    rw [if_pos ⟨hsome, hlength⟩] at h
    cases h

/-- Nor can it be covered if fewer entries are left than it claims. -/
theorem short_of_few_left (hb : c.bundle? = some b) (hhonest : c.Honest)
    (h : marks.taken.cells.count false < c.claim) : Short tail marks.taken.cells c := by
  have hbalance := found_search_add_count tail b.parts ⟨marks.taken, marks.found.clear⟩
  have hcount := count_eq_of_honest hb hhonest
  rw [Candidate.claim_of_bundle hb, hcount] at h
  have hfew : (search tail b.parts ⟨marks.taken, marks.found.clear⟩).found.length <
      marks.found.clear.length + b.parts.length := by
    dsimp only at hbalance
    omega
  have hshort := short_of_few_found hb hfew
  exact hshort

end Marks
end SlotAuction
