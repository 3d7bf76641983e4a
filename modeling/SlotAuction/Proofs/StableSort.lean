import Mathlib.Data.List.Perm.Basic
import SlotAuction.Proofs.Ranking

/-!
# StableSort — both orders rank candidates, and ties stay as they came

A sort may only be trusted with a comparison that does not contradict itself.  Both orders look at kind,
count, and a value rounded on a grid of its own, which partners may state as they like; they are weak
orders all the same.

* `WeakOrder` — a comparison that is reversed when it is turned round, and does not break off in a chain;
* `StablySorted` — a list in order, in which candidates that tie stand as they stood before;
* `StablySorted.unique` — there is only one such list;
* `orders_sort_stably` — both orders are weak orders, and the two sorts give just these lists.
-/

namespace SlotAuction

/-! ## Weak orders -/

/-- Of two candidates the comparison says which comes first, if they do not tie. -/
structure WeakOrder (order : Candidate → Candidate → Ordering) : Prop where
  swap : ∀ a b, order b a = (order a b).swap
  trans : ∀ a b c, order a b ≠ .gt → order b c ≠ .gt → order a c ≠ .gt
  ties_trans : ∀ a b c, order a b = .eq → order b c = .eq → order a c = .eq

/-- `sorted` has the candidates of `cs` in order, and those that tie as they stand in `cs`. -/
structure StablySorted (order : Candidate → Candidate → Ordering) (cs sorted : List Candidate) :
    Prop where
  perm : sorted.Perm cs
  inOrder : sorted.Pairwise fun a b => order b a ≠ .lt
  stable : ∀ c, sorted.filter (order c · == .eq) = cs.filter (order c · == .eq)

section

variable {order : Candidate → Candidate → Ordering} [Std.TransCmp order]

variable (order) in
theorem weakOrder_of_transCmp : WeakOrder order where
  swap _ _ := Std.OrientedCmp.eq_swap
  trans a b c hab hbc := by
    have hab' : (order a b).isLE = true := Ordering.isLE_iff_ne_gt.mpr hab
    have hbc' : (order b c).isLE = true := Ordering.isLE_iff_ne_gt.mpr hbc
    exact Ordering.isLE_iff_ne_gt.mp (Std.TransCmp.isLE_trans hab' hbc')
  ties_trans _ _ _ hab hbc := Std.TransCmp.eq_trans hab hbc

/-! ## A merge sort is stable -/

/-- Candidates that all tie with one candidate tie among each other. -/
theorem isLE_of_ties {a b c : Candidate} (hca : order c a = .eq) (hcb : order c b = .eq) :
    (order a b).isLE = true := by
  have hac : order a c = .eq := Std.OrientedCmp.eq_comm.mp hca
  rw [Std.TransCmp.eq_trans hac hcb]
  rfl

theorem stablySorted_mergeSort (cs : List Candidate) :
    StablySorted order cs (cs.mergeSort fun a b => (order a b).isLE) where
  perm := List.mergeSort_perm ..
  inOrder := by
    refine (List.pairwise_mergeSort Candidate.isLE_trans Candidate.isLE_total cs).imp ?_
    intro a b hab hba
    exact Std.OrientedCmp.not_isLE_of_lt hba hab
  stable c := by
    -- Those that tie with `c` are in order already, so the sort leaves them in the row they are in.
    have hties : (cs.filter (order c · == .eq)).Pairwise fun a b => (order a b).isLE = true := by
      refine List.pairwise_of_forall_mem_list fun a ha b hb => ?_
      exact isLE_of_ties (beq_iff_eq.mp (List.mem_filter.mp ha).2)
        (beq_iff_eq.mp (List.mem_filter.mp hb).2)
    have hrow := List.sublist_mergeSort Candidate.isLE_trans Candidate.isLE_total hties
      List.filter_sublist
    have hkept := hrow.filter (order c · == .eq)
    rw [List.filter_filter] at hkept
    simp only [Bool.and_self] at hkept
    -- As many tie with `c` as before, so nobody stands between them.
    have hmany := ((List.mergeSort_perm cs fun a b => (order a b).isLE).filter
      (order c · == .eq)).length_eq
    exact (hkept.eq_of_length hmany.symm).symm

/-! ## There is only one stable sort -/

theorem tie_of_heads {x y : Candidate} {s t : List Candidate} (hperm : (x :: s).Perm (y :: t))
    (hs : (x :: s).Pairwise fun a b => order b a ≠ .lt)
    (ht : (y :: t).Pairwise fun a b => order b a ≠ .lt) : order x y = .eq := by
  by_cases hsame : x = y
  · rw [hsame]
    exact Std.ReflCmp.compare_self
  · have hx : x ∈ t := by
      have hmem := hperm.mem_iff.mp (List.mem_cons_self ..)
      exact (List.mem_cons.mp hmem).resolve_left hsame
    have hy : y ∈ s := by
      have hmem := hperm.mem_iff.mpr (List.mem_cons_self ..)
      exact (List.mem_cons.mp hmem).resolve_left (Ne.symm hsame)
    have hyx : order y x ≠ .lt := List.rel_of_pairwise_cons hs hy
    have hxy : order x y ≠ .lt := List.rel_of_pairwise_cons ht hx
    have hswap : order y x = (order x y).swap := Std.OrientedCmp.eq_swap
    rw [hswap] at hyx
    cases h : order x y with
    | lt => exact absurd h hxy
    | eq => rfl
    | gt => simp [h] at hyx

theorem eq_of_filter_ties {s t : List Candidate} (hperm : s.Perm t)
    (hs : s.Pairwise fun a b => order b a ≠ .lt) (ht : t.Pairwise fun a b => order b a ≠ .lt)
    (hties : ∀ c, s.filter (order c · == .eq) = t.filter (order c · == .eq)) : s = t := by
  induction s generalizing t with
  | nil => exact hperm.nil_eq
  | cons x s ih =>
      cases t with
      | nil => exact hperm.eq_nil
      | cons y t =>
          have hxy : order x y = .eq := tie_of_heads hperm hs ht
          -- The heads tie, and among those that tie with `x` each comes first.
          have hheads := hties x
          rw [List.filter_cons_of_pos (by simp [Std.ReflCmp.compare_self]),
            List.filter_cons_of_pos (by simp [hxy])] at hheads
          obtain ⟨rfl, _⟩ := List.cons.inj hheads
          congr 1
          refine ih hperm.cons_inv hs.of_cons ht.of_cons fun c => ?_
          have htails := hties c
          by_cases hc : order c x = .eq
          · simpa [List.filter_cons, hc] using htails
          · simpa [List.filter_cons, hc] using htails

theorem StablySorted.unique {cs s t : List Candidate} (hs : StablySorted order cs s)
    (ht : StablySorted order cs t) : s = t := by
  refine eq_of_filter_ties (hs.perm.trans ht.perm.symm) hs.inOrder ht.inOrder fun c => ?_
  rw [hs.stable, ht.stable]

theorem stablySorted_iff (cs sorted : List Candidate) :
    StablySorted order cs sorted ↔ sorted = cs.mergeSort fun a b => (order a b).isLE := by
  constructor
  · intro h
    exact h.unique (stablySorted_mergeSort cs)
  · rintro rfl
    exact stablySorted_mergeSort cs

end

/-- Whatever partners state about their candidates, both orders rank any candidates without contradiction.
So each list has one stable sort by either order: the same candidates, nobody before one who comes first,
and those that tie in the order that they came in. -/
theorem orders_sort_stably :
    (WeakOrder Candidate.fillOrder ∧ ∀ cs sorted,
      StablySorted Candidate.fillOrder cs sorted ↔ sorted = Candidate.sortForFill cs) ∧
    (WeakOrder Candidate.exchangeOrder ∧ ∀ cs sorted,
      StablySorted Candidate.exchangeOrder cs sorted ↔ sorted = Candidate.sortForExchange cs) :=
  ⟨⟨weakOrder_of_transCmp _, stablySorted_iff⟩, ⟨weakOrder_of_transCmp _, stablySorted_iff⟩⟩

end SlotAuction
