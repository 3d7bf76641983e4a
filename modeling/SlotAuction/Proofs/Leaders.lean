import SlotAuction.Proofs.StandIns

/-!
# Leaders — the bundles that lead among the winners are tried, and no others

The winners of a fill are ranked for an exchange, and the bundles before the first single lead.  Only
these are given up, so no single that won bids less for a slot.  And a leader that stays in the award could
not have been covered even by the entries of the tail that are left in the end.

* `Candidate.isLE_of_leads` — a leader bids no more for a slot than a single does;
* `Candidate.not_mem_dropWhile_of_leads` — whoever leads does not stand among the others as well;
* `LeadersTried` — what an exchange makes of the leaders;
* `leading_bundles_are_tried` — in every award with an exchange, whatever the pool of honest bundles.
-/

namespace SlotAuction

/-! ## Who leads -/

namespace Candidate

variable {ranked : List Candidate} {b s : Candidate}

/-- A bundle and a single do not tie, as their kinds decide between equal values. -/
theorem isLE_exchangeOrder_swap (hbundle : b.isBundle = true) (hsingle : s.isSingle = true)
    (h : (exchangeOrder b s).isLE = true) : (exchangeOrder s b).isLE = false := by
  rw [isSingle_eq_not_isBundle, Bool.not_eq_true'] at hsingle
  have hkinds : kindOrder b s = .lt := by simp [kindOrder, hbundle, hsingle]
  have hswap : exchangeOrder s b = (exchangeOrder b s).swap := Std.OrientedCmp.eq_swap
  have hbefore : exchangeOrder b s = .lt := by
    unfold exchangeOrder at h ⊢
    rw [hkinds] at h ⊢
    revert h
    cases compare b.perSlotValue s.perSlotValue <;> simp
  rw [hswap, hbefore]
  rfl

theorem isLE_of_exchangeOrder (h : (exchangeOrder b s).isLE = true) :
    (compare b.perSlotValue s.perSlotValue).isLE = true := by
  unfold exchangeOrder at h
  exact (Ordering.isLE_then_iff_and.mp h).1

theorem mem_dropWhile_of_single (hs : s ∈ ranked) (hsingle : s.isSingle = true) :
    s ∈ ranked.dropWhile isBundle := by
  rw [← List.takeWhile_append_dropWhile (p := isBundle) (l := ranked), List.mem_append] at hs
  rcases hs with hleads | hlater
  · exact absurd hsingle (not_isSingle_of_isBundle (isBundle_of_leads hleads))
  · exact hlater

/-- Whoever leads is ranked before everybody else. -/
theorem isLE_exchangeOrder_of_leads
    (hranked : ranked.Pairwise fun x y => (exchangeOrder x y).isLE = true)
    (hb : b ∈ ranked.takeWhile isBundle) (hs : s ∈ ranked.dropWhile isBundle) :
    (exchangeOrder b s).isLE = true := by
  rw [← List.takeWhile_append_dropWhile (p := isBundle) (l := ranked)] at hranked
  exact (List.pairwise_append.mp hranked).2.2 b hb s hs

theorem isLE_of_leads (hranked : ranked.Pairwise fun x y => (exchangeOrder x y).isLE = true)
    (hb : b ∈ ranked.takeWhile isBundle) (hs : s ∈ ranked) (hsingle : s.isSingle = true) :
    (compare b.perSlotValue s.perSlotValue).isLE = true :=
  isLE_of_exchangeOrder
    (isLE_exchangeOrder_of_leads hranked hb (mem_dropWhile_of_single hs hsingle))

/-- The others begin with a single, and no equal of a leader comes after a single. -/
theorem not_mem_dropWhile_of_leads
    (hranked : ranked.Pairwise fun x y => (exchangeOrder x y).isLE = true)
    (hb : b ∈ ranked.takeWhile isBundle) : b ∉ ranked.dropWhile isBundle := by
  intro hagain
  have hbundle := isBundle_of_leads hb
  cases hothers : ranked.dropWhile isBundle with
  | nil =>
      rw [hothers] at hagain
      cases hagain
  | cons first rest =>
      have hfirst : first ∈ ranked.dropWhile isBundle := by
        rw [hothers]
        exact List.mem_cons_self ..
      have hsingle : first.isSingle = true := by
        have hhead := List.head?_dropWhile_not isBundle ranked
        rw [hothers, List.head?_cons] at hhead
        rw [isSingle_eq_not_isBundle, hhead]
        rfl
      -- A bundle on both sides of a single would tie with it, which no bundle does.
      have hbefore := isLE_exchangeOrder_of_leads hranked hb hfirst
      rw [hothers] at hagain
      rcases List.mem_cons.mp hagain with rfl | hrest
      · exact not_isSingle_of_isBundle hbundle hsingle
      · have hothersRanked := hranked.sublist (List.dropWhile_sublist isBundle)
        rw [hothers] at hothersRanked
        have hafter := List.rel_of_pairwise_cons hothersRanked hrest
        rw [isLE_exchangeOrder_swap hbundle hsingle hbefore] at hafter
        cases hafter

end Candidate

/-! ## What becomes of the leaders -/

/-- Of the bundles that lead in `ranked`, those `given` up and those `refused`: the exchange gave up no
others, and no single of the winners bids less for a slot than a bundle given up.  For every leader that
is in the award, the singles of the tail that were not called are too few for some placement. -/
structure LeadersTried (tail ranked after : List Candidate) (replaced : Nat) (standIns : List Nat)
    (given refused : List Candidate) : Prop where
  leading : (ranked.takeWhile Candidate.isBundle).Perm (given ++ refused)
  count : given.length = replaced
  result : after.Perm
    (refused ++ ranked.dropWhile Candidate.isBundle ++ entriesAt tail standIns)
  weaker : ∀ b ∈ given, ∀ s ∈ ranked, s.isSingle = true →
    (compare b.perSlotValue s.perSlotValue).isLE = true
  uncovered : ∀ b ∈ ranked.takeWhile Candidate.isBundle, b ∈ after →
    ∃ name, ((lineFor tail name).filter (· ∉ standIns)).length < (slotNames [b]).count name

/-- A sweep of ranked winners tries the leaders. -/
theorem Exchange.Swept.leadersTried {tail ranked given refused : List Candidate} {e : Exchange}
    {positions : List Nat}
    (h : Swept tail ranked tail.length (startMarks tail) e given refused positions)
    (hranked : ranked.Pairwise fun x y => (Candidate.exchangeOrder x y).isLE = true)
    (hhonest : ∀ c ∈ ranked, c.Honest) (hclaims : ∀ c ∈ ranked, 0 < c.claim) :
    LeadersTried tail ranked e.winners e.replaced (e.standIns tail) given refused := by
  have hcalled := entriesAt_perm tail h.standIns_perm
  have hresult : e.winners.Perm
      (refused ++ ranked.dropWhile Candidate.isBundle ++ entriesAt tail (e.standIns tail)) :=
    h.result.trans (hcalled.symm.append_left _)
  have hsublist : (ranked.takeWhile Candidate.isBundle).Sublist ranked :=
    List.takeWhile_sublist _
  refine ⟨h.leading, h.count, hresult, ?_, ?_⟩
  · intro b hb s hs hsingle
    have hleads := h.leading.mem_iff.mpr (List.mem_append_left _ hb)
    exact Candidate.isLE_of_leads hranked hleads hs hsingle
  · intro b hb hafter
    have hrefused : b ∈ refused := by
      rcases List.mem_append.mp (hresult.mem_iff.mp hafter) with hstays | hcame
      · rcases List.mem_append.mp hstays with hrefused | hother
        · exact hrefused
        · exact absurd hother (Candidate.not_mem_dropWhile_of_leads hranked hb)
      · -- Whoever is called in is a single, and no leader is.
        have hsingle := Marks.isSingle_of_free h.free b (hcalled.mem_iff.mp hcame)
        have hbundle := Candidate.isBundle_of_leads hb
        exact absurd hsingle (Candidate.not_isSingle_of_isBundle hbundle)
    -- At the start no entry of the tail is taken, so the walk counts them all.
    have hcount : (startMarks tail).taken.cells.count false ≤ tail.length := by
      simp [cells_startMarks]
    obtain ⟨name, hshort⟩ := h.short hcount b hrefused (hhonest b (hsublist.subset hb))
      (hclaims b (hsublist.subset hb))
    rw [h.waiting_eq] at hshort
    exact ⟨name, hshort⟩

variable {γ : Type} [WordSource γ]

/-- In every award with an exchange, where the bundles of the pool count their parts: the leaders among
the winners of the fill are tried, and nobody else. -/
theorem leading_bundles_are_tried (auction : Auction γ) (placements : List Placement)
    {workspace : Workspace} (h : workspace.Reached) (hhonest : ∀ c ∈ auction.pool, c.Honest)
    (hruns : (Award.exchange? auction.settings auction.arrange.pool placements).isSome) :
    ∃ given refused,
      LeadersTried (Fill.untried placements auction.arrange.pool)
        (Candidate.sortForExchange (Fill.fresh placements auction.arrange.pool).winners)
        (auction.step placements workspace).award.winners
        (auction.step placements workspace).award.replaced
        (auction.standIns placements) given refused := by
  obtain ⟨e, he⟩ := Option.isSome_iff_exists.mp hruns
  obtain ⟨given, refused, positions, hswept⟩ := Award.sweep_of_exchange? he
  have hwinner : ∀ c ∈ Candidate.sortForExchange
      (Fill.fresh placements auction.arrange.pool).winners,
      c ∈ (Fill.fresh placements auction.arrange.pool).winners := fun c hc =>
    (List.mergeSort_perm ..).mem_iff.mp hc
  rw [Auction.step_award_eq_exchange h, Auction.standIns, he]
  refine ⟨given, refused, hswept.leadersTried (Candidate.sortForExchange_pairwise _) ?_ ?_⟩
  · intro c hc
    have hmem := Fill.mem_of_winner (hwinner c hc)
    exact hhonest c (auction.arrange_perm.mem_iff.mp hmem)
  · intro c hc
    exact Fill.claims_of_fresh_winner (hwinner c hc)

namespace Sample

/-- There is no room for the wide bundle.  The other two fill the page and lead, and a single in the tail
names the placement of the first one. -/
def leaders : List Candidate :=
  [.bundle "wide" [priced "wide-1" "top" 1, priced "wide-2" "top" 1, priced "wide-3" "side" 1],
   .bundle "solo" [priced "solo-1" "top" 3], .bundle "aside" [priced "aside-1" "side" 4],
   late, priced "foot" "foot" 1]

def leadersAuction : Auction Scripted :=
  (Auction.start Settings.defaults (Scripted.start [] 0)).push leaders

def solo : Candidate := .bundle "solo" [priced "solo-1" "top" 3]

def aside : Candidate := .bundle "aside" [priced "aside-1" "side" 4]

/-- The bundle that bids more is taken up first in the fill, and last in the exchange. -/
theorem arranged_leaders :
    leadersAuction.arrange.pool = [leaders[0], aside, solo, late, priced "foot" "foot" 1] :=
  Auction.pool_arrange_of_strict rfl ((List.Perm.swap ..).cons _) (by decide)

theorem awarded_leaders :
    (leadersAuction.step pair Workspace.empty).award = ⟨[late, aside], 1⟩ := by
  rw [Auction.award_step_of_strict rfl arranged_leaders rfl (by decide)
    (List.Perm.swap aside solo []) (by decide)]
  rfl

end Sample

theorem leading_bundles_are_tried_of_two :
    Workspace.empty.Reached ∧ (∀ c ∈ Sample.leadersAuction.pool, c.Honest) ∧
      (Award.exchange? Sample.leadersAuction.settings Sample.leadersAuction.arrange.pool
        Sample.pair).isSome = true ∧
      (Sample.leadersAuction.step Sample.pair Workspace.empty).award.replaced = 1 ∧
      ∃ given refused,
        LeadersTried (Fill.untried Sample.pair Sample.leadersAuction.arrange.pool)
          (Candidate.sortForExchange
            (Fill.fresh Sample.pair Sample.leadersAuction.arrange.pool).winners)
          (Sample.leadersAuction.step Sample.pair Workspace.empty).award.winners
          (Sample.leadersAuction.step Sample.pair Workspace.empty).award.replaced
          (Sample.leadersAuction.standIns Sample.pair) given refused := by
  have hhonest : ∀ c ∈ Sample.leadersAuction.pool, c.Honest := by decide
  have hruns : (Award.exchange? Sample.leadersAuction.settings
      Sample.leadersAuction.arrange.pool Sample.pair).isSome = true := by
    rw [Sample.arranged_leaders]
    rfl
  have hreplaced : (Sample.leadersAuction.step Sample.pair Workspace.empty).award.replaced = 1 :=
    congrArg Award.replaced Sample.awarded_leaders
  exact ⟨Workspace.reached_empty, hhonest, hruns, hreplaced,
    leading_bundles_are_tried Sample.leadersAuction Sample.pair Workspace.reached_empty hhonest
      hruns⟩

end SlotAuction
