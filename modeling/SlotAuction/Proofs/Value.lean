import SlotAuction.Proofs.ExactExchange
import SlotAuction.Proofs.Fill.Precedence

/-!
# Value — what an exchange does to the value of an award

An exchange asks which placements a bundle covers, not what it bids.  So the value of the award falls
whenever the stand-ins together bid less than the bundles that were given up for them, and only then.

* `worth` — the bids of a list together, as an exact number;
* `Trade`, `Trade.total_le_iff` — bundles that made way for singles, and the total before and after;
* `worth_le_of_names` — stand-ins that bid, slot for slot, no less than the bundles are worth no less;
* `exchange_value` — the value with exchange against the value without;
* `late_exchange_loses` — an award that an exchange makes worth less.
-/

namespace SlotAuction

/-! ## Exact sums of bids -/

/-- All the bids together; other than an amount, it does not stop at any limit. -/
def worth (cs : List Candidate) : Nat :=
  (cs.map fun c => c.bid.raw.toNat).sum

@[simp] theorem worth_nil : worth [] = 0 := rfl

@[simp] theorem worth_cons (c : Candidate) (cs : List Candidate) :
    worth (c :: cs) = c.bid.raw.toNat + worth cs :=
  List.sum_cons

@[simp] theorem worth_append (cs ds : List Candidate) : worth (cs ++ ds) = worth cs + worth ds := by
  rw [worth, List.map_append, List.sum_append, worth, worth]

theorem worth_perm {cs ds : List Candidate} (h : cs.Perm ds) : worth cs = worth ds :=
  (h.map _).sum_nat

theorem toNat_total_bids (cs : List Candidate) :
    (Amount.total (cs.map Candidate.bid)).raw.toNat = min (worth cs) Word.limit := by
  rw [Amount.toNat_total, List.map_map]
  rfl

/-! ## Trades -/

/-- From `before` to `after`, the bundles `given` made way for singles of the tail, `came`, which name
what the bundles named, and `kept` stayed. -/
structure Trade (tail before after given kept came : List Candidate) : Prop where
  before_perm : before.Perm (given ++ kept)
  after_perm : after.Perm (kept ++ came)
  bundles : ∀ b ∈ given, b.isBundle = true
  singles : ∀ s ∈ came, s.isSingle = true
  inTail : came.Subperm tail
  names : (came.map Candidate.placement).Perm (slotNames given)

theorem Exchange.Swapped.trade {tail before after given kept : List Candidate} {taken : List Bool}
    {replaced : Nat} {standIns : List Nat}
    (h : Swapped tail taken before after replaced given kept standIns)
    (hhonest : ∀ c ∈ given, c.Honest) :
    Trade tail before after given kept (entriesAt tail standIns) where
  before_perm := h.split
  after_perm := h.result
  bundles := h.bundles
  singles := Marks.isSingle_of_free h.free
  inTail := entriesAt_subperm h.distinct fun p hp => (h.free p hp).lt
  names := by
    rw [← slotNames_of_singles (Marks.isSingle_of_free h.free)]
    exact h.names_perm hhonest

/-- What is kept counts on both sides; so a trade does not lower the total exactly if who came is
worth who went, or the total has reached its limit. -/
theorem Trade.total_le_iff {tail before after given kept came : List Candidate}
    (h : Trade tail before after given kept came) :
    Amount.total (before.map Candidate.bid) ≤ Amount.total (after.map Candidate.bid) ↔
      worth given ≤ worth came ∨ Word.limit ≤ worth kept + worth came := by
  have hle : Amount.total (before.map Candidate.bid) ≤ Amount.total (after.map Candidate.bid) ↔
      min (worth before) Word.limit ≤ min (worth after) Word.limit := by
    rw [← toNat_total_bids, ← toNat_total_bids]
    exact UInt64.le_iff_toNat_le
  rw [hle, worth_perm h.before_perm, worth_perm h.after_perm, worth_append, worth_append]
  omega

/-! ## Stand-ins slot for slot -/

/-- Of singles that name some placements and others, those that name the former. -/
theorem exists_split_of_names {came : List Candidate} {names others : List String}
    (h : (came.map Candidate.placement).Perm (names ++ others)) :
    ∃ mine rest, came.Perm (mine ++ rest) ∧ mine.map Candidate.placement = names ∧
      rest.map Candidate.placement = others := by
  have hnamed : List.Forall₂ (fun name c => Candidate.placement c = name)
      (came.map Candidate.placement) came := by
    rw [List.forall₂_map_left_iff, List.forall₂_same]
    exact fun _ _ => rfl
  obtain ⟨sorted, hsorted, hperm⟩ := List.perm_comp_forall₂ h.symm hnamed
  have hnames : sorted.map Candidate.placement = names ++ others := by
    have hsame := hsorted.flip
    rw [← List.forall₂_eq_eq_eq, List.forall₂_map_left_iff]
    exact hsame
  obtain ⟨mine, rest, rfl, hmine, hrest⟩ := List.map_eq_append_iff.mp hnames
  exact ⟨mine, rest, hperm.symm, hmine, hrest⟩

/-- If everybody in the list bids at least a share of the value, so do they all together. -/
theorem mul_le_mul_worth {cs : List Candidate} {value slots : Nat}
    (h : ∀ c ∈ cs, value ≤ slots * c.bid.raw.toNat) : cs.length * value ≤ slots * worth cs := by
  induction cs with
  | nil => simp
  | cons c cs ih =>
      have hhead := h c (List.mem_cons_self ..)
      have htail := ih fun d hd => h d (List.mem_cons_of_mem _ hd)
      rw [List.length_cons, worth_cons, Nat.mul_add, Nat.add_mul, Nat.one_mul]
      omega

/-- The single bids at least what the bundle bids for each of the slots that it claims. -/
def Outweighs (s b : Candidate) : Prop :=
  b.bid.raw.toNat ≤ b.claim * s.bid.raw.toNat

instance (s b : Candidate) : Decidable (Outweighs s b) :=
  inferInstanceAs (Decidable (_ ≤ _))

/-- Singles that name just what the bundles name, and each of which outweighs the bundles with its
name, are worth what the bundles are worth at least. -/
theorem worth_le_of_names {given came : List Candidate}
    (hclaims : ∀ b ∈ given, 0 < b.claim ∧ b.Honest)
    (hnames : (came.map Candidate.placement).Perm (slotNames given))
    (hbids : ∀ b ∈ given, ∀ s ∈ came, s.placement ∈ slotNames [b] → Outweighs s b) :
    worth given ≤ worth came := by
  -- One bundle after another is set against the singles that stand in for its parts.
  induction given generalizing came with
  | nil => exact Nat.zero_le _
  | cons b given ih =>
      rw [slotNames_cons] at hnames
      obtain ⟨mine, rest, hperm, hmine, hrest⟩ := exists_split_of_names hnames
      have hrestLe : worth given ≤ worth rest := by
        refine ih (fun d hd => hclaims d (List.mem_cons_of_mem _ hd)) (by rw [hrest]) ?_
        intro d hd s hs
        exact hbids d (List.mem_cons_of_mem _ hd) s
          (hperm.mem_iff.mpr (List.mem_append_right _ hs))
      obtain ⟨hpos, hhonest⟩ := hclaims b (List.mem_cons_self ..)
      have hmineBids : ∀ s ∈ mine, b.bid.raw.toNat ≤ b.claim * s.bid.raw.toNat := by
        intro s hs
        refine hbids b (List.mem_cons_self ..) s (hperm.mem_iff.mpr (List.mem_append_left _ hs)) ?_
        rw [← hmine]
        exact List.mem_map_of_mem hs
      have hlength : mine.length = b.claim := by
        rw [hhonest, ← List.length_map Candidate.placement, hmine, length_slotNames,
          awardedSlots_singleton]
      have hmineLe : b.bid.raw.toNat ≤ worth mine := by
        have hall := mul_le_mul_worth hmineBids
        rw [hlength] at hall
        exact Nat.le_of_mul_le_mul_left hall hpos
      rw [worth_cons, worth_perm hperm, worth_append]
      omega

/-! ## Two awards from one state -/

variable {γ : Type} [WordSource γ]

/-- From one state, whatever the shuffle and the workspaces: the value with exchange is no less than
the value without exactly if the singles that came are worth the bundles that made way, or the value
is at its limit.  It is no less if, for every bundle that would win without exchange, all singles of
the tail with a name of the bundle outweigh it. -/
theorem exchange_value (auction : Auction γ) (placements : List Placement)
    (workspace workspace' : Workspace) (hhonest : ∀ c ∈ auction.pool, c.Honest) :
    let tail := Fill.untried placements auction.arrange.pool
    let without := ((auction.exchanging false).report placements workspace).1
    let exchanged := ((auction.exchanging true).report placements workspace').1
    (∃ given kept came, Trade tail without.winners exchanged.winners given kept came ∧
        given.length = ((auction.exchanging true).step placements workspace').award.replaced ∧
          (without.outcome.value ≤ exchanged.outcome.value ↔
            worth given ≤ worth came ∨ Word.limit ≤ worth kept + worth came)) ∧
      ((∀ b ∈ without.winners, b.isBundle = true → ∀ s ∈ tail, s.isSingle = true →
          s.placement ∈ slotNames [b] → Outweighs s b) →
        without.outcome.value ≤ exchanged.outcome.value) := by
  intro tail without exchanged
  -- Without exchange the winners are those of the fill, from which the exchange starts.
  have hbefore : without.winners.Perm (Fill.fresh placements auction.arrange.pool).winners :=
    auction.winners_step_of_not_exchanging placements workspace
  obtain ⟨taken, given, kept, standIns, hswap, _⟩ :=
    (auction.exchanging true).step_swaps placements workspace'
  rw [Auction.pool_arrange_exchanging] at hswap
  have hgiven : ∀ b ∈ given, b ∈ (Fill.fresh placements auction.arrange.pool).winners := by
    intro b hb
    exact hswap.split.mem_iff.mpr (List.mem_append_left _ hb)
  have hgivenHonest : ∀ b ∈ given, b.Honest := by
    intro b hb
    obtain ⟨front, hsplit, hsublist⟩ := Fill.exists_front placements auction.arrange.pool
    have hmem : b ∈ auction.arrange.pool := by
      rw [hsplit]
      exact List.mem_append_left _ (hsublist.subset (hgiven b hb))
    exact hhonest b (auction.arrange_perm.mem_iff.mp hmem)
  have htrade := (hswap.of_perm hbefore).trade hgivenHonest
  have hvalue : without.outcome.value ≤ exchanged.outcome.value ↔ _ := htrade.total_le_iff
  refine ⟨⟨given, kept, _, htrade, hswap.count, hvalue⟩, fun hbids => ?_⟩
  -- Bundles that won claim a slot, so they may be set against their stand-ins slot for slot.
  rw [hvalue]
  left
  apply worth_le_of_names
  · intro b hb
    exact ⟨Fill.claims_of_fresh_winner (hgiven b hb), hgivenHonest b hb⟩
  · exact htrade.names
  · intro b hb s hs hname
    have hwon : b ∈ without.winners := hbefore.mem_iff.mpr (hgiven b hb)
    exact hbids b hwon (htrade.bundles b hb) s (htrade.inTail.subset hs) (htrade.singles s hs) hname

theorem Sample.crowd_without_exchange :
    ((crowdAuction.exchanging false).step page Workspace.empty).award.winners =
        [.bundle "page" [priced "page-1" "leaderboard" 2, priced "page-2" "sidebar" 2,
          priced "page-3" "footer" 2]] ∧
      Fill.untried page crowdAuction.arrange.pool =
        [priced "lb" "leaderboard" 9, priced "sb" "sidebar" 8, priced "ft" "footer" 7] := by
  constructor
  · rw [Auction.winners_step_of_no_exchange rfl, Auction.pool_arrange_exchanging, arranged_crowd]
    rfl
  · rw [arranged_crowd]
    rfl

theorem exchange_value_of_crowd :
    (∀ c ∈ Sample.crowdAuction.pool, c.Honest) ∧
      (∃ given kept came,
        Trade (Fill.untried Sample.page Sample.crowdAuction.arrange.pool)
          ((Sample.crowdAuction.exchanging false).report Sample.page Workspace.empty).1.winners
          ((Sample.crowdAuction.exchanging true).report Sample.page Workspace.empty).1.winners
          given kept came) ∧
        ((Sample.crowdAuction.exchanging false).report
            Sample.page Workspace.empty).1.outcome.value ≤
          ((Sample.crowdAuction.exchanging true).report
            Sample.page Workspace.empty).1.outcome.value := by
  have hhonest : ∀ c ∈ Sample.crowdAuction.pool, c.Honest := by decide
  obtain ⟨⟨given, kept, came, htrade, _⟩, hvalue⟩ :=
    exchange_value Sample.crowdAuction Sample.page Workspace.empty Workspace.empty hhonest
  refine ⟨hhonest, ⟨given, kept, came, htrade⟩, hvalue ?_⟩
  intro b hb _ s hs _ _
  change b ∈ ((Sample.crowdAuction.exchanging false).step
    Sample.page Workspace.empty).award.winners at hb
  rw [Sample.crowd_without_exchange.1, List.mem_singleton] at hb
  rw [Sample.crowd_without_exchange.2] at hs
  subst hb
  clear * - hs
  revert s
  decide

/-! ## An exchange at a loss -/

theorem Sample.latecomers_with_and_without :
    ((lateAuction.exchanging false).step pair Workspace.empty).award.winners =
        [.bundle "solo" [priced "solo-1" "top" 3], priced "side" "side" 4] ∧
      ((lateAuction.exchanging true).step pair Workspace.empty).award.winners =
        [late, priced "side" "side" 4] := by
  constructor
  · rw [Auction.winners_step_of_no_exchange rfl, Auction.pool_arrange_exchanging,
      arranged_latecomers]
    rfl
  · exact congrArg Award.winners awarded_latecomers

/-- The bundle bids three, and the single that stands in for it two. -/
theorem late_exchange_loses :
    ¬ ((Sample.lateAuction.exchanging false).report Sample.pair Workspace.empty).1.outcome.value ≤
      ((Sample.lateAuction.exchanging true).report Sample.pair Workspace.empty).1.outcome.value := by
  show ¬ Amount.total (((Sample.lateAuction.exchanging false).step
        Sample.pair Workspace.empty).award.winners.map Candidate.bid) ≤
      Amount.total (((Sample.lateAuction.exchanging true).step
        Sample.pair Workspace.empty).award.winners.map Candidate.bid)
  rw [Sample.latecomers_with_and_without.1, Sample.latecomers_with_and_without.2]
  decide

end SlotAuction
