import SlotAuction.Proofs.Award
import SlotAuction.Proofs.Exchange.Buffers
import SlotAuction.Proofs.History

/-!
# Shelves — what awards find on the shelves that they share

Any number of auctions lease from the same shelves and give back to them, in any order and under any
limits, and what they do to a buffer in between is their own business.

* `Shelf.Reached`, `Workspace.Reached` — the shelves after any leases and returns whatsoever;
* `Workspace.Reached.clean` — every idle buffer on them is empty;
* `Workspace.Reached.award`, `Workspace.Reached.answer` — awards lead from such shelves to such shelves;
* `Award.ofPool_eq_fresh`, `Auction.step_award_eq_fresh` — and an award is then the one with new
  buffers.
-/

namespace SlotAuction

/-! ## Shelves after leases and returns -/

namespace Shelf

variable {α : Type} [Cell α]

/-- The shelf after leases and returns, of any buffers and under any limits. -/
inductive Reached : Shelf α → Prop
  | empty : Reached Shelf.empty
  | lease {shelf : Shelf α} (h : Reached shelf) (limits : Limits) : Reached (shelf.lease limits).2
  | takeBack {shelf : Shelf α} (h : Reached shelf) (lease : Lease α) :
      Reached (shelf.takeBack lease)

theorem Reached.clean {shelf : Shelf α} (h : shelf.Reached) : shelf.Clean := by
  induction h with
  | empty => exact clean_empty
  | lease _ limits ih => exact (ih.lease limits).2
  | takeBack _ lease ih => exact ih.takeBack lease

end Shelf

namespace Workspace

structure Reached (w : Workspace) : Prop where
  tallies : w.tallies.Reached
  indices : w.indices.Reached
  flags : w.flags.Reached

theorem reached_empty : empty.Reached :=
  ⟨.empty, .empty, .empty⟩

theorem Reached.clean {w : Workspace} (h : w.Reached) : w.Clean :=
  ⟨h.tallies.clean, h.indices.clean, h.flags.clean⟩

/-! ## Awards lease and give back -/

variable {γ : Type} [WordSource γ] {w : Workspace}

theorem Reached.exchange (h : w.Reached) (limits : Limits) (tail winners : List Candidate) :
    (Award.exchange limits tail winners w).2.Reached where
  tallies := h.tallies
  indices := (h.indices.lease limits).takeBack _
  flags := (h.flags.lease limits).takeBack _

theorem Reached.ofFill (h : w.Reached) (settings : Settings) (pool : List Candidate)
    (placements : List Placement) (fill : Fill) :
    (Award.ofFill settings pool placements fill w).2.Reached := by
  unfold Award.ofFill
  cases fill.tail? with
  | none => exact h
  | some tail =>
      dsimp only
      split
      · exact h.exchange settings.limits tail fill.winners
      · exact h

theorem Reached.award (h : w.Reached) (settings : Settings) (pool : List Candidate)
    (placements : List Placement) : (Award.ofPool settings pool placements w).2.Reached := by
  have hleased : Reached { w with
      tallies := ((w.tallies.lease settings.limits).2.lease settings.limits).2 } :=
    ⟨(h.tallies.lease _).lease _, h.indices, h.flags⟩
  have hresult := hleased.ofFill settings pool placements
    (Fill.ofPool placements pool (w.tallies.lease settings.limits).1.buffer
      ((w.tallies.lease settings.limits).2.lease settings.limits).1.buffer)
  exact ⟨(hresult.tallies.takeBack _).takeBack _, hresult.indices, hresult.flags⟩

theorem Reached.answer (h : w.Reached) (query : Query) (auction : Auction γ) :
    (query.answer auction w).2.2.Reached := by
  rw [Query.answer_eq]
  show (auction.step query.placements w).workspace.Reached
  unfold Auction.step
  split
  · exact h
  · exact h.award _ _ _

end Workspace

/-! ## Awards with new buffers -/

namespace Award

/-- The award with new buffers. -/
def fresh (settings : Settings) (pool : List Candidate) (placements : List Placement) : Award :=
  (ofPool settings pool placements Workspace.empty).1

variable {workspace : Workspace}

theorem lease_flags_cells (h : workspace.Reached) (settings : Settings) :
    (workspace.flags.lease settings.limits).1.buffer.cells = [] :=
  (h.clean.flags.lease settings.limits).1

/-- No entry counts as taken when an exchange begins. -/
theorem takenAtStart_of_reached (h : workspace.Reached) (settings : Settings) (size : Nat) :
    takenAtStart settings workspace size = List.replicate size false := by
  simp [takenAtStart, lease_flags_cells h settings]

theorem ofPool_eq_fresh (h : workspace.Reached) (settings : Settings) (pool : List Candidate)
    (placements : List Placement) :
    (ofPool settings pool placements workspace).1 = fresh settings pool placements := by
  rw [fresh, ofPool_fst, ofPool_fst]
  cases (Fill.fresh placements pool).tail? with
  | none => rfl
  | some tail =>
      have hcells : (workspace.flags.lease settings.limits).1.buffer.cells =
          (Workspace.empty.flags.lease settings.limits).1.buffer.cells := by
        rw [lease_flags_cells h, lease_flags_cells Workspace.reached_empty]
      have halike := Exchange.ofFill_congr tail (Fill.fresh placements pool).winners
        (workspace.indices.lease settings.limits).1.buffer
        (Workspace.empty.indices.lease settings.limits).1.buffer hcells
      dsimp only
      rw [ofExchange, ofExchange, halike.winners, halike.replaced]

end Award

/-- A call for winners gives the award of the arranged pool with new buffers, or no award. -/
theorem Auction.step_award_eq_fresh {γ : Type} [WordSource γ] {workspace : Workspace}
    (h : workspace.Reached) (auction : Auction γ) (placements : List Placement) :
    (auction.step placements workspace).award =
      if placements.isEmpty || auction.pool.isEmpty then Award.nothing
      else Award.fresh auction.settings auction.arrange.pool placements := by
  unfold Auction.step
  split
  · rfl
  · rw [← settings_arrange auction]
    exact Award.ofPool_eq_fresh h _ _ _

end SlotAuction
