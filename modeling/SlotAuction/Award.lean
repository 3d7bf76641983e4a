import SlotAuction.Exchange
import SlotAuction.Fill
import SlotAuction.Scratch.Workspace
import SlotAuction.Settings.Basic

/-!
# Award — winners for the placements of one request

An award is a fill of a ranked pool, and the exchange of weak bundles after it.  The exchange takes
place only if the settings ask for it, the fill left a tail, and the pool offers more than the slots
that are used.  Buffers are leased from a workspace and given back in the reverse order.

* `Award.ofPool` — the award, and the workspace after it.
-/

namespace SlotAuction

structure Award where
  winners : List Candidate
  /-- How many bundles were exchanged. -/
  replaced : Nat

namespace Award

def nothing : Award := ⟨[], 0⟩

/-- Exchanges bundles with leased buffers. -/
def exchange (limits : Limits) (tail winners : List Candidate) (workspace : Workspace) :
    Award × Workspace :=
  let flags := workspace.flags.lease limits
  let indices := workspace.indices.lease limits
  let exchanged := Exchange.ofFill tail winners flags.1.buffer indices.1.buffer
  (⟨exchanged.winners, exchanged.replaced⟩,
    { workspace with
      indices := indices.2.takeBack ⟨exchanged.marks.found, limits⟩
      flags := flags.2.takeBack ⟨exchanged.marks.taken, limits⟩ })

/-- Whether the winners of a fill are up for exchange. -/
def exchanges (settings : Settings) (pool : List Candidate) (placements : List Placement)
    (fill : Fill) : Bool :=
  settings.exchange && decide (fill.usedSlots placements < Candidate.totalCapacity pool)

/-- What becomes of the winners of a fill. -/
def ofFill (settings : Settings) (pool : List Candidate) (placements : List Placement)
    (fill : Fill) (workspace : Workspace) : Award × Workspace :=
  match fill.tail? with
  | some tail =>
      if exchanges settings pool placements fill then
        exchange settings.limits tail fill.winners workspace
      else (⟨fill.winners, 0⟩, workspace)
  | none => (⟨fill.winners, 0⟩, workspace)

/-- Awards the placements to the candidates of a ranked pool. -/
def ofPool (settings : Settings) (pool : List Candidate) (placements : List Placement)
    (workspace : Workspace) : Award × Workspace :=
  let fills := workspace.tallies.lease settings.limits
  let deltas := fills.2.lease settings.limits
  let fill := Fill.ofPool placements pool fills.1.buffer deltas.1.buffer
  let result := ofFill settings pool placements fill { workspace with tallies := deltas.2 }
  -- Last leased, first given back.
  let tallies := result.2.tallies.takeBack ⟨fill.ledger.deltas, settings.limits⟩
  (result.1,
    { result.2 with tallies := tallies.takeBack ⟨fill.ledger.fills, settings.limits⟩ })

end Award
end SlotAuction
