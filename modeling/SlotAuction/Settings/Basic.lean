import SlotAuction.Scratch.Shelf

/-!
# Settings — what can be tuned in an auction

* `Settings.defaults` — what holds where nothing is said;
* `Settings.fault?` — the first thing that is wrong with settings.
-/

namespace SlotAuction

structure Settings where
  /-- Whether weak bundles are exchanged after the fill. -/
  exchange : Bool
  limits : Limits
  deriving DecidableEq

namespace Settings

def defaults : Settings where
  exchange := true
  limits := ⟨64, 4096⟩

instance : Inhabited Settings := ⟨defaults⟩

/-! ## Faults -/

/-- What settings must not ask for. -/
inductive Fault where
  | keepsNoBuffer
  | retainsNoCell
  deriving DecidableEq

def fault? (s : Settings) : Option Fault :=
  if s.limits.maxIdle = 0 then some .keepsNoBuffer
  else if s.limits.maxRetained = 0 then some .retainsNoCell
  else none

end Settings
end SlotAuction
