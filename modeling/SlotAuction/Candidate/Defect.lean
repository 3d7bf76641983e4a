import SlotAuction.Candidate.Basic

/-!
# Defect — why a candidate is not fit to serve

An award never asks for defects; they are reported to whoever supplied the candidate.

* `Candidate.defect?` — the first defect of a candidate, in the order of its parts;
* `Defect.message` — its wording.
-/

namespace SlotAuction

inductive Defect where
  | noPlacement (id : String)
  | emptyBundle (id : String)
  | invalidPart (id : String) (source : Defect)
  | rejected (id reason : String)
  deriving DecidableEq

namespace Defect

def message : Defect → String
  | .noPlacement id => "equipment '" ++ id ++ "' does not target an impression"
  | .emptyBundle id => "bundle '" ++ id ++ "' has no ads"
  | .invalidPart id source => "bundle '" ++ id ++ "' contains an invalid ad: " ++ source.message
  | .rejected id reason => "equipment '" ++ id ++ "' rejected: " ++ reason

end Defect

namespace Candidate

mutual

/-- Partners answer for their own candidates, in which no defect is looked for. -/
def defect? : Candidate → Option Defect
  | .ad id _ _ (some reason) => some (.rejected id reason)
  | .ad id placement _ none => if placement = "" then some (.noPlacement id) else none
  | .bundle id [] => some (.emptyBundle id)
  | .bundle id (part :: parts) => (partDefect? (part :: parts)).map (.invalidPart id)
  | .partnerAd _ _ _ _ => none
  | .partnerBundle _ _ _ _ _ _ => none

/-- The first defect among the parts of a bundle, where a further bundle is one. -/
def partDefect? : List Candidate → Option Defect
  | [] => none
  | part :: parts =>
      if part.isBundle then some (.rejected part.id "nested bundle")
      else
        match defect? part with
        | some d => some d
        | none => partDefect? parts

end

end Candidate
end SlotAuction
