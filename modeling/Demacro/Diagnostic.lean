import Demacro.Plan

/-!
Diagnostics: what became of each macro of a unit, with exactly one entry for each.
-/

namespace Demacro

/-- What became of a macro. -/
inductive Disposition where
  | replaced
  | reportedOnly
  | skipped
deriving DecidableEq

/-- The name of a disposition. -/
def Disposition.name : Disposition → String
  | replaced => "rewritten"
  | reportedOnly => "reported_only"
  | skipped => "skipped"

/-- What became of one macro of one unit, and why. -/
structure Diagnostic where
  macroName : String
  path : Option String
  definitionLines : List Nat
  pattern : Pattern
  confidence : Confidence
  rationale : Text
  disposition : Disposition
  hazards : List Hazard
  unit : String
  proposal : Option String

namespace Diagnostic

/-- What became of a macro, given the proposal for it and the plan of the unit. -/
def disposition? (plan : EditPlan) (c : Classification) (p : Option Proposal) : Disposition :=
  if c.skipped then .skipped
  else if p.any fun p => plan.emitted.contains p.id then .replaced
  else .reportedOnly

/-- The entry of a macro. -/
def ofClassification (unit : String) (proposals : List Proposal) (plan : EditPlan)
    (c : Classification) : Diagnostic :=
  let proposal := (proposals.filter (·.macroName == c.name)).getLast?
  let disposition := disposition? plan c proposal
  let refusal := if disposition = .reportedOnly then proposal.bind Proposal.reason else none
  { disposition, unit
    macroName := c.name
    path := c.path?
    definitionLines := c.definition.elim [] DefinitionRecord.lines
    pattern := c.pattern
    confidence := c.confidence
    rationale := (refusal.filter (!·.isEmpty)).getD c.rationale
    hazards := c.hazards
    proposal := proposal.map Proposal.id }

/-- The entry with regard to the plan of all units: a replacement that it holds back is only
reported. -/
def reconcile (plan : EditPlan) (d : Diagnostic) : Diagnostic :=
  if d.disposition = .replaced ∧ d.proposal.any plan.withheld.contains then
    { d with disposition := .reportedOnly, rationale := "withheld when merging translation units" }
  else d

end Diagnostic

end Demacro
