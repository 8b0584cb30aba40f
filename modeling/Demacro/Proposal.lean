import Demacro.Classification
import Demacro.Edit

/-!
Proposals: the replacement of one macro with every edit that it needs.
-/

namespace Demacro

/-- A replacement for a macro. -/
structure Proposal where
  id : String
  macroName : String
  pattern : Pattern
  tier : SafetyTier
  /-- The text of the declaration that takes the place of the macro. -/
  declaration : Option Text := none
  /-- Other declarations that would serve. -/
  alternatives : List Text := []
  /-- What the tier depends on. -/
  notes : List String := []
  /-- Why there are no edits. -/
  reason : Option Text := none
  edits : List Edit := []
  /-- The dangers of the macro, in words. -/
  warnings : List Text := []

/-- Whether the proposal changes anything. -/
def Proposal.isChange (p : Proposal) : Bool :=
  p.tier != .low && !p.edits.isEmpty

end Demacro
