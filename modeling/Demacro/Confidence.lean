import Demacro.Unicode.Classes
import Demacro.Unicode.Case

/-!
How sure a classification is, and how safe a proposed change is.
-/

namespace Demacro

/-- How sure it is that a macro follows its pattern. -/
inductive Confidence where
  /-- The macro must stay as it is. -/
  | blocked
  | medium
  | high
deriving DecidableEq

namespace Confidence

/-- The place of a level among the levels, the weakest first. -/
def rank : Confidence → Nat
  | blocked => 0
  | medium => 1
  | high => 2

/-- The name of a level. -/
def name : Confidence → String
  | blocked => "unrewritable"
  | medium => "medium"
  | high => "high"

/-- The weaker of two levels. -/
def lower (a b : Confidence) : Confidence :=
  if a.rank ≤ b.rank then a else b

/-- All levels. -/
def all : List Confidence := [blocked, medium, high]

/-- The level with a name. -/
def ofName? (name : String) : Option Confidence :=
  all.find? (·.name == name)

end Confidence

/-- How sure it is that a proposed change keeps the meaning of the program. -/
inductive SafetyTier where
  | low
  | medium
  | high
deriving DecidableEq

namespace SafetyTier

/-- The place of a tier among the tiers, the weakest first. -/
def rank : SafetyTier → Nat
  | low => 0
  | medium => 1
  | high => 2

/-- The name of a tier. -/
def name : SafetyTier → String
  | low => "low"
  | medium => "medium"
  | high => "high"

/-- The weaker of two tiers. -/
def lower (a b : SafetyTier) : SafetyTier :=
  if a.rank ≤ b.rank then a else b

/-- All tiers. -/
def all : List SafetyTier := [low, medium, high]

/-- The tier with a name. -/
def ofName? (name : String) : Option SafetyTier :=
  all.find? (·.name == name)

/-- The tier of a proposal for a classification of the given confidence. -/
def ofConfidence : Confidence → SafetyTier
  | .high => high
  | .medium => medium
  | .blocked => low

/-- The tier that a person names, in any case and with blanks around; the name of a blocked macro
means the lowest one. -/
def parse? (s : String) : Option SafetyTier :=
  let word := Unicode.toLower (String.ofList (Unicode.trim s.toList))
  if word = "unrewritable" then some low else ofName? word

end SafetyTier

end Demacro
