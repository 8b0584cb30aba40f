import Demacro.Classification.OfSurvey
import Demacro.Diagnostic
import Demacro.Proposal.OfClassification

/-!
The analysis of one unit: its macros are classified, proposals are made and planned, and each macro
gets a diagnostic.
-/

namespace Demacro

/-- Why a unit cannot be analysed. -/
inductive UnitFault where
  | unreadable (path : String) (fault : AccessFault)
  | unscannable (fault : ScanError)
  | unfoldable (fault : FoldError)

/-- All that is found out about one unit. -/
structure Analysis where
  path : String
  unit : CompilationUnit
  classifications : List Classification
  proposals : List Proposal
  plan : EditPlan
  diagnostics : List Diagnostic

namespace Analysis

/-- Warnings about macros that are defined several times in the same way. -/
def repetitionWarnings (table : MacroTable) : List ReportEntry :=
  table.names.filterMap fun name =>
    let live := table.liveDefinitions name
    if 1 < live.length ∧ table.isAmbiguous name = false then
      some {
        macroName := name
        warning := some ("redefined identically at lines " ++ listLines (live.map (·.span.line))) }
    else none

/-- A macro that follows no pattern, as the plan sees it. -/
def leftover? (c : Classification) : Option Leftover :=
  if c.isClassified then none
  else
    let site := c.definition.map fun d =>
      DefinitionSite.mk d.definition.span.path c.name d.definition.span.line
    some ⟨c.name, c.reason, if c.skipped then none else site⟩

/-- The analysis of a unit that was read. -/
def ofUnit (parse : List UInt8 → SyntaxNode) (settings : Settings) (u : CompilationUnit) :
    Except FoldError Analysis := do
  let survey := Survey.ofUnit parse settings u
  let classifications ← survey.classifyAll
  let proposals := Proposal.ofUnit settings u classifications
  let plan := EditPlan.build proposals (classifications.filterMap leftover?) settings.minimumTier
    (repetitionWarnings survey.table)
  return {
    classifications, proposals, plan
    path := u.path
    unit := u
    diagnostics := classifications.map (Diagnostic.ofClassification u.path proposals plan) }

/-- The means to follow includes under some settings. -/
def search? (settings : Settings) (load : String → Except AccessFault (List UInt8)) :
    Option IncludeSearch :=
  if settings.followIncludes then some ⟨load, settings.includeDirectories⟩ else none

/-- The analysis of the unit of a file with the given text. -/
def ofText (parse : List UInt8 → SyntaxNode) (settings : Settings)
    (load : String → Except AccessFault (List UInt8)) (path : String) (text : Text) :
    Except UnitFault Analysis := do
  let unit ← (CompilationUnit.read path text (search? settings load)).mapError .unscannable
  (ofUnit parse settings unit).mapError .unfoldable

/-- The classification of a macro. -/
def classificationOf? (a : Analysis) (name : String) : Option Classification :=
  a.classifications.find? (·.name == name)

/-- The proposal for a macro. -/
def proposalFor? (a : Analysis) (name : String) : Option Proposal :=
  a.proposals.find? (·.macroName == name)

end Analysis

end Demacro
