import Demacro.Analysis
import Demacro.Plan.Merge

/-!
Runs over many units. Each unit is analysed for itself; one that cannot be analysed is left out and
listed. The plans of the others are merged.
-/

namespace Demacro

namespace UnitFault

/-- The name of the kind of a fault. -/
def kind : UnitFault → String
  | unreadable _ fault => fault.kind
  | unscannable (.malformed _) => "parse_error"
  | unscannable (.badNumeral _) => "ValueError"
  | unscannable (.unreachable fault) => fault.kind
  | unfoldable fault => fault.kind

/-- A fault in words. -/
def message : UnitFault → String
  | unreadable path fault => fault.message?.getD path
  | unscannable (.malformed e) => e.message
  | unscannable (.badNumeral digits) => Numeral.refusalMessage digits
  | unscannable (.unreachable fault) => fault.message?.getD ""
  | unfoldable fault => Text.display fault.message

end UnitFault

/-- A unit that was left out. -/
structure UnitFailure where
  unit : String
  fault : UnitFault

/-- The counts of a run. -/
structure RunStats where
  unitsProcessed : Nat := 0
  unitsFailed : Nat := 0
  macrosSeen : Nat := 0
  macrosReplaced : Nat := 0
  macrosReported : Nat := 0
  macrosSkipped : Nat := 0
  editsEmitted : Nat := 0
  conflicts : Nat := 0

namespace RunStats

/-- The counts in one line. -/
def summary (s : RunStats) : String :=
  "AnalysisStats(units=" ++ toString s.unitsProcessed ++ ", failed=" ++ toString s.unitsFailed
    ++ ", macros=" ++ toString s.macrosSeen ++ ", rewritten=" ++ toString s.macrosReplaced
    ++ ", reported=" ++ toString s.macrosReported ++ ", skipped=" ++ toString s.macrosSkipped
    ++ ", edits=" ++ toString s.editsEmitted ++ ", conflicts=" ++ toString s.conflicts ++ ")"

/-- The counts with their names. -/
def entries (s : RunStats) : List (String × Nat) :=
  [("units_processed", s.unitsProcessed), ("units_failed", s.unitsFailed),
    ("macros_seen", s.macrosSeen), ("macros_rewritten", s.macrosReplaced),
    ("macros_reported", s.macrosReported), ("macros_skipped", s.macrosSkipped),
    ("edits_emitted", s.editsEmitted), ("conflicts", s.conflicts)]

end RunStats

/-- The result of a run. -/
structure Run where
  plan : EditPlan
  diagnostics : List Diagnostic
  failures : List UnitFailure
  stats : RunStats

namespace Run

/-- The analyses that succeeded and the failures, in order. -/
def split (results : List (String × Except UnitFault Analysis)) :
    List Analysis × List UnitFailure :=
  (results.filterMap fun (_, r) => r.toOption,
    results.filterMap fun (path, r) =>
      match r with
      | .ok _ => none
      | .error fault => some ⟨path, fault⟩)

/-- The number of diagnostics with a disposition. -/
def countOf (ds : List Diagnostic) (disposition : Disposition) : Nat :=
  ds.countP (·.disposition == disposition)

/-- The result for units that were analysed. -/
def ofResults (results : List (String × Except UnitFault Analysis)) :
    Except ProposalIdFault Run := do
  let (analyses, failures) := split results
  let plan ← EditPlan.merge (analyses.map (·.plan))
  let diagnostics := analyses.flatMap fun a => a.diagnostics.map (Diagnostic.reconcile plan)
  return {
    plan, diagnostics, failures
    stats := {
      unitsProcessed := analyses.length
      unitsFailed := failures.length
      macrosSeen := diagnostics.length
      macrosReplaced := countOf diagnostics .replaced
      macrosReported := countOf diagnostics .reportedOnly
      macrosSkipped := countOf diagnostics .skipped
      editsEmitted := plan.editCount
      conflicts := plan.conflicts.length } }

/-- The analysis of the unit of a file; `read` gives the contents of files. -/
def analyse (parse : List UInt8 → SyntaxNode) (settings : Settings)
    (read : String → Except AccessFault (List UInt8)) (path : String) : Except UnitFault Analysis :=
    do
  let data ← (read path).mapError (.unreadable path)
  Analysis.ofText parse settings read path (Text.decode data)

/-- A run over the units of some files. A path that occurs several times counts once. -/
def ofPaths (parse : List UInt8 → SyntaxNode) (settings : Settings)
    (read : String → Except AccessFault (List UInt8)) (paths : List String) :
    Except ProposalIdFault Run :=
  ofResults (paths.eraseDups.map fun path => (path, analyse parse settings read path))

end Run

end Demacro
