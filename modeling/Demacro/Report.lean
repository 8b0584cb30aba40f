import Demacro.Run
import Demacro.Text.CodePoint

/-!
Reports: the results of a run as nested lists and tables, and their texts. The report of a run is
written for people, with indentation, sorted keys and ASCII characters only; diagnostics are written
one to a line, with the characters as they are.
-/

namespace Demacro

/-- A value in a report. -/
inductive ReportValue where
  | null
  | bool (b : Bool)
  | int (n : Int)
  | float (x : Float)
  | text (t : CodeText)
  | list (items : List ReportValue)
  | table (entries : List (CodeText × ReportValue))
deriving Inhabited

namespace ReportValue

/-- A text without stray bytes. -/
def ofString (s : String) : ReportValue :=
  text s

/-- A source text. -/
def ofText (t : Text) : ReportValue :=
  text (.ofText t)

/-- A text, or null where there is none. -/
def ofString? (s : Option String) : ReportValue :=
  s.elim null ofString

/-- A source text, or null where there is none. -/
def ofText? (t : Option Text) : ReportValue :=
  t.elim null ofText

/-- A count. -/
def ofNat (n : Nat) : ReportValue :=
  int n

/-- The escape for a code point: outside the first plane it takes two units. -/
def escapeCode (n : Nat) : List Char :=
  if n < 0x10000 then CodePoint.unitEscape n
  else
    CodePoint.unitEscape (0xd800 + (n - 0x10000) / 1024)
      ++ CodePoint.unitEscape (0xdc00 + (n - 0x10000) % 1024)

/-- A character in a quoted text. With `ascii`, all characters but the printable ASCII ones are
escaped, otherwise control characters only. -/
def escapeChar (ascii : Bool) (c : Char) : List Char :=
  if c = '"' then ['\\', '"']
  else if c = '\\' then ['\\', '\\']
  else if c = '\n' then ['\\', 'n']
  else if c = '\r' then ['\\', 'r']
  else if c = '\t' then ['\\', 't']
  else if c.toNat = 8 then ['\\', 'b']
  else if c.toNat = 12 then ['\\', 'f']
  else if c.toNat < 32 ∨ (ascii ∧ 126 < c.toNat) then escapeCode c.toNat
  else [c]

/-- A text in quotes. Halves of surrogate pairs are escaped. -/
def quote (ascii : Bool) (t : CodeText) : List Char :=
  '"' :: t.flatMap (fun
    | .char c => escapeChar ascii c
    | .half n => CodePoint.unitEscape n) ++ ['"']

/-- A floating number. -/
def floatText (x : Float) : List Char :=
  match Binary64.view x with
  | .nan => "NaN".toList
  | .infinite negative => (if negative then "-Infinity" else "Infinity").toList
  | .finite .. => (Binary64.text x).toList

mutual

/-- The text of a value on one line. -/
def compact : ReportValue → List Char
  | null => "null".toList
  | bool b => (if b then "true" else "false").toList
  | int n => (toString n).toList
  | float x => floatText x
  | text t => quote false t
  | list items => '[' :: compactItems items ++ [']']
  | table entries => '\x7b' :: compactEntries entries ++ ['\x7d']

/-- The texts of the items of a list. -/
def compactItems : List ReportValue → List Char
  | [] => []
  | [v] => compact v
  | v :: vs => compact v ++ ',' :: ' ' :: compactItems vs

/-- The texts of the entries of a table. -/
def compactEntries : List (CodeText × ReportValue) → List Char
  | [] => []
  | [(k, v)] => quote false k ++ ':' :: ' ' :: compact v
  | (k, v) :: es => quote false k ++ ':' :: ' ' :: compact v ++ ',' :: ' ' :: compactEntries es

end

/-- The start of a line at a depth. -/
def newline (depth : Nat) : List Char :=
  '\n' :: List.replicate (2 * depth) ' '

/-- Blocks between brackets, one to a line. -/
def bracket (opening closing : Char) (depth : Nat) (blocks : List (List Char)) : List Char :=
  if blocks.isEmpty then [opening, closing]
  else
    opening :: (newline (depth + 1) ++ (',' :: newline (depth + 1)).intercalate blocks)
      ++ newline depth ++ [closing]

mutual

/-- The text of a value at a depth, with one item to a line and sorted keys. -/
def indented (depth : Nat) : ReportValue → List Char
  | null => "null".toList
  | bool b => (if b then "true" else "false").toList
  | int n => (toString n).toList
  | float x => floatText x
  | text t => quote true t
  | list items => bracket '[' ']' depth (indentedItems (depth + 1) items)
  | table entries =>
    let blocks := (indentedEntries (depth + 1) entries).mergeSort fun a b =>
      a.1.map CodePoint.toNat ≤ b.1.map CodePoint.toNat
    bracket '\x7b' '\x7d' depth (blocks.map Prod.snd)

/-- The texts of the items of a list. -/
def indentedItems (depth : Nat) : List ReportValue → List (List Char)
  | [] => []
  | v :: vs => indented depth v :: indentedItems depth vs

/-- The keys and the texts of the entries of a table. -/
def indentedEntries (depth : Nat) :
    List (CodeText × ReportValue) → List (CodeText × List Char)
  | [] => []
  | (k, v) :: es => (k, quote true k ++ ':' :: ' ' :: indented depth v) :: indentedEntries depth es

end

mutual

/-- Whether all texts in a value hold characters only. -/
def isStorable : ReportValue → Bool
  | text t => CodeText.isStorable t
  | list items => areStorable items
  | table entries => areEntriesStorable entries
  | null | bool _ | int _ | float _ => true

/-- Whether all texts in the items of a list hold characters only. -/
def areStorable : List ReportValue → Bool
  | [] => true
  | v :: vs => isStorable v && areStorable vs

/-- Whether all texts in the entries of a table hold characters only. -/
def areEntriesStorable : List (CodeText × ReportValue) → Bool
  | [] => true
  | (k, v) :: es => CodeText.isStorable k && isStorable v && areEntriesStorable es

end

end ReportValue

namespace Report

open ReportValue

/-- An edit. -/
def edit (e : Edit) : ReportValue :=
  table [("span", table [("start", int e.start), ("end", int e.stop)]),
    ("replacementText", ofText e.text),
    ("proposalId", ofString e.proposal), ("kind", ofString e.kind.name)]

/-- A conflict. -/
def conflict (c : Conflict) : ReportValue :=
  let range (e : Edit) := table [("start", int e.start), ("end", int e.stop)]
  table [("path", ofString c.path),
    ("proposalIds", list [ofString c.first.proposal, ofString c.second.proposal]),
    ("spans", list [range c.first, range c.second])]

/-- A remark of a plan. -/
def entry (e : ReportEntry) : ReportValue :=
  table ([(CodeText.ofString "macroName", ofString e.macroName)]
    ++ e.reason.toList.map (fun r => (CodeText.ofString "reasonUnrewritable", ofText r))
    ++ e.warning.toList.map fun w => (CodeText.ofString "warning", ofText w))

/-- A proposal. -/
def proposal (p : Proposal) : ReportValue :=
  table [("proposalId", ofString p.id), ("macroName", ofString p.macroName),
    ("tag", ofString p.pattern.name), ("tier", ofString p.tier.name),
    ("declaration", ofText? p.declaration), ("alternatives", list (p.alternatives.map ofText)),
    ("notes", list (p.notes.map ofString)), ("reason", ofText? p.reason),
    ("edits", list (p.edits.map edit))]

/-- A plan. -/
def plan (p : EditPlan) : ReportValue :=
  table [("files",
    table (p.edits.map fun (path, es) => (CodeText.ofString path, list (es.map edit)))),
    ("conflicts", list (p.conflicts.map conflict)), ("report", list (p.report.map entry)),
    ("proposals", list (p.proposals.map proposal))]

/-- A hazard. -/
def hazard (h : Hazard) : ReportValue :=
  table [("kind", ofString h.kind), ("parameter", ofString? h.parameter?),
    ("detail", ofText h.detail)]

/-- A diagnostic. -/
def diagnostic (d : Diagnostic) : ReportValue :=
  table [("macro_name", ofString d.macroName), ("path", ofString? d.path),
    ("definition_lines", list (d.definitionLines.map ofNat)), ("tag", ofString d.pattern.name),
    ("confidence", ofString d.confidence.name), ("rationale", ofText d.rationale),
    ("disposition", ofString d.disposition.name), ("hazards", list (d.hazards.map hazard)),
    ("unit", ofString d.unit), ("proposal_id", ofString? d.proposal)]

/-- A unit that was left out. -/
def failure (f : UnitFailure) : ReportValue :=
  table [("unit", ofString f.unit), ("error_kind", ofString f.fault.kind),
    ("message", ofString f.fault.message)]

/-- The counts of a run. -/
def stats (s : RunStats) : List (CodeText × ReportValue) :=
  s.entries.map fun (k, n) => (CodeText.ofString k, ofNat n)

/-- The result of a run. -/
def run (r : Run) : ReportValue :=
  table [("edit_plan", plan r.plan), ("diagnostics", list (r.diagnostics.map diagnostic)),
    ("failures", list (r.failures.map failure)), ("stats", table (stats r.stats))]

/-- The text of a run report. -/
def document (plan diagnostics stats runId : ReportValue) (time : String) : String :=
  String.ofList (indented 0 (table [("run_id", runId), ("timestamp_utc", ofString time),
    ("edit_plan", plan), ("diagnostics", diagnostics), ("stats", stats)]))

/-- Diagnostics one to a line; nothing if a text among them cannot be stored. -/
def lines? (diagnostics : List ReportValue) : Option String :=
  if areStorable diagnostics then
    some (String.ofList (diagnostics.flatMap fun d => compact d ++ ['\n']))
  else none

/-- The path of the report of a run. -/
def path (directory runId : String) : String :=
  Path.join directory (runId ++ ".json")

/-- The identifier under which a run is reported: the one that was set, or else `local`. -/
def nameOf (runId : Option String) : String :=
  match runId with
  | some id => if id.isEmpty || id == "-" then "local" else id
  | none => "local"

/-- The counts of a run with the units that were left out. -/
def statsOf (r : Run) : ReportValue :=
  table (stats r.stats ++ [(CodeText.ofString "failures", list (r.failures.map failure))])

end Report

end Demacro
