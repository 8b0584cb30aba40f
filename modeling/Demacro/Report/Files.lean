import Demacro.FileTree
import Demacro.Report

/-!
Writing of reports to files. The report of a run and the list of its diagnostics go to files of
their own; the directories on the way to them are made first. The faults that stop the writing come
in the order in which the steps are taken.
-/

namespace Demacro

/-- Why a value does not say what is in a table. -/
inductive TableFault where
  | notIterable (typeName : String)
  /-- The item with an index is no pair and no sequence at all. -/
  | notSequence (index : Nat)
  /-- The item with an index is a sequence, but no pair. -/
  | notPair (index length : Nat)
  /-- The first part of a pair cannot be a key. -/
  | notKey (typeName : String)

namespace TableFault

/-- The name of the kind of a fault. -/
def kind : TableFault → String
  | notPair .. => "ValueError"
  | notIterable _ | notSequence _ | notKey _ => "TypeError"

/-- A fault in words. -/
def message : TableFault → String
  | notIterable typeName => "'" ++ typeName ++ "' object is not iterable"
  | notSequence index =>
    "cannot convert dictionary update sequence element #" ++ toString index ++ " to a sequence"
  | notPair index length =>
    "dictionary update sequence element #" ++ toString index ++ " has length " ++ toString length
      ++ "; 2 is required"
  | notKey typeName => "unhashable type: '" ++ typeName ++ "'"

end TableFault

namespace ReportValue

/-- The name of a value's type. -/
def typeName : ReportValue → String
  | null => "NoneType"
  | bool _ => "bool"
  | int _ => "int"
  | float _ => "float"
  | text _ => "str"
  | list _ => "list"
  | table _ => "dict"

/-- Whether a value counts as nothing. -/
def isNothing : ReportValue → Bool
  | null => true
  | bool b => !b
  | int n => n == 0
  | float x => x == 0
  | text t => t.isEmpty
  | list items => items.isEmpty
  | table entries => entries.isEmpty

/-- What a value is made of: the items of a list, the keys of a table, the characters of a text. -/
def parts (v : ReportValue) : Except TableFault (List ReportValue) :=
  match v with
  | list items => .ok items
  | table entries => .ok (entries.map fun (k, _) => text k)
  | text t => .ok (t.map fun c => text [c])
  | null | bool _ | int _ | float _ => .error (.notIterable v.typeName)

/-- A value as a key. -/
def key (v : ReportValue) : Except TableFault CodeText :=
  match v with
  | text t => .ok t
  | list _ | table _ => .error (.notKey v.typeName)
  | null | bool _ | int _ | float _ => .ok ((compact v).map .char)

/-- The entries that pairs lead to, of which later ones win. `index` is that of the first. -/
def entriesOf (index : Nat) (done : List (CodeText × ReportValue)) :
    List ReportValue → Except TableFault (List (CodeText × ReportValue))
  | [] => .ok done
  | v :: vs =>
    match v.parts with
    | .error _ => .error (.notSequence index)
    | .ok [k, w] => do entriesOf (index + 1) (setKey (← k.key) w done) vs
    | .ok parts => .error (.notPair index parts.length)

/-- The value as a table: it is one, or it lists pairs, or it counts as nothing. -/
def asTable (v : ReportValue) : Except TableFault ReportValue :=
  if v.isNothing then .ok (table [])
  else
    match v with
    | table entries => .ok (table entries)
    | v => do return table (← entriesOf 0 [] (← v.parts))

end ReportValue

namespace Report

/-- Why a report cannot be written. -/
inductive WriteFault where
  | access (fault : AccessFault)
  | notTable (fault : TableFault)
  /-- A text holds a half of a surrogate pair. -/
  | unstorable

namespace WriteFault

/-- The name of the kind of a fault. -/
def kind : WriteFault → String
  | access fault => fault.kind
  | notTable fault => fault.kind
  | unstorable => "UnicodeEncodeError"

/-- A fault in words; nothing where the kind says it all. -/
def message? : WriteFault → Option String
  | access fault => fault.message?
  | notTable fault => some fault.message
  | unstorable => none

end WriteFault

/-- Writes the report of a run into a directory. -/
def writeDocument (t : FileTree) (directory name : String)
    (plan diagnostics stats runId : ReportValue) (time : String) : Except WriteFault FileTree := do
  let t ← (t.makeDirectories directory).mapError .access
  let counts ← stats.asTable.mapError .notTable
  let text := document plan diagnostics counts runId time
  (t.write (path directory name) text.toUTF8.toList).mapError .access

/-- Writes diagnostics one to a line, and gives their number. -/
def writeLines (t : FileTree) (file : String) (diagnostics : ReportValue) :
    Except WriteFault (FileTree × Nat) := do
  let t ← (t.makeDirectories (Path.directory (t.absolute file))).mapError .access
  let t ← (t.write file []).mapError .access
  let items ← diagnostics.parts.mapError .notTable
  match lines? items with
  | some text => return (← (t.write file text.toUTF8.toList).mapError .access, items.length)
  | none => throw .unstorable

/-- The path of the list of diagnostics of a run. -/
def linesPath (directory name : String) : String :=
  Path.join directory (name ++ ".diagnostics.jsonl")

/-- Writes the report of a run and the list of its diagnostics into a directory. -/
def writeRun (t : FileTree) (directory name : String) (r : Run) (time : String) :
    Except WriteFault FileTree := do
  let diagnostics := ReportValue.list (r.diagnostics.map diagnostic)
  let t ← writeDocument t directory name (plan r.plan) diagnostics (statsOf r)
    (ReportValue.ofString name) time
  return (← writeLines t (linesPath directory name) diagnostics).1

end Report

end Demacro
