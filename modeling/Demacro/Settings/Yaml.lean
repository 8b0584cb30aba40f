import Demacro.Settings.Yaml.Scalar
import Demacro.Unicode.Ranges

/-!
Settings files in YAML: one document of scalars, lists and tables, in block form, where the columns
show what belongs together, and in brackets. References, tags, literal blocks, directives and keys
that are not scalars are refused, and with the tags byte strings and sets; a date is read as a text.
-/

namespace Demacro.Settings.Yaml

/-- The characters that may stand in a file. -/
def printableRanges : List (Nat × Nat) := [
  (0x9, 0xa), (0xd, 0xd), (0x20, 0x7e), (0x85, 0x85), (0xa0, 0xd7ff), (0xe000, 0xfffd),
  (0x10000, 0x10ffff)]

/-- The most characters between the start of a key and its colon. -/
def maxKeyLength : Nat := 1024

/-- The place behind the colon of a key that starts at `start` and ends at `stop`. Both are on one
line. -/
def behindColon? (inFlow : Bool) (start stop : Cursor) : Option Cursor :=
  let c := stop.skipSpaces
  if c.rest.head? == some ':' && (inFlow || isGap c.rest[1]?) && c.line == start.line
      && c.column - start.column ≤ maxKeyLength then some (c.forward 1)
  else none

/-- What a document holds. The values of its scalars are asked for when all of it is known to be
well formed. -/
inductive Node where
  | scalar (value : Scalar)
  | list (items : List Node)
  | table (entries : List (Scalar × Node))

namespace Node

/-- The node of a scalar without text. -/
def null : Node :=
  scalar (.ok .null)

/-- A node as a key: only scalars are keys. -/
def key : Node → Except ValueFault Scalar
  | scalar v => .ok v
  | list _ | table _ => .error .malformed

mutual

/-- The value of a node. -/
def value : Node → Except ValueFault SettingValue
  | scalar v => v
  | list items => (values items).map .list
  | table entries => (valueEntries entries).map fun es => .table (SettingValue.ofEntries es)

/-- The values of the items of a list. -/
def values : List Node → Except ValueFault (List SettingValue)
  | [] => .ok []
  | n :: ns => do return (← value n) :: (← values ns)

/-- The entries of a table. -/
def valueEntries : List (Scalar × Node) → Except ValueFault (List (SettingValue × SettingValue))
  | [] => .ok []
  | (k, n) :: es => do return (← k, ← value n) :: (← valueEntries es)

end

end Node

mutual

/-- The value inside brackets at a place that holds something, and the place behind it. -/
def flowValue : Nat → Cursor → Except ValueFault (Node × Cursor)
  | 0, _ => .error .malformed
  | fuel + 1, c =>
    if c.isAtEnd then .error .malformed
    else
      match c.rest with
      | '[' :: _ =>
        (flowItems fuel (c.forward 1).skip).map fun (ns, last) => (.list ns, last)
      | '{' :: _ =>
        (flowEntries fuel (c.forward 1).skip).map fun (es, last) => (.table es, last)
      | _ => (scalar true 0 c).map fun (v, last) => (.scalar v, last)

/-- A value inside brackets, and the value behind its colon if it is a key. A colon with nothing
behind it is followed by null. -/
def flowPair : Nat → Cursor → Except ValueFault ((Node × Option Node) × Cursor)
  | 0, _ => .error .malformed
  | fuel + 1, c => do
    let (n, stop) ← flowValue fuel c
    match behindColon? true c stop with
    | none => return ((n, none), stop)
    | some next =>
      let next := next.skip
      if next.rest.head?.any fun d => d == ',' || d == ']' || d == '}' then
        return ((n, some .null), next)
      else
        let (m, stop) ← flowValue fuel next
        return ((n, some m), stop)

/-- The items of a list up to its closing bracket. A pair is a table of its own. -/
def flowItems : Nat → Cursor → Except ValueFault (List Node × Cursor)
  | 0, _ => .error .malformed
  | fuel + 1, c =>
    if c.rest.head? == some ']' then .ok ([], c.forward 1)
    else do
      let (pair, stop) ← flowPair fuel c
      let item ←
        match pair with
        | (n, none) => pure n
        | (n, some m) => do pure (.table [(← n.key, m)])
      let stop := stop.skip
      match stop.rest.head? with
      | some ']' => return ([item], stop.forward 1)
      | some ',' =>
        let (items, last) ← flowItems fuel (stop.forward 1).skip
        return (item :: items, last)
      | _ => throw .malformed

/-- The entries of a table up to its closing brace. A key may stand without a value. -/
def flowEntries : Nat → Cursor → Except ValueFault (List (Scalar × Node) × Cursor)
  | 0, _ => .error .malformed
  | fuel + 1, c =>
    if c.rest.head? == some '}' then .ok ([], c.forward 1)
    else do
      let ((n, m), stop) ← flowPair fuel c
      let entry := (← n.key, m.getD .null)
      let stop := stop.skip
      match stop.rest.head? with
      | some '}' => return ([entry], stop.forward 1)
      | some ',' =>
        let (entries, last) ← flowEntries fuel (stop.forward 1).skip
        return (entry :: entries, last)
      | _ => throw .malformed

end

mutual

/-- The value at the next place that holds something, and the place behind it. It stands at the
column `floor` or behind it, else there is none and the value is null. Lists and tables in block
form start only where `fresh` holds: behind the end of a line or the dash of a list. -/
def blockValue (floor : Nat) (fresh : Bool) : Nat → Cursor → Except ValueFault (Node × Cursor)
  | 0, _ => .error .malformed
  | fuel + 1, c =>
    if c.isAtEnd || c.column < floor then .ok (.null, c)
    else if c.isAtDash then
      if fresh then (blockItems c.column fuel c).map fun (ns, last) => (.list ns, last)
      else .error .malformed
    else if c.rest.head?.any fun d => d == '[' || d == '{' then flowValue (2 * c.rest.length + 2) c
    else do
      let (v, stop) ← scalar false floor c
      match if fresh then behindColon? false c stop else none with
      | none => return (.scalar v, stop)
      | some next =>
        let (es, last) ← blockEntries c.column v fuel next
        return (.table es, last)

/-- The items of a list whose dashes stand at a column, from one of its dashes on. -/
def blockItems (column : Nat) : Nat → Cursor → Except ValueFault (List Node × Cursor)
  | 0, _ => .error .malformed
  | fuel + 1, c => do
    let (item, stop) ← blockValue (column + 1) true fuel (c.forward 1).skip
    let next := stop.skip
    if !next.isAtEnd && next.column == column && next.isAtDash then
      let (items, last) ← blockItems column fuel next
      return (item :: items, last)
    else return ([item], next)

/-- The entries of a table whose keys stand at a column, from behind the colon of the key `key` on.
The dashes of a list that is a value may stand at the column of the keys. -/
def blockEntries (column : Nat) (key : Scalar) :
    Nat → Cursor → Except ValueFault (List (Scalar × Node) × Cursor)
  | 0, _ => .error .malformed
  | fuel + 1, c => do
    let start := c.skip
    let fresh := start.line != c.line
    let (n, stop) ←
      if fresh && start.column == column && !start.isAtEnd && start.isAtDash then
        (blockItems column fuel start).map fun (ns, last) => (Node.list ns, last)
      else blockValue (column + 1) fresh fuel start
    let next := stop.skip
    if next.isAtEnd || next.column < column then return ([(key, n)], next)
    else if next.column > column then throw .malformed
    else
      let (nextKey, stop) ← scalar false (column + 1) next
      let behind ← ValueFault.orMalformed (behindColon? false next stop)
      let (entries, last) ← blockEntries column nextKey fuel behind
      return ((key, n) :: entries, last)

end

/-- Whether nothing but ends of documents is left. -/
def isFinished : Nat → Cursor → Bool
  | 0, _ => false
  | fuel + 1, c =>
    let c := c.skip
    c.rest.isEmpty || (c.isAtStop && isFinished fuel (c.forward 3))

/-- The document that starts at a place, and the place behind it. A line that starts a document
explicitly may hold a scalar or a value in brackets. -/
def document (fuel : Nat) (c : Cursor) : Except ValueFault (Node × Cursor) :=
  if c.rest.isEmpty then .ok (.null, c)
  else if c.isAtStop then .error .malformed
  else if c.isAtStart then
    let start := (c.forward 3).skip
    blockValue 0 (start.line != c.line) fuel start
  else blockValue 0 true fuel c

/-- The value that a text holds, as the safe loader of PyYAML reads it, but for what is refused or
left out (dates are texts). The text must hold one document and nothing else. A text without a
document is null, and a byte order mark at the front counts for nothing. Each colon, dash and
bracket takes two steps at most, so the length of the text bounds their number. -/
def parse (s : String) : Except ValueFault SettingValue := do
  let text := s.toList
  let body := if text.head? = some '\ufeff' then text.drop 1 else text
  if text.all fun c => Unicode.inRanges printableRanges c.toNat then
    let (n, last) ← document (4 * body.length + 4) (Cursor.ofText body).skip
    if isFinished (body.length + 1) last then n.value else throw .malformed
  else throw .malformed

end Demacro.Settings.Yaml
