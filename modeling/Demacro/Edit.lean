import Demacro.Sorting
import Demacro.Text

/-!
Text edits and what it means to carry them out. Edits that overlap are refused; all others are made
at once, so none of them moves another.
-/

namespace Demacro

/-- A range of characters of one file. -/
structure Extent where
  path : String
  start : Int
  stop : Int
deriving DecidableEq

namespace Extent

/-- Whether the range holds no character. -/
def isEmpty (x : Extent) : Bool :=
  x.start == x.stop

/-- Whether two ranges share a character. An empty range collides only with itself. -/
def overlaps (x y : Extent) : Bool :=
  x.path == y.path &&
    if x.isEmpty || y.isEmpty then x.start == y.start && x.stop == y.stop
    else x.start < y.stop && y.start < x.stop

/-- The order by path, then by start, then by end. -/
def isBefore (x y : Extent) : Bool :=
  x.path < y.path
    || (x.path == y.path && (x.start < y.start || (x.start == y.start && x.stop < y.stop)))

end Extent

/-- The kinds of edits. -/
inductive EditKind where
  | replace
  | delete
  /-- The text is added at the end of the file; the range means nothing. -/
  | append
deriving DecidableEq

namespace EditKind

/-- The name of a kind. -/
def name : EditKind → String
  | replace => "replace"
  | delete => "delete"
  | append => "append"

/-- All kinds. -/
def all : List EditKind := [replace, delete, append]

/-- The kind with a name. -/
def ofName? (name : String) : Option EditKind :=
  all.find? (·.name == name)

end EditKind

/-- A change of one file, made for a proposal. -/
structure Edit extends Extent where
  text : Text
  proposal : String
  kind : EditKind := .replace
deriving DecidableEq

namespace Edit

/-- Whether the text is added at the end of the file. -/
def isAppend (e : Edit) : Bool :=
  e.kind == .append

/-- Whether two edits change a file in the same way, for whatever proposals. -/
def sameChange (d e : Edit) : Bool :=
  d.toExtent == e.toExtent && d.text == e.text && d.kind == e.kind

/-- Whether two edits cannot both be made. An insertion collides with an insertion at the same place
and with a change of the characters on both sides of it. -/
def overlaps (d e : Edit) : Bool :=
  d.path == e.path && !d.isAppend && !e.isAppend &&
    if d.isEmpty then
      if e.isEmpty then d.start == e.start else e.start < d.start && d.start < e.stop
    else if e.isEmpty then d.start < e.start && e.start < d.stop
    else d.start < e.stop && e.start < d.stop

/-- The order of edits: by path, additions at the end last, then by start, then by end. -/
def isBefore (d e : Edit) : Bool :=
  d.path < e.path
    || (d.path == e.path && ((!d.isAppend && e.isAppend) ||
      (d.isAppend == e.isAppend && (d.start < e.start || (d.start == e.start && d.stop < e.stop)))))

/-- Edits in order. Edits with equal places keep the order that they had. -/
def sorted (edits : List Edit) : List Edit :=
  Sorting.sort (fun d e => !e.isBefore d) edits

/-- The index that an offset stands for in a text of `length` characters: negative offsets count
from the end, and offsets outside stand for the nearest end. -/
def index (length : Nat) (offset : Int) : Nat :=
  if offset < 0 then (offset + length).toNat else min offset.toNat length

/-- The text with the range of an edit replaced. -/
def splice (t : Text) (e : Edit) : Text :=
  t.take (index t.length e.start) ++ e.text ++ t.drop (index t.length e.stop)

/-- The first edit that overlaps the one in front of it. -/
def firstCollision? : List Edit → Option Edit
  | d :: e :: es => if d.overlaps e then some e else firstCollision? (e :: es)
  | _ => none

/-- The text with edits carried out, or an edit that overlaps another. Edits are made from the last
to the first, so that the places of the others stay valid. -/
def applyAll (t : Text) (edits : List Edit) : Except Edit Text :=
  let ordered := sorted edits
  let inner := ordered.filter (!·.isAppend)
  match firstCollision? inner with
  | some e => .error e
  | none =>
    .ok (inner.reverse.foldl splice t ++ (ordered.filter isAppend).flatMap (·.text))

/-- What is said about an edit that overlaps another. -/
def collisionMessage (e : Edit) : String :=
  "Overlapping edits at " ++ toString e.start ++ " in " ++ e.path

end Edit

end Demacro
