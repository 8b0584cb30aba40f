/-!
Places in the text of a YAML file. Indentation carries meaning there, so a place knows its line and
its column. A comment runs from a number sign to the end of its line.
-/

namespace Demacro.Settings.Yaml

/-- A place in a text: what is left of the text there, the line and the column. -/
structure Cursor where
  rest : List Char
  line : Nat
  column : Nat

/-- A character that ends a line. -/
def isBreak (c : Char) : Bool :=
  c == '\n' || c == '\r' || c == '\x85' || c == '\u2028' || c == '\u2029'

/-- What an end of a line counts as inside a text: the two separators of Unicode stay themselves. -/
def breakText (c : Char) : Char :=
  if c = '\u2028' ∨ c = '\u2029' then c else '\n'

/-- A character that ends a line or stands between words; the end of the text counts as one. -/
def isGap : Option Char → Bool
  | none => true
  | some c => c == ' ' || c == '\t' || isBreak c

namespace Cursor

/-- The start of a text. -/
def ofText (text : List Char) : Cursor :=
  ⟨text, 0, 0⟩

/-- The place `n` characters further on the same line. -/
def forward (c : Cursor) (n : Nat) : Cursor :=
  { c with rest := c.rest.drop n, column := c.column + n }

/-- The start of the next line, from the end of a line. -/
def nextLine (c : Cursor) : Cursor :=
  ⟨c.rest.drop 1, c.line + 1, 0⟩

/-- Whether a line starts here that holds a marker, three characters that stand alone. -/
def isAtMarker (c : Cursor) (marker : String) : Bool :=
  c.column == 0 && marker.toList.isPrefixOf c.rest && isGap c.rest[3]?

/-- Whether a document starts here. -/
def isAtStart (c : Cursor) : Bool :=
  c.isAtMarker "---"

/-- Whether a document ends here explicitly. -/
def isAtStop (c : Cursor) : Bool :=
  c.isAtMarker "..."

/-- Whether nothing of the current document is left. -/
def isAtEnd (c : Cursor) : Bool :=
  c.rest.isEmpty || c.isAtStart || c.isAtStop

/-- Whether an entry of a list starts here: a dash that stands alone. -/
def isAtDash (c : Cursor) : Bool :=
  c.rest.head? == some '-' && isGap c.rest[1]?

/-- The place of the next character that is no space, end of a line or part of a comment. -/
def skipFrom (inComment : Bool) (line column : Nat) : List Char → Cursor
  | [] => ⟨[], line, column⟩
  | c :: cs =>
    if isBreak c then skipFrom false (line + 1) 0 cs
    else if inComment || c == '#' then skipFrom true line (column + 1) cs
    else if c == ' ' then skipFrom false line (column + 1) cs
    else ⟨c :: cs, line, column⟩

/-- The next place that holds something. -/
def skip (c : Cursor) : Cursor :=
  skipFrom false c.line c.column c.rest

/-- The next place on the same line that is no space. -/
def skipSpaces (c : Cursor) : Cursor :=
  c.forward (c.rest.takeWhile (· == ' ')).length

/-- The ends of further lines that hold nothing but characters in `blank`, and the place behind
them; nothing if a document starts or ends on the way. The place must be the start of a line. -/
def emptyLines (blank : Char → Bool) : Nat → Cursor → Option (List Char × Cursor)
  | 0, _ => none
  | fuel + 1, c =>
    if c.isAtStart || c.isAtStop then none
    else
      let c := c.forward (c.rest.takeWhile blank).length
      match c.rest with
      | b :: _ =>
        if isBreak b then
          (emptyLines blank fuel c.nextLine).map fun (bs, c) => (breakText b :: bs, c)
        else some ([], c)
      | [] => some ([], c)

/-- The text that a row of characters in `blank` stands for inside a scalar, and the place behind
it. A single end of a line is a space, and of several the first is dropped. -/
def fold (blank : Char → Bool) (c : Cursor) : Option (List Char × Cursor) :=
  let row := c.rest.takeWhile blank
  let next := c.forward row.length
  match next.rest with
  | b :: _ =>
    if isBreak b then
      (emptyLines blank (next.rest.length + 1) next.nextLine).map fun (bs, c) =>
        (if breakText b != '\n' then breakText b :: bs else if bs.isEmpty then [' '] else bs, c)
    else some (row, next)
  | [] => some (row, next)

end Cursor

end Demacro.Settings.Yaml
