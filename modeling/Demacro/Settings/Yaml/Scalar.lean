import Demacro.Settings.Json
import Demacro.Settings.Yaml.Cursor

/-!
Scalars of YAML files. A quoted scalar is a text. A plain scalar is a text too, unless it is spelled
like a number, a truth value or null.
-/

namespace Demacro.Settings.Yaml

/-- A word in small letters, with a capital, and in capitals. -/
def spellings (word : String) : List String :=
  let cs := word.toList
  [word, String.ofList (cs.take 1 |>.map Char.toUpper) ++ String.ofList (cs.drop 1),
    String.ofList (cs.map Char.toUpper)]

/-- The words that are values. The empty scalar is null. -/
def words : List (String × SettingValue) :=
  ["", "~"].map (·, .null) ++ (spellings "null").map (·, .null)
    ++ (["yes", "true", "on"].flatMap spellings).map (·, .bool true)
    ++ (["no", "false", "off"].flatMap spellings).map (·, .bool false)

/-- A sign at the front, true for minus, and what is left. -/
def sign : List Char → Bool × List Char
  | '-' :: cs => (true, cs)
  | '+' :: cs => (false, cs)
  | cs => (false, cs)

/-- The value of digits in a base, among which underscores are skipped; nothing if the text is
anything else. Underscores alone stand for no number, and too many decimal digits cannot be read. -/
def digits? (base : Nat) (cs : List Char) : Option (Except ValueFault Nat) :=
  let ds := cs.filter (· != '_')
  let value := ds.foldlM (fun n d => (Json.hexValue? d).bind fun v =>
    if v < base then some (n * base + v) else none) 0
  if cs.isEmpty then none
  else
    value.map fun n =>
      if ds.isEmpty then .error .emptyInteger
      else if base = 10 ∧ Numeral.maxDigits < ds.length then .error (.longInteger ds.length)
      else .ok n

/-- The value of a part of a number in base sixty behind its first one. -/
def minute? (cs : List Char) : Option Nat :=
  match cs with
  | [_] | [_, _] =>
    if cs.all Char.isDigit then some (Json.digitsValue cs) |>.filter (· < 60) else none
  | _ => none

/-- A whole number without a sign: decimal, binary behind `0b`, octal behind a zero, hexadecimal
behind `0x`, or in base sixty with colons. -/
def natural? (cs : List Char) : Option (Except ValueFault Nat) :=
  match cs with
  | '0' :: 'b' :: ds => digits? 2 ds
  | '0' :: 'x' :: ds => digits? 16 ds
  | '0' :: ds => digits? 8 ('0' :: ds)
  | '_' :: _ => none
  | _ =>
    match cs.splitOn ':' with
    | [ds] => digits? 10 ds
    | ds :: minutes =>
      match digits? 10 ds, minutes.mapM minute? with
      | some first, some parts =>
          some (first.map fun n => parts.foldl (fun n part => n * 60 + part) n)
      | _, _ => none
    | [] => none

/-- The exponent of a number with a point; its sign must be written. -/
def exponent? : List Char → Option Int
  | [] => some 0
  | e :: s :: ds =>
    if (e = 'e' ∨ e = 'E') ∧ (s = '+' ∨ s = '-') ∧ !ds.isEmpty ∧ ds.all Char.isDigit then
      some (if s = '-' then -(Json.digitsValue ds : Int) else Json.digitsValue ds)
    else none
  | _ => none

/-- A number with a point. Digits may be missing on one side of it. -/
def fraction? (negative signed : Bool) (cs : List Char) : Option Float :=
  let isPlace (c : Char) : Bool := c.isDigit || c == '_'
  let whole := cs.takeWhile isPlace
  match cs.drop whole.length with
  | '.' :: rest =>
    let places := rest.takeWhile isPlace
    let leading := if whole.isEmpty then places else whole
    if (leading.head?.any Char.isDigit) && !(whole.isEmpty && signed) then
      (exponent? (rest.drop places.length)).map fun e =>
        let digits (ds : List Char) := ds.filter (· != '_')
        let x := Binary64.ofScaled 10 (Json.digitsValue (digits (whole ++ places)))
          (e - (digits places).length)
        if negative then -x else x
    else none
  | _ => none

/-- An infinity, or the value that is no number. -/
def special? (negative signed : Bool) (word : String) : Option Float :=
  if [".inf", ".Inf", ".INF"].contains word then
    some (Float.ofBits (if negative then 0xfff0000000000000 else 0x7ff0000000000000))
  else if [".nan", ".NaN", ".NAN"].contains word && !signed then
    some (Float.ofBits 0x7ff8000000000000)
  else none

/-- The value that a plain scalar stands for. The signs of a merged table and of a default value are
no values on their own. -/
def ofPlain (cs : List Char) : Except ValueFault SettingValue :=
  let word := String.ofList cs
  let (negative, body) := sign cs
  let signed := body.length < cs.length
  if word = "=" ∨ word = "<<" then .error .malformed
  else
    match words.lookup word with
    | some v => .ok v
    | none =>
      match natural? body with
      | some value => value.map fun n => .int (if negative then -(n : Int) else n)
      | none =>
        match fraction? negative signed body, special? negative signed (String.ofList body) with
        | some x, _ => .ok (.float x)
        | none, some x => .ok (.float x)
        | none, none => .ok (.text word)

/-- Whether a plain scalar may start with a character, given the one behind it. -/
def startsPlain (inFlow : Bool) (c : Char) (next : Option Char) : Bool :=
  if c = '-' then !isGap next
  else if c = '?' ∨ c = ':' then !inFlow && !isGap next
  else !isGap (some c) && !",[]\x7b\x7d#&*!|>'\"%@\x60".toList.contains c

/-- Whether a plain scalar ends before a character, given the one behind it. A colon ends it in
front of a gap, and brackets, braces, commas and question marks end it inside a list or table in
brackets. -/
def endsPlain (inFlow : Bool) (c : Char) (next : Option Char) : Bool :=
  isGap (some c)
    || (c == ':' && (isGap next || (inFlow && next.any fun n => ",[]\x7b\x7d".toList.contains n)))
    || (inFlow && ",?[]\x7b\x7d".toList.contains c)

/-- The characters of a plain scalar up to the next gap. -/
def plainWord (inFlow : Bool) : List Char → List Char
  | [] => []
  | c :: cs => if endsPlain inFlow c cs.head? then [] else c :: plainWord inFlow cs

/-- The text of a plain scalar, and the place behind its last character. It goes on over the ends of
lines as long as the next word stands at the column `floor` or behind it; inside brackets the column
does not count. -/
def plain (inFlow : Bool) (floor : Nat) : Nat → Cursor → List Char × Cursor
  | 0, c => ([], c)
  | fuel + 1, c =>
    let word := plainWord inFlow c.rest
    let stop := c.forward word.length
    if word.isEmpty then ([], c)
    else
      match stop.fold (· == ' ') with
      | none => (word, stop)
      | some (gap, next) =>
        if gap.isEmpty || next.rest.head? == some '#' || (!inFlow && next.column < floor) then
          (word, stop)
        else
          match plain inFlow floor fuel next with
          | ([], _) => (word, stop)
          | (more, last) => (word ++ gap ++ more, last)

/-- The escapes of one letter. -/
def escapes : List (Char × Char) :=
  [('0', '\x00'), ('a', '\x07'), ('b', '\x08'), ('t', '\t'), ('\t', '\t'), ('n', '\n'),
    ('v', '\x0b'), ('f', '\x0c'), ('r', '\r'), ('e', '\x1b'), (' ', ' '), ('"', '"'),
    ('\\', '\\'), ('/', '/'), ('N', '\x85'), ('_', '\xa0'), ('L', '\u2028'), ('P', '\u2029')]

/-- The numbers of hexadecimal digits of the escapes by code point. -/
def codeEscapes : List (Char × Nat) :=
  [('x', 2), ('u', 4), ('U', 8)]

/-- The code point written in `size` hexadecimal digits. -/
def codePoint (size : Nat) (cs : List Char) : Except ValueFault CodePoint := do
  let values ← ValueFault.orMalformed ((cs.take size).mapM Json.hexValue?)
  if values.length < size then throw .malformed
  let n := values.foldl (fun n d => n * 16 + d) 0
  if 0x80000000 ≤ n then throw .codePointOverflow
  else if 0x10ffff < n then throw .codePointTooLarge
  else if 0xd800 ≤ n ∧ n < 0xe000 then return .half n
  else return .char (Char.ofNat n)

/-- A character between words inside quotes. -/
def isBlankInQuotes (c : Char) : Bool :=
  c == ' ' || c == '\t'

/-- The text up to a closing double quote, and the place behind the quote. -/
def doubleQuoted : Nat → Cursor → Except ValueFault (CodeText × Cursor)
  | 0, _ => .error .malformed
  | fuel + 1, c =>
    match c.rest with
    | [] => .error .malformed
    | '"' :: _ => .ok ([], c.forward 1)
    | '\\' :: e :: cs =>
      if isBreak e then do
        let (lines, next) ← ValueFault.orMalformed
          ((c.forward 1).nextLine.emptyLines isBlankInQuotes (cs.length + 1))
        let (text, last) ← doubleQuoted fuel next
        return (lines.map .char ++ text, last)
      else
        match escapes.lookup e with
        | some d => (doubleQuoted fuel (c.forward 2)).map fun (text, last) => (.char d :: text,
            last)
        | none => do
          let size ← ValueFault.orMalformed (codeEscapes.lookup e)
          let d ← codePoint size cs
          let (text, last) ← doubleQuoted fuel (c.forward (2 + size))
          return (d :: text, last)
    | d :: _ =>
      if isGap (some d) then do
        let (gap, next) ← ValueFault.orMalformed (c.fold isBlankInQuotes)
        let (text, last) ← doubleQuoted fuel next
        return (gap.map .char ++ text, last)
      else (doubleQuoted fuel (c.forward 1)).map fun (text, last) => (.char d :: text, last)

/-- The text up to a closing single quote, and the place behind the quote. Two quotes stand for
one. -/
def singleQuoted : Nat → Cursor → Option (List Char × Cursor)
  | 0, _ => none
  | fuel + 1, c =>
    match c.rest with
    | [] => none
    | '\'' :: '\'' :: _ =>
      (singleQuoted fuel (c.forward 2)).map fun (text, last) => ('\'' :: text, last)
    | '\'' :: _ => some ([], c.forward 1)
    | d :: _ =>
      if isGap (some d) then do
        let (gap, next) ← c.fold isBlankInQuotes
        let (text, last) ← singleQuoted fuel next
        return (gap ++ text, last)
      else (singleQuoted fuel (c.forward 1)).map fun (text, last) => (d :: text, last)

/-- A scalar as it is read off: its value, or why it has none although its text is well formed. -/
abbrev Scalar := Except ValueFault SettingValue

/-- The scalar at a place, and the place behind it. -/
def scalar (inFlow : Bool) (floor : Nat) (c : Cursor) : Except ValueFault (Scalar × Cursor) :=
  match c.rest with
  | [] => .error .malformed
  | '"' :: cs =>
    (doubleQuoted (cs.length + 1) (c.forward 1)).map fun (text, last) => (.ok (.text text), last)
  | '\'' :: cs =>
    match singleQuoted (cs.length + 1) (c.forward 1) with
    | some (text, last) => .ok (.ok (.text (text.map .char)), last)
    | none => .error .malformed
  | d :: cs =>
    if startsPlain inFlow d cs.head? then
      let (word, last) := plain inFlow floor (cs.length + 1) c
      .ok (ofPlain word, last)
    else .error .malformed

end Demacro.Settings.Yaml
