import Demacro.Settings.Value

/-!
Settings files in JSON. Beside the standard's grammar the words `NaN`, `Infinity` and `-Infinity`
stand for numbers, and of two entries with one key the later wins.
-/

namespace Demacro.Settings.Json

/-- What is left behind white space. -/
def skipSpace : List Char → List Char :=
  List.dropWhile fun c => c == ' ' || c == '\t' || c == '\n' || c == '\r'

/-- What is left behind a fixed text at the front. -/
def behind? (word : String) (cs : List Char) : Option (List Char) :=
  if word.toList.isPrefixOf cs then some (cs.drop word.length) else none

/-- The value of a hexadecimal digit. -/
def hexValue? (c : Char) : Option Nat :=
  if c.isDigit then some (c.toNat - 48)
  else if 'a' ≤ c ∧ c ≤ 'f' then some (c.toNat - 87)
  else if 'A' ≤ c ∧ c ≤ 'F' then some (c.toNat - 55)
  else none

/-- The number of four hexadecimal digits at the front, and what is left. -/
def unit? : List Char → Option (Nat × List Char)
  | a :: b :: c :: d :: cs =>
    match hexValue? a, hexValue? b, hexValue? c, hexValue? d with
    | some a, some b, some c, some d => some (((a * 16 + b) * 16 + c) * 16 + d, cs)
    | _, _, _, _ => none
  | _ => none

/-- The second half of a surrogate pair at the front, and what is left. -/
def lowSurrogate? : List Char → Option (Nat × List Char)
  | '\\' :: 'u' :: cs => (unit? cs).filter fun (n, _) => 0xdc00 ≤ n && n < 0xe000
  | _ => none

/-- The code point of an escape behind its `\u`, and what is left. Two halves of a surrogate pair
make one character. -/
def codeEscape? (cs : List Char) : Option (CodePoint × List Char) :=
  match unit? cs with
  | none => none
  | some (n, rest) =>
    if 0xd800 ≤ n ∧ n < 0xdc00 then
      match lowSurrogate? rest with
      | some (m, rest) =>
        some (.char (Char.ofNat (0x10000 + (n - 0xd800) * 0x400 + (m - 0xdc00))), rest)
      | none => some (.half n, rest)
    else if 0xdc00 ≤ n ∧ n < 0xe000 then some (.half n, rest)
    else some (.char (Char.ofNat n), rest)

/-- The escapes of one letter. -/
def escapes : List (Char × Char) :=
  [('"', '"'), ('\\', '\\'), ('/', '/'), ('b', '\x08'), ('f', '\x0c'), ('n', '\n'), ('r', '\r'),
    ('t', '\t')]

/-- The text up to the closing quote, and what is left. -/
def string? : Nat → List Char → Option (CodeText × List Char)
  | 0, _ => none
  | fuel + 1, cs =>
    match cs with
    | [] => none
    | '"' :: rest => some ([], rest)
    | '\\' :: 'u' :: rest =>
      match codeEscape? rest with
      | some (c, rest) => (string? fuel rest).map fun (s, r) => (c :: s, r)
      | none => none
    | '\\' :: e :: rest =>
      match escapes.lookup e with
      | some c => (string? fuel rest).map fun (s, r) => (.char c :: s, r)
      | none => none
    | c :: rest =>
      if c.toNat < 0x20 ∨ c = '\\' then none
      else (string? fuel rest).map fun (s, r) => (.char c :: s, r)

/-- The value of a row of digits. -/
def digitsValue (ds : List Char) : Nat :=
  ds.foldl (fun n d => n * 10 + (d.toNat - 48)) 0

/-- The fraction at the front: its digits behind the point, and what is left. -/
def fraction? : List Char → Option (List Char × List Char)
  | '.' :: cs =>
    let ds := cs.takeWhile Char.isDigit
    if ds.isEmpty then none else some (ds, cs.drop ds.length)
  | _ => none

/-- The exponent at the front, and what is left. -/
def exponent? : List Char → Option (Int × List Char)
  | e :: cs =>
    if e = 'e' ∨ e = 'E' then
      let (negative, body) :=
        match cs with
        | '-' :: r => (true, r)
        | '+' :: r => (false, r)
        | r => (false, r)
      let ds := body.takeWhile Char.isDigit
      if ds.isEmpty then none
      else
        let n : Int := digitsValue ds
        some (if negative then -n else n, body.drop ds.length)
    else none
  | [] => none

/-- The digits before the point, and what is left. A zero stands alone. -/
def integer? (cs : List Char) : Option (List Char × List Char) :=
  match cs with
  | '0' :: rest => some (['0'], rest)
  | _ =>
    let ds := cs.takeWhile Char.isDigit
    if ds.isEmpty then none else some (ds, cs.drop ds.length)

/-- The number at the front, and what is left. -/
def number (cs : List Char) : Except ValueFault (SettingValue × List Char) :=
  let (negative, body) :=
    match cs with
    | '-' :: r => (true, r)
    | r => (false, r)
  match integer? body with
  | none => .error .malformed
  | some (ds, rest) =>
    let fraction := fraction? rest
    let rest := (fraction.map Prod.snd).getD rest
    let exponent := exponent? rest
    let rest := (exponent.map Prod.snd).getD rest
    if fraction.isNone && exponent.isNone then
      if Numeral.maxDigits < ds.length then .error (.longInteger ds.length)
      else
        let n : Int := digitsValue ds
        .ok (.int (if negative then -n else n), rest)
    else
      let places := (fraction.map Prod.fst).getD []
      let x := Binary64.ofScaled 10 (digitsValue (ds ++ places))
        ((exponent.map Prod.fst).getD 0 - places.length)
      .ok (.float (if negative then -x else x), rest)

/-- The words that are values. -/
def words : List (String × SettingValue) :=
  [("null", .null), ("true", .bool true), ("false", .bool false),
    ("NaN", .float (Float.ofBits 0x7ff8000000000000)),
    ("Infinity", .float (Float.ofBits 0x7ff0000000000000)),
    ("-Infinity", .float (Float.ofBits 0xfff0000000000000))]

/-- The word at the front that is a value, and what is left. -/
def word? (cs : List Char) : Option (SettingValue × List Char) :=
  words.findSome? fun (word, v) => (behind? word cs).map fun rest => (v, rest)

mutual

/-- The value at the front, and what is left. -/
def value : Nat → List Char → Except ValueFault (SettingValue × List Char)
  | 0, _ => .error .malformed
  | fuel + 1, cs =>
    match cs with
    | '"' :: rest =>
      match string? rest.length.succ rest with
      | some (text, rest) => .ok (.text text, rest)
      | none => .error .malformed
    | '[' :: rest =>
      match skipSpace rest with
      | ']' :: rest => .ok (.list [], rest)
      | rest => (items fuel rest).map fun (vs, r) => (.list vs, r)
    | '{' :: rest =>
      match skipSpace rest with
      | '}' :: rest => .ok (.table [], rest)
      | rest => (entries fuel rest).map fun (es, r) => (.table (SettingValue.ofEntries es), r)
    | _ =>
      match word? cs with
      | some found => .ok found
      | none => number cs

/-- The items of a list up to its closing bracket. -/
def items : Nat → List Char → Except ValueFault (List SettingValue × List Char)
  | 0, _ => .error .malformed
  | fuel + 1, cs => do
    let (v, rest) ← value fuel cs
    match skipSpace rest with
    | ']' :: rest => return ([v], rest)
    | ',' :: rest =>
      let (vs, last) ← items fuel (skipSpace rest)
      return (v :: vs, last)
    | _ => throw .malformed

/-- The entries of a table up to its closing brace. -/
def entries : Nat → List Char → Except ValueFault (List (SettingValue × SettingValue) × List Char)
  | 0, _ => .error .malformed
  | fuel + 1, cs =>
    match cs with
    | '"' :: rest =>
      match string? rest.length.succ rest with
      | none => .error .malformed
      | some (key, rest) =>
        match skipSpace rest with
        | ':' :: rest => do
          let (v, rest) ← value fuel (skipSpace rest)
          match skipSpace rest with
          | '}' :: rest => return ([(.text key, v)], rest)
          | ',' :: rest =>
            let (es, last) ← entries fuel (skipSpace rest)
            return ((.text key, v) :: es, last)
          | _ => throw .malformed
        | _ => .error .malformed
    | _ => .error .malformed

end

/-- The value that a text holds; nothing else may stand beside it. Every step takes a character, so
the length of the text bounds their number. The first fault in the text is the one that counts. -/
def parse (s : String) : Except ValueFault SettingValue := do
  let cs := s.toList
  let (v, rest) ← value (2 * cs.length + 2) (skipSpace cs)
  if (skipSpace rest).isEmpty then return v else throw .malformed

end Demacro.Settings.Json
