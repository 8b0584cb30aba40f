import Demacro.Binary64
import Demacro.Constant
import Demacro.Numeral
import Demacro.Token

/-!
The types and values of literals. An integer literal has the first type of its list of candidates
that holds its value. Where the answer would differ with a 32-bit `long`, the literal counts as
`long long` and the confidence is lowered.
-/

namespace Demacro.Literal

/-- The text without digit separators. -/
def withoutSeparators (t : Text) : Text :=
  t.filter (· != .char '\'')

/-- The ASCII characters of a literal without a line end behind it; nothing if it has others. -/
def ascii? (t : Text) : Option (List Char) :=
  match Text.chars? t with
  | some cs =>
    let body := if cs.getLast? == some '\n' then cs.dropLast else cs
    if body.all (·.toNat < 128) then some body else none
  | none => none

/-- A hexadecimal digit. -/
def isHexDigit (c : Char) : Bool :=
  c.isDigit || ('a' ≤ c && c ≤ 'f') || ('A' ≤ c && c ≤ 'F')

/-- An octal digit. -/
def isOctalDigit (c : Char) : Bool :=
  '0' ≤ c && c ≤ '7'

/-- A binary digit. -/
def isBinaryDigit (c : Char) : Bool :=
  c == '0' || c == '1'

/-- The number that a row of digits means. -/
def valueOf (base : Nat) (digits : List Char) : Nat :=
  digits.foldl (fun n c => n * base + (Numeral.digitValue? base c).getD 0) 0

/-- The base of an integer literal, its digits, and what is behind them. -/
structure Digits where
  base : Nat
  digits : List Char
  suffix : List Char

/-- Cuts the digits off that satisfy `p`. -/
def Digits.cut (base : Nat) (p : Char → Bool) (cs : List Char) : Digits :=
  ⟨base, cs.takeWhile p, cs.dropWhile p⟩

/-- The digits of an integer literal. -/
def Digits.ofChars? : List Char → Option Digits
  | '0' :: x :: d :: cs =>
    if (x = 'x' ∨ x = 'X') ∧ isHexDigit d then some (.cut 16 isHexDigit (d :: cs))
    else if (x = 'b' ∨ x = 'B') ∧ isBinaryDigit d then some (.cut 2 isBinaryDigit (d :: cs))
    else some (.cut 8 isOctalDigit ('0' :: x :: d :: cs))
  | '0' :: cs => some (.cut 8 isOctalDigit ('0' :: cs))
  | c :: cs => if c.isDigit then some (.cut 10 Char.isDigit (c :: cs)) else none
  | [] => none

/-- The length that the suffix of an integer literal asks for. -/
inductive Length where
  | plain
  | long
  | longLong
deriving DecidableEq

/-- The suffix of an integer literal: unsigned or not, and the length. -/
structure Suffix where
  isUnsigned : Bool
  length : Length
deriving DecidableEq

/-- The meaning of a suffix. The letters of the length stand together and are of one case; the one
for unsigned stands before or behind them. -/
def Suffix.ofChars? (cs : List Char) : Option Suffix :=
  let us := cs.filter fun c => c == 'u' || c == 'U'
  let ls := cs.filter fun c => c == 'l' || c == 'L'
  let isU (c : Option Char) := c == some 'u' || c == some 'U'
  if us.length + ls.length ≠ cs.length ∨ 1 < us.length then none
  else if us.length = 1 ∧ ¬ (isU cs.head? ∨ isU cs.getLast?) then none
  else
    match ls with
    | [] => some ⟨us.length == 1, .plain⟩
    | [_] => some ⟨us.length == 1, .long⟩
    | [a, b] => if a = b then some ⟨us.length == 1, .longLong⟩ else none
    | _ => none

/-- The types that a literal may have, in the order in which they are tried. Literals in base ten
are not unsigned unless they say so. -/
def candidates (s : Suffix) (isDecimal : Bool) : List IntegerType :=
  let from_ : List IntegerType :=
    match s.length with
    | .plain => [.int, .unsignedInt, .long, .unsignedLong, .longLong, .unsignedLongLong]
    | .long => [.long, .unsignedLong, .longLong, .unsignedLongLong]
    | .longLong => [.longLong, .unsignedLongLong]
  if s.isUnsigned then from_.filter fun t => !t.isSigned
  else if isDecimal then from_.filter IntegerType.isSigned
  else from_

/-- Whether a type with the given number of bits holds a number. -/
def fits (t : IntegerType) (bits : Nat) (n : Nat) : Bool :=
  if t.isSigned then n < 1 <<< (bits - 1) else n < 1 <<< bits

/-- An integer literal. -/
def integer (lexeme : Text) : Except FoldError Folded :=
  match (ascii? (withoutSeparators lexeme)).bind Digits.ofChars? with
  | none => .error (.integerSyntax lexeme)
  | some d =>
    if !d.suffix.all fun c => c == 'u' || c == 'U' || c == 'l' || c == 'L' then
      .error (.integerSyntax lexeme)
    else
      match Suffix.ofChars? d.suffix with
      | none => .error (.integerSuffix lexeme)
      | some suffix =>
        if d.base = 10 ∧ Numeral.maxDigits < d.digits.length then
          .error (.tooManyDigits d.digits.length)
        else
          let n := valueOf d.base d.digits
          let types := candidates suffix (d.base == 10)
          match types.find? fun t => fits t t.bits n with
          | none => .error (.integerTooLarge lexeme)
          | some t =>
            let short := types.find? fun t => fits t t.bitsShortLong n
            if short = some t then .ok ⟨.integral t (some n), .high, []⟩
            else
              let wide : IntegerType := if t.isSigned then .longLong else .unsignedLongLong
              .ok ⟨.integral wide (some n), .medium,
                ["literal " ++ lexeme.display ++ " is '" ++ t.name ++ "' under LP64 but '"
                  ++ (short.map IntegerType.name).getD "None" ++ "' under LLP64; widened to '"
                  ++ wide.name ++ "'"]⟩

/-- A row of digits with an optional point in it: the digits, how many of them are behind the
point, whether there is a point, and what is left. At least one digit is needed. -/
def mantissa? (p : Char → Bool) (cs : List Char) : Option (List Char × Nat × Bool × List Char) :=
  let whole := cs.takeWhile p
  match cs.drop whole.length with
  | '.' :: rest =>
    let places := rest.takeWhile p
    if whole.isEmpty && places.isEmpty then none
    else some (whole ++ places, places.length, true, rest.drop places.length)
  | rest => if whole.isEmpty then none else some (whole, 0, false, rest)

/-- An exponent behind its letter, and what is left. -/
def exponent? (cs : List Char) : Option (Int × List Char) :=
  let (negative, body) :=
    match cs with
    | '-' :: r => (true, r)
    | '+' :: r => (false, r)
    | r => (false, r)
  let ds := body.takeWhile Char.isDigit
  if ds.isEmpty then none
  else
    let n : Int := valueOf 10 ds
    some (if negative then -n else n, body.drop ds.length)

/-- The type that the suffix of a floating literal means. -/
def floatingSuffix? : List Char → Option FloatingType
  | [] => some .double
  | [c] =>
    if c = 'f' ∨ c = 'F' then some .float
    else if c = 'l' ∨ c = 'L' then some .longDouble
    else none
  | _ => none

/-- A decimal floating literal: its digits, the power of ten that they are taken times, and its
type. It has a point or an exponent. -/
def decimal? (cs : List Char) : Option (Nat × Int × FloatingType) :=
  match mantissa? Char.isDigit cs with
  | none => none
  | some (digits, places, pointed, rest) =>
    let exponent : Option (Int × List Char) :=
      match rest with
      | e :: r => if e = 'e' ∨ e = 'E' then exponent? r else none
      | [] => none
    match exponent with
    | some (n, rest) => (floatingSuffix? rest).map fun t => (valueOf 10 digits, n - places, t)
    | none =>
      if pointed then (floatingSuffix? rest).map fun t => (valueOf 10 digits, -(places : Int), t)
      else none

/-- A hexadecimal floating literal: its digits, the power of two that they are taken times, and its
type. -/
def hexadecimal? : List Char → Option (Nat × Int × FloatingType)
  | '0' :: x :: cs =>
    if x = 'x' ∨ x = 'X' then
      match mantissa? isHexDigit cs with
      | some (digits, places, _, p :: rest) =>
        if p = 'p' ∨ p = 'P' then
          match exponent? rest with
          | some (n, rest) =>
              (floatingSuffix? rest).map fun t => (valueOf 16 digits, n - 4 * places, t)
          | none => none
        else none
      | _ => none
    else none
  | _ => none

/-- A floating literal. A decimal one too large for any number is infinite. -/
def floating (lexeme : Text) : Except FoldError Folded :=
  match ascii? (withoutSeparators lexeme) with
  | none => .error (.floatingSyntax lexeme)
  | some cs =>
    match decimal? cs with
    | some (n, e, t) => .ok ⟨.floating t (some (Binary64.ofScaled 10 n e)), .high, []⟩
    | none =>
      match hexadecimal? cs with
      | some (n, e, t) =>
        let x := Binary64.ofScaled 2 n e
        match Binary64.view x with
        | .infinite _ => .error .hexadecimalTooLarge
        | _ => .ok ⟨.floating t (some x), .high, []⟩
      | none => .error (.floatingSyntax lexeme)

/-- Whether a number is written as a floating literal. -/
def isFloating (lexeme : Text) : Bool :=
  let t := withoutSeparators lexeme
  let has (c : Char) : Bool := t.contains (.char c)
  let start := t.take 2
  if start = Text.ofString "0x" ∨ start = Text.ofString "0X" then has 'p' || has 'P'
  else has '.' || has 'e' || has 'E'

/-- A number. -/
def number (lexeme : Text) : Except FoldError Folded :=
  if isFloating lexeme then floating lexeme else integer lexeme

/-- The type of the characters of a literal, by its encoding. -/
def encodings : List (String × IntegerType) :=
  [("", .char), ("L", .wchar), ("u8", .char8), ("u", .char16), ("U", .char32)]

/-- The type that an encoding means. -/
def encoding? (t : Text) : Option IntegerType :=
  (encodings.find? fun e => Text.ofString e.1 == t).map Prod.snd

/-- The escapes of one character, with their values. -/
def simpleEscapes : List (Char × Int) :=
  [('n', 10), ('t', 9), ('r', 13), ('a', 7), ('b', 8), ('f', 12), ('v', 11), ('\\', 92), ('\'', 39),
    ('"', 34), ('?', 63)]

/-- The value of an escape behind its backslash. -/
def escape? : List Char → Option Int
  | [] => none
  | c :: cs =>
    match if cs.isEmpty then simpleEscapes.lookup c else none with
    | some n => some n
    | none =>
      if (c = 'x' ∨ c = 'u' ∨ c = 'U') ∧ !cs.isEmpty then Numeral.int? 16 cs
      else if (c :: cs).all isOctalDigit ∧ cs.length < 3 then some (valueOf 8 (c :: cs))
      else none

/-- The number of a character. A stray byte counts as the code point U+DC00 and the byte. -/
def codeOf : SourceChar → Int
  | .char c => c.toNat
  | .byte b => 0xdc00 + b.toNat

/-- A character literal. -/
def character (lexeme : Text) : Except FoldError Folded :=
  let quote : SourceChar := .char '\''
  if !lexeme.contains quote then .error .unquoted
  else
    let quoted := lexeme.dropWhile (· != quote)
    match encoding? (lexeme.takeWhile (· != quote)) with
    | none => .error (.characterSyntax lexeme)
    | some type =>
      if quoted.length < 3 then .error (.characterSyntax lexeme)
      else
        let value : Except FoldError Int :=
          match (quoted.drop 1).dropLast with
          | .char '\\' :: rest =>
            match (Text.chars? rest).bind escape? with
            | some n => .ok n
            | none => .error (.escape lexeme)
          | [c] => .ok (codeOf c)
          | _ => .error (.multipleCharacters lexeme)
        value.map fun n => ⟨.integral type (some n), .high, []⟩

/-- The encoding of one string. -/
def stringEncoding (lexeme : Text) : Except FoldError Text :=
  let quote : SourceChar := .char '"'
  if !lexeme.contains quote then .error .unquoted
  else
    let word := lexeme.takeWhile (· != quote)
    let word := if word.getLast? = some (.char 'R') then word.dropLast else word
    if (encoding? word).isSome then .ok word else .error (.stringSyntax lexeme)

/-- Adjacent strings. Those without an encoding take that of the others. -/
def string (tokens : List Token) : Except FoldError Folded := do
  let words ← tokens.mapM fun t => stringEncoding t.lexeme
  match words.filter fun w => !w.isEmpty with
  | [] => return ⟨.string .char, .high, []⟩
  | w :: ws =>
    if ws.all (· == w) then return ⟨.string ((encoding? w).getD .char), .high, []⟩
    else .error .mixedEncodings

end Demacro.Literal
