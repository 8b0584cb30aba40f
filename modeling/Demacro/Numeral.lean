import Demacro.Unicode.Classes

/-!
Numerals as people type them: white space around, one sign in front, single underscores between
digits, and decimal digits of any script.
-/

namespace Demacro.Numeral

/-- The value of a digit in a base up to 16. -/
def digitValue? (base : Nat) (c : Char) : Option Nat :=
  let value :=
    match Unicode.decimalValue? c with
    | some v => some v
    | none =>
      if 'a' ≤ c ∧ c ≤ 'z' then some (c.toNat - 87)
      else if 'A' ≤ c ∧ c ≤ 'Z' then some (c.toNat - 55)
      else none
  value.filter (· < base)

/-- The value of a row of digits behind a value read already. An underscore must stand between two
digits; `afterDigit` says that a digit is in front. -/
def rowValue? (base value : Nat) (afterDigit : Bool) : List Char → Option Nat
  | [] => if afterDigit then some value else none
  | c :: cs =>
    if c = '_' then if afterDigit then rowValue? base value false cs else none
    else
      match digitValue? base c with
      | some d => rowValue? base (value * base + d) true cs
      | none => none

/-- The most digits that a decimal numeral may have. -/
def maxDigits : Nat := 4300

/-- What is said about a numeral with too many digits. -/
def tooLongMessage (count : Nat) : String :=
  "Exceeds the limit (" ++ toString maxDigits
    ++ " digits) for integer string conversion: value has " ++ toString count
    ++ " digits; use sys.set_int_max_str_digits() to increase the limit"

/-- Whether a number is short enough to be written. -/
def isShort (n : Int) : Bool :=
  (toString n.natAbs).length ≤ maxDigits

/-- What is said about a number that is too long to be written. -/
def tooLongToWriteMessage : String :=
  "Exceeds the limit (" ++ toString maxDigits
    ++ " digits) for integer string conversion; use sys.set_int_max_str_digits() to increase the limit"

/-- Whether a row of digits that is no decimal numeral is one but for its length. -/
def isOverlong (digits : List Char) : Bool :=
  digits.all fun c => (Unicode.decimalValue? c).isSome

/-- What is said about a row of digits that is no decimal numeral. A long row is cut short. -/
def refusalMessage (digits : List Char) : String :=
  if isOverlong digits then tooLongMessage digits.length
  else "invalid literal for int() with base 10: "
    ++ String.ofList (('\'' :: digits ++ ['\'']).take 200)

/-- The value of the digits behind the sign. In base 16 the digits may follow `0x`. -/
def unsigned? (base : Nat) (cs : List Char) : Option Nat :=
  match cs with
  | '0' :: x :: rest =>
    if base = 16 ∧ (x = 'x' ∨ x = 'X') then
      match rest with
      | '_' :: digits => rowValue? base 0 false digits
      | digits => rowValue? base 0 false digits
    else rowValue? base 0 false cs
  | _ => rowValue? base 0 false cs

/-- White space that may stand around a numeral: all but the information separators. -/
def isSurrounding (c : Char) : Bool :=
  Unicode.isBlank c && !(0x1c ≤ c.toNat && c.toNat ≤ 0x1f)

/-- The value of a numeral. -/
def int? (base : Nat) (cs : List Char) : Option Int :=
  let body := ((cs.dropWhile isSurrounding).reverse.dropWhile isSurrounding).reverse
  let magnitude :=
    match body with
    | '+' :: digits => unsigned? base digits
    | '-' :: digits => unsigned? base digits
    | digits => unsigned? base digits
  if base = 10 ∧ maxDigits < (body.filter fun c => (Unicode.decimalValue? c).isSome).length
    then none
  else magnitude.map fun n => if body.head? = some '-' then -(n : Int) else n

end Demacro.Numeral
