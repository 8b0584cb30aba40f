import Demacro.Binary64

/-!
The text of a double: the fewest digits that read back, positional unless the number is very large
or very small.
-/

namespace Demacro.Binary64

/-- The digits of a positive finite number and the exponent of the last of them. -/
structure Digits where
  digits : Nat
  exponent : Int
deriving DecidableEq

/-- A power of ten as a quotient. -/
def tenRatio (e : Int) : Nat × Nat :=
  (Nat.pow 10 e.toNat, Nat.pow 10 (-e).toNat)

/-- The interval of the reals that round to a double, and the double itself: numerators of the low
end, the number and the high end over one denominator. The ends belong to it if `closed`. -/
structure Interval where
  low : Nat
  value : Nat
  high : Nat
  denominator : Nat
  closed : Bool

/-- The interval around `magnitude · 2 ^ exponent`. Below a power of two the next double is half as
far away as above it. -/
def interval (magnitude : Nat) (exponent : Int) : Interval :=
  let (p, q) := powerRatio (exponent - 2)
  let below := if magnitude = leadingBit ∧ -1074 < exponent then 1 else 2
  ⟨(4 * magnitude - below) * p, 4 * magnitude * p, (4 * magnitude + 2) * p, q, magnitude % 2 = 0⟩

/-- Whether `n · 10 ^ e` lies in an interval. -/
def Interval.contains (i : Interval) (n : Nat) (e : Int) : Bool :=
  let (p, q) := tenRatio e
  let x := n * p * i.denominator
  if i.closed then i.low * q ≤ x && x ≤ i.high * q else i.low * q < x && x < i.high * q

/-- The number of decimal places before the point that a quotient needs; not positive if it is less
than one tenth. At most `fuel` places behind the point are looked at. -/
def decimalPlaces (num den : Nat) (fuel : Nat) : Int :=
  if den ≤ num then ((num / den).repr.length : Int)
  else match fuel with
    | 0 => 0
    | fuel + 1 => decimalPlaces (num * 10) den fuel - 1

/-- The multiples of `10 ^ e` on both sides of an interval's number. The result is the one that lies
in the interval, the nearer one if both do, and the even one if both are as near. -/
def Interval.onGrid (i : Interval) (e : Int) : Option Digits :=
  let (p, q) := tenRatio e
  let n := i.value * q / (i.denominator * p)
  let r := i.value * q % (i.denominator * p)
  match i.contains n e, i.contains (n + 1) e with
  | true, false => some ⟨n, e⟩
  | false, true => some ⟨n + 1, e⟩
  | true, true =>
    if 2 * r < i.denominator * p ∨ (2 * r = i.denominator * p ∧ n % 2 = 0) then some ⟨n, e⟩
    else some ⟨n + 1, e⟩
  | false, false => none

/-- The digits without zeros at the end. -/
def Digits.strip (d : Digits) : Nat → Digits
  | 0 => d
  | fuel + 1 =>
      if d.digits % 10 = 0 ∧ d.digits ≠ 0 then strip ⟨d.digits / 10, d.exponent + 1⟩ fuel else d

/-- The fewest digits that read back as `magnitude · 2 ^ exponent`. -/
def shortest (magnitude : Nat) (exponent : Int) : Digits :=
  let i := interval magnitude exponent
  let places := decimalPlaces i.value i.denominator 400
  let found := (List.range 17).findSome? fun (k : Nat) => i.onGrid (places - 1 - k)
  (found.getD ⟨0, 0⟩).strip 20

/-- The text of a positive number with the given digits: positional if the first digit stands for
at least `10 ^ -4` and less than `10 ^ 16`, and otherwise with one digit before the point and an
exponent of at least two digits. -/
def Digits.text (d : Digits) : String :=
  let ds := d.digits.repr
  let point : Int := d.exponent + ds.length
  if -4 < point ∧ point ≤ 16 then
    if point ≤ 0 then "0." ++ String.ofList (List.replicate (-point).toNat '0') ++ ds
    else if (ds.length : Int) ≤ point then
      ds ++ String.ofList (List.replicate (point - ds.length).toNat '0') ++ ".0"
    else
      String.ofList (ds.toList.take point.toNat) ++ "." ++ String.ofList
        (ds.toList.drop point.toNat)
  else
    let exponent := point - 1
    let size := exponent.natAbs.repr
    String.ofList (ds.toList.take 1) ++ (if ds.length = 1 then "" else ".")
      ++ String.ofList (ds.toList.drop 1) ++ (if exponent < 0 then "e-" else "e+")
      ++ (if size.length < 2 then "0" else "") ++ size

/-- The text of a double. -/
def text (x : Float) : String :=
  match view x with
  | .nan => "nan"
  | .infinite negative => if negative then "-inf" else "inf"
  | .finite negative m e =>
    (if negative then "-" else "") ++ (if m = 0 then "0.0" else (shortest m e).text)

end Demacro.Binary64
