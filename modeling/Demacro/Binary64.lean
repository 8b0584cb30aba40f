/-!
Exact views of double-precision numbers: the value of a finite number as a multiple of a power of
two, rounding of a quotient to the nearest double, and exact comparison with integers. All of it is
arithmetic on integers.
-/

namespace Demacro.Binary64

/-- A double: a finite value `± magnitude · 2 ^ exponent`, an infinity, or no number. -/
inductive View where
  | finite (negative : Bool) (magnitude : Nat) (exponent : Int)
  | infinite (negative : Bool)
  | nan
deriving DecidableEq

/-- The leading bit of the magnitude of a normal double. -/
def leadingBit : Nat := 1 <<< 52

/-- The value of a double. The magnitude has at most 53 bits. -/
def view (x : Float) : View :=
  let bits := x.toBits.toNat
  let negative := 1 <<< 63 ≤ bits
  let exponent : Nat := bits / leadingBit % 2048
  let fraction := bits % leadingBit
  if exponent = 2047 then if fraction = 0 then .infinite negative else .nan
  else if exponent = 0 then .finite negative fraction (-1074)
  else .finite negative (leadingBit + fraction) ((exponent : Int) - 1075)

/-- The integer nearest to a quotient; of two nearest ones the even one. -/
def nearest (num den : Nat) : Nat :=
  let q := num / den
  let r := num % den
  if 2 * r < den then q
  else if 2 * r > den then q + 1
  else if q % 2 = 0 then q else q + 1

/-- A power of two as a quotient. -/
def powerRatio (e : Int) : Nat × Nat :=
  (1 <<< e.toNat, 1 <<< (-e).toNat)

/-- The greatest `e` with `2 ^ e ≤ num / den`, for positive numbers. -/
def ratioLog2 (num den : Nat) : Int :=
  let e : Int := (Nat.log2 num : Int) - Nat.log2 den
  let (p, q) := powerRatio e
  if p * den ≤ num * q then e else e - 1

/-- The bits of the double nearest to a nonnegative quotient; of two nearest ones the one with an
even last bit. A quotient too large for a double gives the bits of infinity. -/
def bitsOfRatio (num den : Nat) : Nat :=
  if num = 0 then 0
  else
    let unit := max (ratioLog2 num den - 52) (-1074)
    let (p, q) := powerRatio unit
    let m := nearest (num * q) (den * p)
    let bits := if m < leadingBit then m else (unit + 1075).toNat * leadingBit + (m - leadingBit)
    min bits (2047 * leadingBit)

/-- The double nearest to a quotient. -/
def ofRatio (negative : Bool) (num den : Nat) : Float :=
  let x := Float.ofBits (UInt64.ofNat (bitsOfRatio num den))
  if negative then -x else x

/-- The double nearest to an integer. -/
def ofInt (n : Int) : Float :=
  ofRatio (n < 0) n.natAbs 1

/-- The double nearest to `digits · base ^ exponent`, for a base of at least two. Exponents far
outside the range of doubles are not raised to a power. -/
def ofScaled (base digits : Nat) (exponent : Int) : Float :=
  let size : Int := Nat.log2 digits
  if digits = 0 then 0
  else if exponent > 2000 then ofRatio false (1 <<< 2000) 1
  else if exponent + size < -2000 then ofRatio false 1 (1 <<< 2000)
  else ofRatio false (digits * base.pow exponent.toNat) (base.pow (-exponent).toNat)

/-- The integer part of a finite double. -/
def toInt? (x : Float) : Option Int :=
  match view x with
  | .finite negative m e =>
    let (p, q) := powerRatio e
    let n : Int := (m * p / q : Nat)
    some (if negative then -n else n)
  | _ => none

/-- The order of an integer and a double; nothing if the double is no number. -/
def compareInt (n : Int) (x : Float) : Option Ordering :=
  match view x with
  | .finite negative m e =>
    let (p, q) := powerRatio e
    let v : Int := (m * p : Nat)
    some (compare (n * q) (if negative then -v else v))
  | .infinite negative => some (if negative then .gt else .lt)
  | .nan => none

end Demacro.Binary64
