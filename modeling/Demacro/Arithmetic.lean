import Demacro.Text

/-!
The builtin arithmetic types, their sizes in a data model with 64-bit `long`, integral promotions
and the usual conversions of two operands.
-/

namespace Demacro

/-- Integer types. The char types are integer types of their own. -/
inductive IntegerType where
  | bool | char | signedChar | unsignedChar | char8 | short | unsignedShort | char16 | int
  | unsignedInt | wchar | char32 | long | unsignedLong | longLong | unsignedLongLong | size
deriving DecidableEq

namespace IntegerType

/-- The name of a type. -/
def name : IntegerType → String
  | bool => "bool" | char => "char" | signedChar => "signed char" | unsignedChar => "unsigned char"
  | char8 => "char8_t" | short => "short" | unsignedShort => "unsigned short"
  | char16 => "char16_t" | int => "int" | unsignedInt => "unsigned int" | wchar => "wchar_t"
  | char32 => "char32_t" | long => "long" | unsignedLong => "unsigned long"
  | longLong => "long long" | unsignedLongLong => "unsigned long long" | size => "std::size_t"

/-- All integer types. -/
def all : List IntegerType :=
  [bool, char, signedChar, unsignedChar, char8, short, unsignedShort, char16, int, unsignedInt,
    wchar, char32, long, unsignedLong, longLong, unsignedLongLong, size]

/-- The type with a name. -/
def ofName? (name : String) : Option IntegerType :=
  all.find? (·.name == name)

/-- The number of bits of a value. -/
def bits : IntegerType → Nat
  | bool => 1
  | char | signedChar | unsignedChar | char8 => 8
  | short | unsignedShort | char16 => 16
  | int | unsignedInt | wchar | char32 => 32
  | long | unsignedLong | longLong | unsignedLongLong | size => 64

/-- The number of bits of a value where `long` has 32. -/
def bitsShortLong : IntegerType → Nat
  | long | unsignedLong => 32
  | t => t.bits

/-- Whether the type has negative values. -/
def isSigned : IntegerType → Bool
  | char | signedChar | short | int | wchar | long | longLong => true
  | _ => false

/-- The conversion rank. -/
def rank : IntegerType → Nat
  | bool => 0
  | char | signedChar | unsignedChar | char8 => 1
  | short | unsignedShort | char16 => 2
  | int | unsignedInt | wchar | char32 => 3
  | long | unsignedLong | size => 4
  | longLong | unsignedLongLong => 5

/-- The type of an operand in arithmetic. -/
def promote : IntegerType → IntegerType
  | bool | char | signedChar | unsignedChar | char8 | short | unsignedShort | char16 | wchar => int
  | char32 => unsignedInt
  | t => t

/-- The unsigned type of the size of a signed one. -/
def toUnsigned : IntegerType → IntegerType
  | short => unsignedShort
  | int => unsignedInt
  | long => unsignedLong
  | longLong => unsignedLongLong
  | t => t

/-- The type in which two integer operands meet. -/
def common (left right : IntegerType) : IntegerType :=
  let a := left.promote
  let b := right.promote
  if a = b then a
  else if a.isSigned = b.isSigned then if b.rank ≤ a.rank then a else b
  else
    let (u, s) := if a.isSigned then (b, a) else (a, b)
    if s.rank ≤ u.rank then u
    else if u.bits < s.bits then s
    else s.toUnsigned

/-- The number of values that the bits of a type can tell apart. -/
def modulus (t : IntegerType) : Nat :=
  1 <<< t.bits

/-- The number of values from zero to the greatest one of a signed type. -/
def half (t : IntegerType) : Nat :=
  1 <<< (t.bits - 1)

/-- The least value of a type. -/
def least (t : IntegerType) : Int :=
  if t.isSigned then -t.half else 0

/-- The greatest value of a type. -/
def greatest (t : IntegerType) : Int :=
  if t.isSigned then t.half - 1 else t.modulus - 1

/-- The value of a type that a number is congruent to. A number converted to `bool` is instead
compared with zero, which is not done here. -/
def wrap (t : IntegerType) (n : Int) : Int :=
  let m := n % t.modulus
  if t.isSigned ∧ t.half ≤ m then m - t.modulus else m

end IntegerType

/-- Floating types, in ascending order. -/
inductive FloatingType where
  | float
  | double
  | longDouble
deriving DecidableEq

namespace FloatingType

/-- The name of a type. -/
def name : FloatingType → String
  | float => "float"
  | double => "double"
  | longDouble => "long double"

/-- The place of a type among the floating types. -/
def rank : FloatingType → Nat
  | float => 1
  | double => 2
  | longDouble => 3

/-- All floating types. -/
def all : List FloatingType := [float, double, longDouble]

/-- The type with a name. -/
def ofName? (name : String) : Option FloatingType :=
  all.find? (·.name == name)

/-- The greater of two types. -/
def max (a b : FloatingType) : FloatingType :=
  if b.rank ≤ a.rank then a else b

end FloatingType

/-- Arithmetic types. -/
inductive ArithmeticType where
  | integer (type : IntegerType)
  | floating (type : FloatingType)
deriving DecidableEq

namespace ArithmeticType

/-- The name of a type. -/
def name : ArithmeticType → String
  | integer t => t.name
  | floating t => t.name

/-- The type in which two operands meet. -/
def common : ArithmeticType → ArithmeticType → ArithmeticType
  | integer a, integer b => integer (a.common b)
  | floating a, floating b => floating (a.max b)
  | floating a, integer _ => floating a
  | integer _, floating b => floating b

end ArithmeticType

/-- Why words are no arithmetic type. -/
inductive TypeFault where
  | indirect
  | unsupported (words : List Text)
deriving DecidableEq

/-- A fault in words. -/
def TypeFault.message : TypeFault → Text
  | indirect => "cast to pointer or reference type"
  | unsupported words => "unsupported cast type '" ++ Text.joinWith " " words ++ "'"

/-- The types that are written as one word beside `signed`, `unsigned` and `long`. -/
def ArithmeticType.words : List (String × ArithmeticType) :=
  [("float", .floating .float), ("bool", .integer .bool), ("wchar_t", .integer .wchar),
    ("char8_t", .integer .char8), ("char16_t", .integer .char16), ("char32_t", .integer .char32)]

/-- The type that a sequence of words means, in whatever order they stand. -/
def ArithmeticType.ofWords (words : List Text) : Except TypeFault ArithmeticType :=
  let parts := (words.map Text.display).filter fun w => w != "const" && w != "volatile"
  if parts.any fun w => w == "*" || w == "&" then .error .indirect
  else
    let isSigned := parts.contains "signed"
    let isUnsigned := parts.contains "unsigned"
    let longs := parts.count "long"
    let rest := parts.filter fun w =>
      !(w == "signed" || w == "unsigned" || w == "long" || w == "int")
    let sized (t : IntegerType) : Except TypeFault ArithmeticType :=
      .ok (.integer (if isUnsigned then t.toUnsigned else t))
    match rest with
    | ["double"] => .ok (.floating (if 0 < longs then .longDouble else .double))
    | ["char"] =>
      .ok (.integer (if isUnsigned then .unsignedChar else if isSigned then .signedChar else .char))
    | ["short"] => sized .short
    | [] =>
      if longs = 2 then sized .longLong
      else if longs = 1 then sized .long
      else sized .int
    | [w] =>
      match ArithmeticType.words.lookup w with
      | some t => .ok t
      | none => .error (.unsupported words)
    | _ => .error (.unsupported words)

end Demacro
