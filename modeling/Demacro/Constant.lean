import Demacro.Arithmetic
import Demacro.Confidence
import Demacro.Numeral

/-!
Constants: what is known about the value of an expression, and how sure it is.
-/

namespace Demacro

/-- A constant of a type. The value is missing where it depends on the target. -/
inductive Constant where
  | integral (type : IntegerType) (value : Option Int)
  | floating (type : FloatingType) (value : Option Float)
  | string (charType : IntegerType)
  | pointer

namespace Constant

/-- The name of the kind of a constant. -/
def category : Constant → String
  | integral .. => "integral"
  | floating .. => "floating"
  | string _ => "string"
  | pointer => "pointer"

/-- The name of the type: for a string that of its characters, for the null pointer none. -/
def typeName? : Constant → Option String
  | integral t _ => some t.name
  | floating t _ => some t.name
  | string t => some t.name
  | pointer => none

/-- Whether the value, if it is known, is short enough to be written. -/
def isShort : Constant → Bool
  | integral _ (some n) => Numeral.isShort n
  | _ => true

end Constant

/-- A constant with the confidence in it and what was assumed for it. -/
structure Folded where
  constant : Constant
  confidence : Confidence := .high
  evidence : List String := []

/-- The items that are not in the list yet, added one by one. -/
def appendNew [BEq α] (items : List α) : List α → List α
  | [] => items
  | x :: xs => appendNew (if items.contains x then items else items ++ [x]) xs

namespace Folded

/-- The constant with what was assumed for an operand added to it. -/
def withOperand (f operand : Folded) : Folded :=
  { f with
    confidence := f.confidence.lower operand.confidence
    evidence := appendNew f.evidence operand.evidence }

/-- A constant that was computed from operands. -/
def ofOperands (c : Constant) (operands : List Folded) : Folded :=
  operands.foldl withOperand ⟨c, .high, []⟩

end Folded

/-- Why an expression has no constant value. -/
inductive FoldError where
  | integerSyntax (lexeme : Text)
  | integerSuffix (lexeme : Text)
  | integerTooLarge (lexeme : Text)
  | floatingSyntax (lexeme : Text)
  | escape (lexeme : Text)
  | multipleCharacters (lexeme : Text)
  | characterSyntax (lexeme : Text)
  | stringSyntax (lexeme : Text)
  | mixedEncodings
  | castType (fault : TypeFault)
  | signedOverflow (type : IntegerType)
  | effect (description : String)
  | notConstant (kind : String)
  | foreignName (name : String)
  | pointerOperator (op : String)
  | operandCategory (op : String) (category : String)
  | floatingOperand (op : String)
  | threeWay
  | shiftCount (n : Int)
  | negativeShift
  | divisionByZero
  | comma
  /-- Whoever resolves names does not give a value. -/
  | refused (reason : String)
  /-- The name is a macro that follows no pattern, for the given reason. -/
  | dependency (name : String) (reason : Text)
  /-- The name is a macro that stands for no number. -/
  | nonArithmetic (name : String)
  /-- The value of a name is needed that is not known yet. -/
  | needs (name : String)
  /-- An infinite number has no integral value. -/
  | infinite
  /-- What is no number has no integral value. -/
  | notANumber
  /-- An integer exceeds all finite floating numbers. -/
  | integerExceedsFloat
  /-- A hexadecimal floating literal exceeds all finite numbers. -/
  | hexadecimalTooLarge
  /-- A decimal integer literal has too many digits to be read. -/
  | tooManyDigits (count : Nat)
  /-- An integer that is to be reported has too many digits to be written. -/
  | tooLongToWrite
  /-- A divisor that is not zero becomes zero in the type of the division. -/
  | divisorVanishes
  /-- A literal lacks its quote. -/
  | unquoted

namespace FoldError

/-- Why an expression is not a constant, in words. For the other faults there is no reason that the
expression gives. -/
def reason? : FoldError → Option Text
  | integerSyntax lexeme => some ("unsupported integer literal '" ++ lexeme ++ "'")
  | integerSuffix lexeme => some ("invalid integer suffix in '" ++ lexeme ++ "'")
  | integerTooLarge lexeme =>
    some ("integer literal '" ++ lexeme ++ "' is too large for any integer type")
  | floatingSyntax lexeme => some ("unsupported floating literal '" ++ lexeme ++ "'")
  | escape lexeme => some ("unsupported escape sequence in " ++ lexeme)
  | multipleCharacters lexeme => some ("multicharacter literal " ++ lexeme)
  | characterSyntax lexeme => some ("unsupported character literal " ++ lexeme)
  | stringSyntax lexeme => some ("unsupported string literal " ++ lexeme)
  | mixedEncodings => some "concatenated string literals with different encodings"
  | castType fault => some fault.message
  | signedOverflow type => some ("signed overflow in constant expression (" ++ type.name ++ ")")
  | effect description => some ("side effect: " ++ description)
  | notConstant kind => some (kind ++ " expression is not a constant")
  | foreignName name => some ("references non-macro identifier '" ++ name ++ "'")
  | pointerOperator op => some ("pointer operator '" ++ op ++ "'")
  | operandCategory op category => some ("operator '" ++ op ++ "' applied to a " ++ category)
  | floatingOperand op => some ("operator '" ++ op ++ "' applied to a floating value")
  | threeWay => some "three-way comparison result is not an arithmetic constant"
  | shiftCount n => some ("shift count " ++ toString n ++ " out of range")
  | negativeShift => some "left shift of a negative value"
  | divisionByZero => some "division by zero"
  | comma => some "top-level comma operator"
  | refused reason => some reason
  | dependency name reason =>
    some ("depends on Unclassified macro '" ++ name ++ "' (" ++ reason ++ ")")
  | nonArithmetic name => some ("references non-arithmetic macro '" ++ name ++ "'")
  | needs name => some ("references non-macro identifier '" ++ name ++ "'")
  | infinite | notANumber | integerExceedsFloat | hexadecimalTooLarge | tooManyDigits _
  | tooLongToWrite | divisorVanishes | unquoted => none

/-- The name of the kind of a fault for which the expression gives no reason. -/
def kind : FoldError → String
  | infinite | integerExceedsFloat | hexadecimalTooLarge => "OverflowError"
  | divisorVanishes => "ZeroDivisionError"
  | _ => "ValueError"

/-- A fault in words. -/
def message : FoldError → Text
  | infinite => "cannot convert float infinity to integer"
  | notANumber => "cannot convert float NaN to integer"
  | hexadecimalTooLarge => "hexadecimal value too large to represent as a float"
  | integerExceedsFloat => "int too large to convert to float"
  | tooManyDigits count => Numeral.tooLongMessage count
  | tooLongToWrite => Numeral.tooLongToWriteMessage
  | divisorVanishes => "integer division or modulo by zero"
  | unquoted => "substring not found"
  | fault => fault.reason?.getD []

end FoldError

end Demacro
