import Demacro.Constant.Literal
import Demacro.Expr
import Demacro.QualifiedName

/-!
Constant folding: the value of an expression that has one before the program runs. Integers are
exact; a result outside a signed type is refused, and one outside an unsigned type wraps.
-/

namespace Demacro

/-- Gives the constants that names stand for. -/
abbrev Resolver := String → Except FoldError Folded

namespace Constant

/-- Whether a floating value counts as true. -/
def truthOfFloat (x : Float) : Bool :=
  match Binary64.view x with
  | .finite _ m _ => m != 0
  | _ => true

/-- A value of either kind. -/
inductive Number where
  | int (n : Int)
  | float (x : Float)

namespace Number

/-- Whether a value counts as true. -/
def truth : Number → Bool
  | int n => n != 0
  | float x => truthOfFloat x

/-- The double nearest to a value. -/
def toFloat : Number → Except FoldError Float
  | int n =>
    let x := Binary64.ofInt n
    match Binary64.view x with
    | .infinite _ => .error .integerExceedsFloat
    | _ => .ok x
  | float x => .ok x

/-- The integer part of a value. -/
def toInt : Number → Except FoldError Int
  | int n => .ok n
  | float x =>
    match Binary64.view x with
    | .infinite _ => .error .infinite
    | .nan => .error .notANumber
    | .finite .. => .ok ((Binary64.toInt? x).getD 0)

/-- The order of two values as real numbers; nothing if one is no number. -/
def compare? : Number → Number → Option Ordering
  | int a, int b => some (compare a b)
  | int a, float b => Binary64.compareInt a b
  | float a, int b => (Binary64.compareInt b a).map Ordering.swap
  | float a, float b =>
    if a < b then some .lt else if a == b then some .eq else if b < a then some .gt else none

end Number

/-- The value of an arithmetic constant, if it is known. -/
def number? : Constant → Option Number
  | integral _ v => v.map .int
  | floating _ v => v.map .float
  | _ => none

/-- The type of an arithmetic constant. -/
def arithmeticType? : Constant → Option ArithmeticType
  | integral t _ => some (.integer t)
  | floating t _ => some (.floating t)
  | _ => none

/-- The value in its type: unsigned values wrap, and signed ones must fit. -/
def inType (t : IntegerType) (n : Int) : Except FoldError Int :=
  if t = .bool then .ok (if n = 0 then 0 else 1)
  else if !t.isSigned then .ok (n % t.modulus)
  else if t.least ≤ n ∧ n ≤ t.greatest then .ok n
  else .error (.signedOverflow t)

/-- As `inType`, for a value that may be unknown. -/
def inType? (t : IntegerType) : Option Int → Except FoldError (Option Int)
  | none => .ok none
  | some n => (inType t n).map some

/-- A truth value. -/
def ofBool (b : Bool) : Int :=
  if b then 1 else 0

/-- A comparison of known values. -/
def compareBy (op : BinaryOp) (a b : Number) : Option Bool :=
  let order := a.compare? b
  match op with
  | .less => some (order == some .lt)
  | .lessEqual => some (order == some .lt || order == some .eq)
  | .greater => some (order == some .gt)
  | .greaterEqual => some (order == some .gt || order == some .eq)
  | .equal => some (order == some .eq)
  | .notEqual => some (order != some .eq)
  | .and => some (a.truth && b.truth)
  | .or => some (a.truth || b.truth)
  | _ => none

/-- A bitwise operation on two values of a type, in two's complement. -/
def bitwise (t : IntegerType) (f : Nat → Nat → Nat) (a b : Int) : Int :=
  t.wrap (f (a % t.modulus).toNat (b % t.modulus).toNat)

/-- Arithmetic on two values of a type, before the result is brought into the type. -/
def integerOp (op : BinaryOp) (t : IntegerType) (a b : Int) : Except FoldError Int :=
  match op with
  | .add => .ok (a + b)
  | .sub => .ok (a - b)
  | .mul => .ok (a * b)
  | .div => if b = 0 then .error .divisorVanishes else .ok (a.tdiv b)
  | .mod => if b = 0 then .error .divisorVanishes else .ok (a.tmod b)
  | .bitAnd => .ok (bitwise t Nat.land a b)
  | .bitOr => .ok (bitwise t Nat.lor a b)
  | .bitXor => .ok (bitwise t Nat.xor a b)
  | _ => .ok 0

/-- Arithmetic on floating values. -/
def floatingOp (op : BinaryOp) (a b : Float) : Float :=
  match op with
  | .add => a + b
  | .sub => a - b
  | .mul => a * b
  | .div => a / b
  | _ => 0

/-- An operator that only integers have. -/
def isIntegerOnly (op : BinaryOp) : Bool :=
  op == .bitAnd || op == .bitOr || op == .bitXor || op == .mod

/-- A shift of a value of type `t` by a known count. -/
def shift (op : BinaryOp) (t : IntegerType) (a b : Int) : Except FoldError Int :=
  if b < 0 ∨ (t.bits : Int) ≤ b then
    .error (if Numeral.isShort b then .shiftCount b else .tooLongToWrite)
  else if op = .shiftLeft then
    if a < 0 then .error .negativeShift
    else
      let n := a <<< b.toNat
      if t.isSigned ∧ t.greatest < n then .error (.signedOverflow t) else inType t n
  else inType t (a >>> b.toNat)

/-- A conversion that is written as a cast. It keeps the value of a floating number, also where the
type has fewer digits. -/
def castTo (t : ArithmeticType) (v : Option Number) : Except FoldError Constant :=
  match t, v with
  | .integer t, none => .ok (.integral t none)
  | .floating t, none => .ok (.floating t none)
  | .floating t, some v => v.toFloat.map fun x => .floating t (some x)
  | .integer t, some v =>
    if t = .bool then .ok (.integral t (some (ofBool v.truth)))
    else v.toInt.map fun n => .integral t (some (t.wrap n))

/-- An operator before an arithmetic operand. -/
def unaryOp (op : UnaryOp) : Constant → Except FoldError Constant
  | integral t v =>
    match op with
    | .not => .ok (integral .bool (v.map fun n => ofBool (n == 0)))
    | .plus => (inType? t.promote v).map (integral t.promote)
    | .minus => (inType? t.promote (v.map fun n => -n)).map (integral t.promote)
    | .complement => (inType? t.promote (v.map fun n => -n - 1)).map (integral t.promote)
    | _ => .error (.pointerOperator op.symbol)
  | floating t v =>
    match op with
    | .not => .ok (integral .bool (v.map fun x => ofBool !truthOfFloat x))
    | .plus => .ok (floating t v)
    | .minus => .ok (floating t (v.map fun x => -x))
    | .complement => .error (.floatingOperand op.symbol)
    | _ => .error (.pointerOperator op.symbol)
  | c => .error (.operandCategory op.symbol c.category)

/-- Whether a value is known to be zero. -/
def isZero : Option Number → Bool
  | some v => !v.truth
  | none => false

/-- An operator other than a comparison or a shift, on operands of the given types. -/
def arithmeticOp (op : BinaryOp) (t u : ArithmeticType) (a b : Option Number) :
    Except FoldError Constant :=
  match t.common u with
  | .floating t =>
    if isIntegerOnly op then .error (.floatingOperand op.symbol)
    else if op = .div ∧ isZero b then .error .divisionByZero
    else
      match a, b with
      | some a, some b => return .floating t (some (floatingOp op (← a.toFloat) (← b.toFloat)))
      | _, _ => .ok (.floating t none)
  | .integer t =>
    if (op = .div ∨ op = .mod) ∧ isZero b then .error .divisionByZero
    else
      match a, b with
      | some (.int a), some (.int b) => do
        let n ← integerOp op t (← inType t a) (← inType t b)
        return .integral t (some (← inType t n))
      | _, _ => .ok (.integral t none)

/-- An operator between two arithmetic operands. -/
def binaryOp (op : BinaryOp) (left right : Constant) : Except FoldError Constant :=
  match left.arithmeticType?, right.arithmeticType? with
  | none, _ => .error (.operandCategory op.symbol left.category)
  | some _, none => .error (.operandCategory op.symbol right.category)
  | some t, some u =>
    let a := left.number?
    let b := right.number?
    match op with
    | .and | .or | .less | .lessEqual | .greater | .greaterEqual | .equal | .notEqual =>
      match a, b with
      | some a, some b => .ok (.integral .bool ((compareBy op a b).map ofBool))
      | _, _ => .ok (.integral .bool none)
    | .threeWay => .error .threeWay
    | .shiftLeft | .shiftRight =>
      match t, u with
      | .integer t, .integer _ =>
        match a, b with
        | some (.int a), some (.int b) =>
          (shift op t.promote a b).map fun n => .integral t.promote (some n)
        | _, _ => .ok (.integral t.promote none)
      | _, _ => .error (.floatingOperand op.symbol)
    | _ => arithmeticOp op t u a b

/-- The value of a conditional expression, in the type in which its alternatives meet. -/
def choose (condition whenTrue whenFalse : Constant) : Except FoldError Constant :=
  match condition.arithmeticType?, whenTrue.arithmeticType?, whenFalse.arithmeticType? with
  | some _, some t, some u =>
    let chosen := condition.number?.bind fun c => if c.truth then whenTrue.number?
      else whenFalse.number?
    match t.common u with
    | .floating t =>
      match chosen with
      | some v => v.toFloat.map fun x => .floating t (some x)
      | none => .ok (.floating t none)
    | .integer t =>
      match chosen with
      | some v => do return .integral t (some (← inType t (← v.toInt)))
      | none => .ok (.integral t none)
  | _, _, _ => .error (.operandCategory "?:" "pointer")

/-- Refuses an operand that is not arithmetic. -/
def needArithmetic (op : String) (f : Folded) : Except FoldError Folded :=
  match f.constant.arithmeticType? with
  | some _ => .ok f
  | none => .error (.operandCategory op f.constant.category)

/-- A literal. -/
def ofLiteral : List Token → Except FoldError Folded
  | t :: ts =>
    match t.kind with
    | .number => Literal.number t.lexeme
    | .char => Literal.character t.lexeme
    | _ => Literal.string (t :: ts)
  | [] => Literal.string []

/-- A name. Without a resolver only the truth values and the null pointer have a meaning. -/
def ofName (resolve : Option Resolver) (name : String) : Except FoldError Folded :=
  if name = "true" ∨ name = "false" then
    .ok ⟨.integral .bool (some (ofBool (name == "true"))), .high, []⟩
  else if name = "nullptr" ∨ name = "NULL" then
    .ok ⟨.pointer, .blocked, ["null pointer constant '" ++ name ++ "' has no known pointee type"]⟩
  else
    match resolve with
    | some f => if QualifiedName.isQualified name then .error (.foreignName name) else f name
    | none => .error (.foreignName name)

/-- Why an expression that is never constant is not one. -/
def refusal (e : Expr) : FoldError :=
  match e.effect? with
  | some effect => .effect effect
  | none => .notConstant e.kind

/-- The constant value of an expression. -/
def fold (resolve : Option Resolver) : Expr → Except FoldError Folded
  | .literal _ tokens => ofLiteral tokens
  | .name _ text => ofName resolve text
  | .paren _ e => fold resolve e
  | .measure _ keyword _ =>
    .ok ⟨.integral .size none, .medium, [keyword ++ " result depends on the target"]⟩
  | .unary _ op e =>
    match op with
    | .step step => .error (.effect ("increment/decrement '" ++ step.symbol ++ "'"))
    | .dereference | .addressOf => .error (.pointerOperator op.symbol)
    | _ => do
      let f ← needArithmetic op.symbol (← fold resolve e)
      return Folded.ofOperands (← unaryOp op f.constant) [f]
  | .cast _ type e => do
    let words := Unicode.runs (SourceChar.satisfies Unicode.isBlank) type
    let target ← (ArithmeticType.ofWords words).mapError .castType
    let f ← needArithmetic "cast" (← fold resolve e)
    return Folded.ofOperands (← castTo target f.constant.number?) [f]
  | .binary _ op left right => do
    let a ← needArithmetic op.symbol (← fold resolve left)
    let b ← needArithmetic op.symbol (← fold resolve right)
    return Folded.ofOperands (← binaryOp op a.constant b.constant) [a, b]
  | .conditional _ condition whenTrue whenFalse => do
    let c ← needArithmetic "?:" (← fold resolve condition)
    let a ← needArithmetic "?:" (← fold resolve whenTrue)
    let b ← needArithmetic "?:" (← fold resolve whenFalse)
    return Folded.ofOperands (← choose c.constant a.constant b.constant) [c, a, b]
  | .comma .. => .error .comma
  | e@(.assign ..) | e@(.call ..) | e@(.subscript ..) | e@(.member ..) | e@(.stepped ..)
  | e@(.allocate _) | e@(.free ..) | e@(.raise ..) => .error (refusal e)

end Constant

end Demacro
