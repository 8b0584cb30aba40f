import Demacro.Token

/-!
Expressions. A node knows which tokens of the parsed sequence it covers. The precedence of a node
says how tightly its parts hold together: the higher, the tighter.
-/

namespace Demacro

/-- Operators with two operands other than assignments. -/
inductive BinaryOp where
  | mul | div | mod | add | sub | shiftLeft | shiftRight | threeWay | less | lessEqual | greater
  | greaterEqual | equal | notEqual | bitAnd | bitXor | bitOr | and | or
deriving DecidableEq

namespace BinaryOp

/-- The spelling of an operator. -/
def symbol : BinaryOp → String
  | mul => "*" | div => "/" | mod => "%" | add => "+" | sub => "-" | shiftLeft => "<<"
  | shiftRight => ">>" | threeWay => "<=>" | less => "<" | lessEqual => "<=" | greater => ">"
  | greaterEqual => ">=" | equal => "==" | notEqual => "!=" | bitAnd => "&" | bitXor => "^"
  | bitOr => "|" | and => "&&" | or => "||"

/-- The precedence of an operator. -/
def precedence : BinaryOp → Nat
  | mul | div | mod => 13
  | add | sub => 12
  | shiftLeft | shiftRight => 11
  | threeWay => 10
  | less | lessEqual | greater | greaterEqual => 9
  | equal | notEqual => 8
  | bitAnd => 7
  | bitXor => 6
  | bitOr => 5
  | and => 4
  | or => 3

/-- All operators. -/
def all : List BinaryOp :=
  [mul, div, mod, add, sub, shiftLeft, shiftRight, threeWay, less, lessEqual, greater, greaterEqual,
    equal, notEqual, bitAnd, bitXor, bitOr, and, or]

/-- The operator with a spelling. -/
def ofSymbol? (s : String) : Option BinaryOp :=
  all.find? (·.symbol == s)

end BinaryOp

/-- Assignment operators, by the operation that is done with the old value. -/
inductive AssignOp where
  | plain
  | update (op : BinaryOp)
deriving DecidableEq

namespace AssignOp

/-- The spelling of an assignment operator. -/
def symbol : AssignOp → String
  | plain => "="
  | update op => op.symbol ++ "="

/-- All assignment operators. -/
def all : List AssignOp :=
  [plain, update .add, update .sub, update .mul, update .div, update .mod, update .shiftLeft,
    update .shiftRight, update .bitAnd, update .bitXor, update .bitOr]

/-- The assignment operator with a spelling. -/
def ofSymbol? (s : String) : Option AssignOp :=
  all.find? (·.symbol == s)

end AssignOp

/-- Increment and decrement. -/
inductive StepOp where
  | increment
  | decrement
deriving DecidableEq

namespace StepOp

/-- The spelling of an operator. -/
def symbol : StepOp → String
  | increment => "++"
  | decrement => "--"

/-- The operator with a spelling. -/
def ofSymbol? (s : String) : Option StepOp :=
  if s = "++" then some increment else if s = "--" then some decrement else none

end StepOp

/-- Operators before their operand. -/
inductive UnaryOp where
  | plus
  | minus
  | not
  | complement
  | dereference
  | addressOf
  | step (op : StepOp)
deriving DecidableEq

namespace UnaryOp

/-- The spelling of an operator. -/
def symbol : UnaryOp → String
  | plus => "+"
  | minus => "-"
  | not => "!"
  | complement => "~"
  | dereference => "*"
  | addressOf => "&"
  | step op => op.symbol

/-- All operators. -/
def all : List UnaryOp :=
  [plus, minus, not, complement, dereference, addressOf, step .increment, step .decrement]

/-- The operator with a spelling. -/
def ofSymbol? (s : String) : Option UnaryOp :=
  all.find? (·.symbol == s)

end UnaryOp

/-- The tokens that a node covers: the index of the first and the index behind the last. -/
structure TokenRange where
  start : Nat
  stop : Nat
deriving DecidableEq

/-- An expression. -/
inductive Expr where
  /-- A number, a character, or adjacent strings. -/
  | literal (range : TokenRange) (tokens : List Token)
  /-- A name, with its qualifiers. -/
  | name (range : TokenRange) (text : String)
  | paren (range : TokenRange) (inner : Expr)
  | unary (range : TokenRange) (op : UnaryOp) (operand : Expr)
  | binary (range : TokenRange) (op : BinaryOp) (left right : Expr)
  | conditional (range : TokenRange) (condition whenTrue whenFalse : Expr)
  | assign (range : TokenRange) (op : AssignOp) (target value : Expr)
  | comma (range : TokenRange) (items : List Expr)
  | call (range : TokenRange) (callee : Expr) (arguments : List Expr)
  | subscript (range : TokenRange) (base index : Expr)
  | member (range : TokenRange) (op : String) (base : Expr) (name : String)
  /-- An increment or decrement behind its operand. -/
  | stepped (range : TokenRange) (op : StepOp) (operand : Expr)
  /-- A cast to the type with the given text. -/
  | cast (range : TokenRange) (type : Text) (operand : Expr)
  /-- A size or alignment. An operand in parentheses is not parsed. -/
  | measure (range : TokenRange) (keyword : String) (operand : Option Expr)
  /-- A `new` expression, of which nothing else is known. -/
  | allocate (range : TokenRange)
  /-- A `delete` expression. -/
  | free (range : TokenRange) (operand : Expr)
  /-- A `throw` expression. -/
  | raise (range : TokenRange) (operand : Option Expr)

namespace Expr

/-- The name of a node's kind. -/
def kind : Expr → String
  | literal .. => "literal"
  | name .. => "name"
  | paren .. => "paren"
  | unary .. => "unary"
  | binary .. => "binary"
  | conditional .. => "conditional"
  | assign .. => "assign"
  | comma .. => "comma"
  | call .. => "call"
  | subscript .. => "subscript"
  | member .. => "member"
  | stepped .. => "postfix"
  | cast .. => "cast"
  | measure .. => "sizeof"
  | allocate .. => "new"
  | free .. => "delete"
  | raise .. => "throw"

/-- What a node is labelled with: its operator, or the text of a leaf. -/
def label : Expr → Text
  | literal _ tokens => Token.render tokens
  | name _ text => text
  | paren .. => "()"
  | unary _ op _ => op.symbol
  | binary _ op .. => op.symbol
  | conditional .. => "?:"
  | assign _ op .. => op.symbol
  | comma .. => ","
  | call .. => "()"
  | subscript .. => "[]"
  | member _ op .. => op
  | stepped _ op _ => op.symbol
  | cast _ type _ => type
  | measure _ keyword _ => keyword
  | allocate _ => "new"
  | free .. => "delete"
  | raise .. => "throw"

/-- The tokens that a node covers. -/
def range : Expr → TokenRange
  | literal r _ | name r _ | paren r _ | unary r .. | binary r .. | conditional r .. | assign r ..
  | comma r _ | call r .. | subscript r .. | member r .. | stepped r .. | cast r .. | measure r ..
  | allocate r | free r _ | raise r _ => r

/-- The operands of a node in the order of the source. -/
def children : Expr → List Expr
  | literal .. | name .. | allocate _ => []
  | paren _ e | unary _ _ e | member _ _ e _ | stepped _ _ e | cast _ _ e | free _ e => [e]
  | binary _ _ a b | assign _ _ a b | subscript _ a b => [a, b]
  | conditional _ a b c => [a, b, c]
  | comma _ es => es
  | call _ e es => e :: es
  | measure _ _ e | raise _ e => e.toList

/-- The precedence of names, literals and everything that is closed in itself. -/
def primaryPrecedence : Nat := 16

/-- The precedence of operators before their operand. -/
def unaryPrecedence : Nat := 14

/-- How tightly a node's parts hold together. -/
def precedence : Expr → Nat
  | binary _ op .. => op.precedence
  | conditional .. | assign .. | raise .. => 2
  | comma .. => 1
  | unary .. | cast .. | allocate _ | free .. => unaryPrecedence
  | _ => primaryPrecedence

/-- Whether operators around the expression cannot split it. -/
def isPrimary (e : Expr) : Bool :=
  e.precedence == primaryPrecedence

/-- Whether the expression is a list of expressions with commas between them. -/
def isComma : Expr → Bool
  | comma .. => true
  | _ => false

/-- Whether the expression is a conditional one. -/
def isConditional : Expr → Bool
  | conditional .. => true
  | _ => false

/-- The expression inside all parentheses around it. -/
def stripParens : Expr → Expr
  | paren _ e => stripParens e
  | e => e

mutual

/-- A node and all nodes below it, each before its operands, with a mark on those that are called.
`called` is the mark of the first. -/
def marked (called : Bool) : Expr → List (Bool × Expr)
  | e@(literal ..) | e@(name ..) | e@(allocate _) => [(called, e)]
  | e@(paren _ a) | e@(unary _ _ a) | e@(member _ _ a _) | e@(stepped _ _ a) | e@(cast _ _ a)
  | e@(free _ a) => (called, e) :: marked false a
  | e@(binary _ _ a b) | e@(assign _ _ a b) | e@(subscript _ a b) =>
    (called, e) :: (marked false a ++ marked false b)
  | e@(conditional _ a b c) => (called, e) :: (marked false a ++ marked false b ++ marked false c)
  | e@(comma _ es) => (called, e) :: markedAll es
  | e@(call _ a es) => (called, e) :: (marked true a ++ markedAll es)
  | e@(measure _ _ a) | e@(raise _ a) =>
    match a with
    | none => [(called, e)]
    | some a => (called, e) :: marked false a

/-- The nodes of several expressions, none of them called. -/
def markedAll : List Expr → List (Bool × Expr)
  | [] => []
  | e :: es => marked false e ++ markedAll es

end

/-- A node and all nodes below it, each before its operands. -/
def nodes (e : Expr) : List Expr :=
  (e.marked false).map Prod.snd

/-- The side effect of a node itself, in words. -/
def ownEffect? : Expr → Option String
  | assign _ op .. => some ("assignment '" ++ op.symbol ++ "'")
  | stepped _ op _ => some ("increment/decrement '" ++ op.symbol ++ "'")
  | unary _ (.step op) _ => some ("increment/decrement '" ++ op.symbol ++ "'")
  | call .. => some "function call"
  | allocate _ => some "'new' expression"
  | free .. => some "'delete' expression"
  | raise .. => some "'throw' expression"
  | _ => none

/-- The first side effect of an expression, in words. -/
def effect? (e : Expr) : Option String :=
  e.nodes.findSome? ownEffect?

end Expr

end Demacro
