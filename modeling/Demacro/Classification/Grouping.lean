import Demacro.Classification.Survey

/-!
Operators around a use of a macro. The replacement is put in as tokens, so an operator next to it
may split it if it holds its parts together less tightly; a name is never split.
-/

namespace Demacro.Grouping

/-- The precedence of a symbol as an operator between operands. -/
def operatorPrecedence? (symbol : String) : Option Nat :=
  match BinaryOp.ofSymbol? symbol with
  | some op => some op.precedence
  | none =>
    if (AssignOp.ofSymbol? symbol).isSome ∨ symbol = "?" ∨ symbol = ":" then some 2 else none

/-- How tightly a token before a replacement draws what follows it to itself, if it is an
operator. -/
def precedenceBefore? (t : Token) : Option Nat :=
  if t.kind = .punctuator then
    if t.isPunctIn ["!", "~", "++", "--"] then some Expr.unaryPrecedence
    else operatorPrecedence? t.spelling
  else if t.isNamed "sizeof" then some Expr.unaryPrecedence
  else none

/-- How tightly a token behind a replacement draws what precedes it to itself, if it is an
operator. -/
def precedenceAfter? (t : Token) : Option Nat :=
  if t.kind = .punctuator then
    if t.isPunctIn ["(", "[", ".", "->", "++", "--", "::"] then some (Expr.unaryPrecedence + 2)
    else operatorPrecedence? t.spelling
  else if t.isNamed "sizeof" then some Expr.unaryPrecedence
  else none

/-- Whether what follows an operator is all that is left of the expression, so that it splits
nothing behind it. -/
def takesAllBehind (t : Token) : Bool :=
  (AssignOp.ofSymbol? t.spelling).isSome || t.isPunctIn ["?", ":"]

/-- Whether the tokens next to a replacement that parses to `body` split it. -/
def splits (before after : Option Token) (body : Expr) : Bool :=
  let fromLeft := before.any fun t =>
    (precedenceBefore? t).any (body.precedence ≤ ·) && !takesAllBehind t
  let fromRight := after.any fun t =>
    (precedenceAfter? t).any fun p =>
      body.precedence < p || (p == body.precedence && body.isConditional && t.isPunct "?")
  fromLeft || fromRight

/-- The tokens before and behind a use. -/
def neighbours (code : List PlacedToken) (u : Usage) : Option PlacedToken × Option PlacedToken :=
  let before := code.takeWhile (·.position != u.token.position)
  let rest := code.dropWhile (·.position != u.token.position)
  let last := if u.arguments.isEmpty then rest else rest.dropWhile (·.span.stop < u.stop)
  (before.getLast?, (last.drop 1).head?)

/-- The uses whose neighbours split the replacement. -/
def splitUses (code : List PlacedToken) (body : Expr) (usages : List Usage) : List Usage :=
  usages.filter fun u =>
    let (before, after) := neighbours code u
    splits (before.map (·.toToken)) (after.map (·.toToken)) body

/-- What the operators around its uses say about a macro whose replacement parses to `body`. A
constant that is split changes its value; a call that is split only changes its grouping. -/
def findings (code : List PlacedToken) (body : Expr) (usages : List Usage) (isConstant : Bool) :
    List Finding × List Hazard :=
  if body.isPrimary then ([], [])
  else
    let lines := (splitUses code body usages).map Usage.line
    if lines.isEmpty then
      (.note (.bareOperator body.precedence) :: if isConstant then [⟨.medium, .bareCompound⟩]
        else [], [])
    else
      let finding : Finding :=
        if isConstant then .blocker (.regroupedValues lines) else ⟨.medium, .regroupedCalls lines⟩
      ([finding], [.usagePrecedence lines])

end Demacro.Grouping
