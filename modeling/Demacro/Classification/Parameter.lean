import Demacro.Classification

/-!
How a function-like macro uses its parameters, and how its uses fill them. A function evaluates each
argument once and as a whole; a macro puts its tokens wherever the parameter stands.
-/

namespace Demacro.Parameter

/-- A token of a replacement with the tokens before it, the nearest first, and those behind it. -/
structure Place where
  before : List Token
  token : Token
  after : List Token

/-- The places of a sequence of tokens. -/
def places (before : List Token) : List Token → List Place
  | [] => []
  | t :: ts => ⟨before, t, ts⟩ :: places (t :: before) ts

/-- The places where parameters stand. -/
def occurrences (parameters : List String) (replacement : List Token) : List Place :=
  (places [] replacement).filter fun p =>
    p.token.isIdentifier && parameters.contains p.token.spelling

/-- Whether no operator can stand next to the place. -/
def isGuarded (p : Place) : Bool :=
  p.before.head?.any (·.isPunctIn ["(", ","]) && p.after.head?.any (·.isPunctIn [")", ","])

/-- What a parameter is used as at a place, if it is no expression there. -/
def misuse? (p : Place) : Option ParameterMisuse :=
  if p.before.head?.any (·.isPunctIn [".", "->", "::"]) then some .memberName
  else if p.after.head?.any (·.isPunct "::") then some .qualifier
  else if p.before.head?.any (·.isNamed "new") then some .type
  else if p.after.head?.any fun t => t.isIdentifier && !Keyword.reserved.contains t.spelling then
    some .type
  else
    match p.before with
    | open_ :: cast :: _ =>
      if open_.isPunct "<" && Keyword.namedCasts.contains cast.spelling then some .type else none
    | _ => none

/-- The number of places of a parameter. -/
def count (parameter : String) (places : List Place) : Nat :=
  places.countP (·.token.spelling == parameter)

/-- The dangers that the places of the parameters bring. -/
def hazards (parameters : List String) (places : List Place) : List Hazard :=
  parameters.flatMap fun p =>
    let times := count p places
    let bare := count p (places.filter (!isGuarded ·))
    (if 1 < times then [Hazard.repeatedEvaluation p times] else [])
      ++ (if bare = 0 then [] else [Hazard.bareParameter p bare])

/-- The places where parameters are used as something else than an expression. -/
def misuseFindings (places : List Place) : List Finding :=
  places.filterMap fun p => (misuse? p).map fun m => .blocker (.misusedParameter p.token.spelling m)

/-- The expression that a node changes. -/
def changed? : Expr → Option Expr
  | .assign _ _ target _ => some target.stripParens
  | .unary _ (.step _) operand | .stepped _ _ operand => some operand.stripParens
  | _ => none

/-- The parameters that an expression changes, each once. -/
def mutated (parameters : List String) (body : Expr) : List String :=
  appendNew [] (body.nodes.filterMap fun node =>
    match changed? node with
    | some (.name _ text) => if parameters.contains text then some text else none
    | _ => none)

/-- The arguments with side effects that uses give to parameters that stand in several places. -/
def argumentHazards (parameters : List String) (places : List Place) (usages : List Usage) :
    List Hazard :=
  usages.flatMap fun u =>
    (parameters.zip u.arguments).filterMap fun (p, argument) =>
      if 1 < count p places ∧ Expr.tokensHaveEffect (argument.map (·.toToken)) = true then
        some (.sideEffectArgument p u.line (Text.joinWith " " (argument.map (·.lexeme))))
      else none

end Demacro.Parameter
