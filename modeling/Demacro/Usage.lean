import Demacro.MacroTable
import Demacro.Scope.Resolution

/-!
Where the macros of a unit are used. Every identifier in compiled code that is spelled like a macro
is looked up at its position: it is a use of the definition in force there, or it stands where the
name does not expand, or it is a call whose arguments do not fit. Arguments end at the commas and at
the closing parenthesis that stand in no inner pair of parentheses; other brackets do not count.
-/

namespace Demacro

namespace Arguments

/-- The arguments with one more token in front of the first. -/
def push (t : PlacedToken) : List (List PlacedToken) × Nat → List (List PlacedToken) × Nat
  | (argument :: arguments, n) => ((t :: argument) :: arguments, n + 1)
  | ([], n) => ([[t]], n + 1)

/-- The arguments in tokens that stand inside `depth` open parentheses, up to the parenthesis that
closes the list, and the number of tokens in front of that parenthesis. -/
def scan (depth : Int) : List PlacedToken → Option (List (List PlacedToken) × Nat)
  | [] => none
  | t :: ts =>
    if t.isPunct "(" then
      if depth = 0 then (scan 1 ts).map fun (arguments, n) => (arguments, n + 1)
      else (scan (depth + 1) ts).map (push t)
    else if t.isPunct ")" then
      if depth = 1 then some ([[]], 0) else (scan (depth - 1) ts).map (push t)
    else if t.isPunct "," && depth == 1 then
      (scan 1 ts).map fun (arguments, n) => ([] :: arguments, n + 1)
    else (scan depth ts).map (push t)

/-- The arguments of a list that starts with its opening parenthesis, and how many tokens come
before the closing one. A list that does not end has none. -/
def split? (tokens : List PlacedToken) : Option (List (List PlacedToken) × Nat) :=
  scan 0 tokens

end Arguments

/-- A use of a macro. -/
structure Usage where
  definition : ActiveSpan
  token : PlacedToken
  /-- The offset behind the name or, for a call, behind the argument list. -/
  stop : Nat
  arguments : List (List PlacedToken)
  context : Context
  /-- A constant is required at the place. -/
  requiresConstant : Bool
  /-- Members of the class that holds the definition can be named without a qualifier. -/
  insideClass : Bool

namespace Usage

/-- The line of the use. -/
def line (u : Usage) : Nat :=
  u.token.span.line

/-- The source of the use: the name and, for a call, the argument list. -/
def span (u : Usage) : Span :=
  { u.token.span with stop := u.stop }

end Usage

/-- Why the name of a macro does not expand. -/
inductive StrayReason where
  | outsideSpan
  | withoutArguments
deriving DecidableEq

/-- A reason in words. -/
def StrayReason.message : StrayReason → String
  | outsideSpan => "reused outside active span"
  | withoutArguments => "function-like macro name without arguments"

/-- What is wrong with the arguments of a call. -/
inductive CallFault where
  | unterminated
  | tooFew (least got : Nat)
  | count (expected got : Nat)
  | emptyArgument
deriving DecidableEq

/-- A fault in words. -/
def CallFault.message : CallFault → String
  | unterminated => "unterminated argument list"
  | tooFew least got =>
    "expected at least " ++ toString least ++ " arguments, got " ++ toString got
  | count expected got => "expected " ++ toString expected ++ " arguments, got " ++ toString got
  | emptyArgument => "empty macro argument"

/-- What an identifier that is spelled like a macro is. -/
inductive Occurrence where
  | usage (u : Usage)
  | stray (token : PlacedToken) (reason : StrayReason)
  | unresolved (token : PlacedToken) (fault : CallFault)

namespace Occurrence

/-- The identifier. -/
def token : Occurrence → PlacedToken
  | usage u => u.token
  | stray t _ => t
  | unresolved t _ => t

/-- What is wrong with the arguments of a call of a macro of the given shape. -/
def callFault? (shape : Shape) (arguments : List (List PlacedToken)) : Option CallFault :=
  let expected := shape.parameters.length
  let got := arguments.length
  let isEmptyList : Bool :=
    match arguments with
    | [[]] => true
    | _ => false
  if expected = 0 ∧ isEmptyList then none
  else if shape.isVariadic then if got < expected then some (.tooFew expected got) else none
  else if got ≠ expected then some (.count expected got)
  else if arguments.any List.isEmpty then some .emptyArgument
  else none

/-- A use of a definition at a token. -/
def makeUsage (scopes : UnitScopes) (definition : ActiveSpan) (token : PlacedToken) (stop : Nat)
    (arguments : List (List PlacedToken)) : Usage :=
  let context := scopes.contextAt token.span.path token.span.start
  { definition, token, stop, arguments, context
    requiresConstant := scopes.isConstantPosition token.span.path token.span.start stop
    insideClass := (scopes.contextOf definition.definition).class?.all context.seesClass }

/-- What the token in front of `rest` is. Nothing is said about tokens that no macro is named like,
and about macros all of whose definitions are in disabled branches. -/
def at? (table : MacroTable) (scopes : UnitScopes) (token : PlacedToken) (rest : List PlacedToken) :
    Option Occurrence :=
  let name := token.spelling
  if !token.isIdentifier || !table.contains name then none
  else
    match table.activeAt? name token.position with
    | none => if (table.liveDefinitions name).isEmpty then none else some (stray token .outsideSpan)
    | some d =>
      if !d.definition.shape.isFunction then
        some (usage (makeUsage scopes d token token.span.stop []))
      else if !rest.head?.any (·.isPunct "(") then some (stray token .withoutArguments)
      else
        match Arguments.split? rest with
        | none => some (unresolved token .unterminated)
        | some (arguments, n) =>
          match callFault? d.definition.shape arguments with
          | some fault => some (unresolved token fault)
          | none =>
            let stop := rest[n]?.elim token.span.stop fun t => t.span.stop
            some (usage (makeUsage scopes d token stop arguments))

/-- All occurrences of macro names in a sequence of code tokens. -/
def all (table : MacroTable) (scopes : UnitScopes) : List PlacedToken → List Occurrence
  | [] => []
  | t :: ts => (at? table scopes t ts).toList ++ all table scopes ts

end Occurrence

/-- The occurrences of macro names in a unit: in its code, and in its conditions. -/
structure UsageIndex where
  occurrences : List Occurrence
  /-- Names that conditional directives test, each with the line. -/
  tests : List (String × DirectiveLine)

namespace UsageIndex

/-- The names that the conditional directives of a unit test. A file's test of its own include guard
does not count. -/
def testedNames (u : CompilationUnit) : List (String × DirectiveLine) :=
  let guards := u.guards.map Prod.snd
  (u.conditionalLines.filter (·.reachability != .disabled)).flatMap fun line =>
    (line.operands.filter fun t =>
      t.isIdentifier && !t.isNamed "defined"
        && !(guards.contains t.spelling && (line.keyword == "ifndef" || line.keyword == "if"))).map
      fun t => (t.spelling, line)

/-- The compiled code tokens of a unit. -/
def liveCode (u : CompilationUnit) : List PlacedToken :=
  u.codeTokens.filter (·.reachability != .disabled)

/-- The occurrences of macro names in a unit. -/
def ofUnit (u : CompilationUnit) (table : MacroTable) (scopes : UnitScopes) : UsageIndex :=
  ⟨Occurrence.all table scopes (liveCode u), testedNames u⟩

/-- The uses of a macro. -/
def usages (x : UsageIndex) (name : String) : List Usage :=
  x.occurrences.filterMap fun
    | .usage u => if u.token.spelling = name then some u else none
    | _ => none

/-- The places where a name does not expand. -/
def strays (x : UsageIndex) (name : String) : List (PlacedToken × StrayReason) :=
  x.occurrences.filterMap fun
    | .stray t reason => if t.spelling = name then some (t, reason) else none
    | _ => none

/-- The calls of a macro whose arguments do not fit. -/
def unresolved (x : UsageIndex) (name : String) : List (PlacedToken × CallFault) :=
  x.occurrences.filterMap fun
    | .unresolved t fault => if t.spelling = name then some (t, fault) else none
    | _ => none

/-- The conditional lines that test a name, once for every mention. -/
def tested (x : UsageIndex) (name : String) : List DirectiveLine :=
  x.tests.filterMap fun (n, line) => if n = name then some line else none

end UsageIndex

end Demacro
