import Demacro.Binary64.Text
import Demacro.Constant.Folding
import Demacro.Expr.Parser
import Demacro.Usage

/-!
What a macro turned out to be: its pattern, how sure that is, and why. A classification rests on
findings. Each finding is a remark together with the highest confidence that it leaves.
-/

namespace Demacro

/-- The patterns that macros follow. -/
inductive Pattern where
  | simpleConstant
  | pointerConstant
  | classScopedConstant
  | enumHackCandidate
  | functionLikeMacro
  | unclassified
deriving DecidableEq

namespace Pattern

/-- The name of a pattern. -/
def name : Pattern → String
  | simpleConstant => "SimpleConstant"
  | pointerConstant => "PointerConstant"
  | classScopedConstant => "ClassScopedConstant"
  | enumHackCandidate => "EnumHackCandidate"
  | functionLikeMacro => "FunctionLikeMacro"
  | unclassified => "Unclassified"

/-- All patterns. -/
def all : List Pattern :=
  [simpleConstant, pointerConstant, classScopedConstant, enumHackCandidate, functionLikeMacro,
    unclassified]

/-- The pattern with a name. -/
def ofName? (name : String) : Option Pattern :=
  all.find? (·.name == name)

end Pattern

/-- Line numbers as they are listed in texts. -/
def listLines (lines : List Nat) : String :=
  ", ".intercalate (lines.map toString)

/-- A danger that a function would not share with the macro. -/
inductive Hazard where
  | repeatedEvaluation (parameter : String) (count : Nat)
  | bareParameter (parameter : String) (count : Nat)
  | bareBody
  | parameterMutation (parameter : String)
  | freeVariable (name : String)
  | sideEffectArgument (parameter : String) (line : Nat) (argument : Text)
  | usagePrecedence (lines : List Nat)
deriving DecidableEq

namespace Hazard

/-- The name of the kind of a hazard. -/
def kind : Hazard → String
  | repeatedEvaluation .. => "repeated_evaluation"
  | bareParameter .. | bareBody => "precedence"
  | parameterMutation _ => "parameter_mutation"
  | freeVariable _ => "free_variable"
  | sideEffectArgument .. => "side_effect_argument"
  | usagePrecedence _ => "usage_precedence"

/-- The parameter that a hazard is about. -/
def parameter? : Hazard → Option String
  | repeatedEvaluation p _ | bareParameter p _ | parameterMutation p | sideEffectArgument p .. =>
      some p
  | bareBody | freeVariable _ | usagePrecedence _ => none

/-- A hazard in words. -/
def detail : Hazard → Text
  | repeatedEvaluation p n => "parameter '" ++ p ++ "' is evaluated " ++ toString n ++ " times"
  | bareParameter p n =>
    "parameter '" ++ p ++ "' is not parenthesized (" ++ toString n ++ " occurrence(s))"
  | bareBody => "replacement list is not enclosed in parentheses"
  | parameterMutation p => "parameter '" ++ p ++ "' is modified by the replacement list"
  | freeVariable name => "'" ++ name ++ "' is resolved at each call site"
  | sideEffectArgument p line argument =>
    "call at line " ++ toString line ++ " passes side-effecting argument '" ++ argument
      ++ "' to repeated parameter '" ++ p ++ "'"
  | usagePrecedence lines =>
    "surrounding operators bind into the replacement list at line(s) " ++ listLines lines

end Hazard

/-- What a parameter is used as where no expression can stand. -/
inductive ParameterMisuse where
  | memberName
  | qualifier
  | type
deriving DecidableEq

/-- A misuse in words. -/
def ParameterMisuse.message : ParameterMisuse → String
  | memberName => "is used as a member name"
  | qualifier => "is used as a scope qualifier"
  | type => "is used as a type"

/-- Something that was noticed about a macro. -/
inductive Remark where
  | conditionalDefinition
  | tested (keyword : String) (line : Nat)
  | stray (reason : StrayReason) (line : Nat)
  | unresolved (line : Nat) (fault : CallFault)
  | disputedScope
  | mergedRedefinitions
  | includedAgain (path : String)
  | dependsOnLater (name : String)
  | dependsElsewhere (name place : String)
  | dependsOnUnsure (name : String) (confidence : Confidence)
  | dependsOnConstant (name : String)
  | functionInFunction
  | usedOutsideBlock (line : Nat)
  | hiddenMember (access : Access) (className : Option String) (line : Nat)
  | usedOutsideUnnamed (kind : ScopeKind) (line : Nat)
  | usedOutside (place : String) (line : Nat)
  | unknownExpansion (through : String)
  | expandedOutside (place through : String) (line : Nat)
  | bareOperator (precedence : Nat)
  | bareCompound
  | regroupedValues (lines : List Nat)
  | regroupedCalls (lines : List Nat)
  /-- Something that the folding of the replacement assumed. -/
  | assumption (text : String)
  | uncertainType
  | unknownPointee (initializer : String)
  | foldsTo (type : String) (value : Option Constant.Number)
  | pointerForm
  | insideClass (place : String)
  | forcedEnum
  | constantUse (line : Nat)
  | misusedParameter (parameter : String) (misuse : ParameterMisuse)
  | usesThis
  | mutatedParameter (parameter : String)
  | freeVariable (name : String)
  | singleExpression (parameters : Nat)

/-- A value as it is shown in remarks. -/
def Constant.Number.text : Constant.Number → String
  | .int n => toString n
  | .float x => Binary64.text x

/-- A remark in words. -/
def Remark.message : Remark → String
  | conditionalDefinition => "defined under conditional compilation"
  | tested keyword line => "tested by #" ++ keyword ++ " at line " ++ toString line
  | stray reason line => "identifier " ++ reason.message ++ " at line " ++ toString line
  | unresolved line fault => "unresolvable usage at line " ++ toString line ++ ": " ++ fault.message
  | disputedScope => "scope resolvers disagree on the definition site"
  | mergedRedefinitions => "identical redefinitions are merged into one declaration"
  | includedAgain path =>
    "defined in " ++ path ++ " which is included more than once without an include guard"
  | dependsOnLater name => "depends on '" ++ name ++ "' which is defined later"
  | dependsElsewhere name place => "depends on '" ++ name ++ "' declared in " ++ place
  | dependsOnUnsure name confidence =>
    "depends on '" ++ name ++ "' classified with " ++ confidence.name ++ " confidence"
  | dependsOnConstant name => "references constant macro '" ++ name ++ "'"
  | functionInFunction => "function-like macro defined inside a function body"
  | usedOutsideBlock line => "used outside the block it is defined in at line " ++ toString line
  | hiddenMember access className line =>
    access.name ++ " class constant used outside class " ++ className.getD "None" ++ " at line "
      ++ toString line
  | usedOutsideUnnamed kind line =>
    "used outside unnamed " ++ kind.name ++ " scope at line " ++ toString line
  | usedOutside place line =>
    "used outside " ++ place ++ " at line " ++ toString line ++ "; pollutes the enclosing namespace"
  | unknownExpansion through =>
    "referenced by macro '" ++ through ++ "' whose expansion sites are unknown"
  | expandedOutside place through line =>
    "expanded outside " ++ place ++ " through macro '" ++ through ++ "' at line " ++ toString line
  | bareOperator precedence =>
    "replacement list has an unparenthesized top-level operator (precedence "
      ++ toString precedence ++ ")"
  | bareCompound => "unparenthesized compound replacement list"
  | regroupedValues lines =>
    "rewrite would change the value of usages at line(s) " ++ listLines lines
  | regroupedCalls lines => "rewrite changes the grouping of calls at line(s) " ++ listLines lines
  | assumption text => text
  | uncertainType => "constant typing is uncertain"
  | unknownPointee initializer =>
    "null pointer constant '" ++ initializer ++ "' has no known pointee type"
  | foldsTo type value => "folds to " ++ type ++ value.elim "" fun v => " " ++ v.text
  | pointerForm => "string or pointer literal needs a const pointee and a const pointer"
  | insideClass place => "defined inside " ++ place
  | forcedEnum => "class constant style forces the enum hack"
  | constantUse line =>
    "used in a constant expression inside the class body at line " ++ toString line
  | misusedParameter parameter misuse => "parameter '" ++ parameter ++ "' " ++ misuse.message
  | usesThis => "replacement list uses 'this'"
  | mutatedParameter parameter =>
    "parameter '" ++ parameter ++ "' is modified; taken by non-const reference"
  | freeVariable name =>
    "free variable '" ++ name ++ "' binds at the definition instead of each call site"
  | singleExpression n => "single-expression body over " ++ toString n ++ " parameter(s)"

/-- A remark and the highest confidence that it leaves. -/
structure Finding where
  limit : Confidence
  remark : Remark

namespace Finding

/-- A finding that takes nothing away. -/
def note (remark : Remark) : Finding :=
  ⟨.high, remark⟩

/-- A finding that rules out any change of the macro. -/
def blocker (remark : Remark) : Finding :=
  ⟨.blocked, remark⟩

/-- The confidence that findings leave. -/
def confidence (findings : List Finding) : Confidence :=
  findings.foldl (fun c f => c.lower f.limit) .high

/-- The remarks in words, each once. -/
def evidence (findings : List Finding) : List String :=
  appendNew [] (findings.map (·.remark.message))

/-- What rules out any change of the macro, in words; nothing if nothing does. -/
def reason? (findings : List Finding) : Option Text :=
  let blockers := findings.filter (·.limit == .blocked)
  if blockers.isEmpty then none else some ("; ".intercalate (evidence blockers))

end Finding

/-- What is needed to declare the replacement of a macro. -/
inductive Payload where
  | constant (typeName : String) (initializer : Text) (integral : Bool)
      (value : Option Constant.Number)
  /-- A pointer to constant characters, or to nothing that is known. -/
  | pointer (charType : Option String) (initializer : Text) (stringType : Option String)
  | function (parameters : List String) (body : Text) (mutated free : List String)

/-- Why a macro follows no pattern. -/
inductive Refusal where
  | recursive
  | ambiguous (detail : String)
  | disabled
  | includeGuard
  | emptySpan
  | emptyReplacement
  | pasting
  | stringizing
  | statements
  | invokes (name : String)
  | notExpression (fault : SyntaxFault)
  | comma
  | dependsOn (name : String) (reason : Text)
  | notFoldable (reason : Text)
  | variadic
  | noParameters

namespace Refusal

/-- A refusal in words. -/
def message : Refusal → Text
  | recursive => "recursive macro reference"
  | ambiguous detail => "ambiguous redefinition: " ++ detail
  | disabled => "defined only in a disabled branch"
  | includeGuard => "include guard"
  | emptySpan => "active span is empty"
  | emptyReplacement => "empty replacement list"
  | pasting => "relies on token pasting"
  | stringizing => "relies on stringizing"
  | statements => "multi-statement body"
  | invokes name => "replacement invokes function-like macro '" ++ name ++ "'"
  | notExpression fault => "replacement is not a single expression: " ++ fault.message
  | comma => "top-level comma operator"
  | dependsOn name reason => "depends on Unclassified macro '" ++ name ++ "' (" ++ reason ++ ")"
  | notFoldable reason => "not constant-foldable: " ++ reason
  | variadic => "variadic parameter list"
  | noParameters => "function-like macro without parameters"

/-- Whether such a macro holds nothing to replace. -/
def isSkip : Refusal → Bool
  | disabled | includeGuard | emptySpan | emptyReplacement => true
  | _ => false

end Refusal

/-- A definition with all directives about its name in the unit. -/
structure DefinitionRecord extends ActiveSpan where
  events : List Event

namespace DefinitionRecord

/-- The lines of the definitions of the name. -/
def lines (d : DefinitionRecord) : List Nat :=
  (d.events.filter (·.directive.isDefine)).map (·.directive.span.line)

end DefinitionRecord

/-- A use from where the name must be qualified. -/
structure QualifiedUsage where
  usage : Usage
  qualifier : String

/-- What a macro of a unit turned out to be. -/
structure Classification where
  name : String
  pattern : Pattern
  confidence : Confidence
  evidence : List String := []
  hazards : List Hazard := []
  reason : Option Text := none
  definition : Option DefinitionRecord := none
  context : Option Context := none
  payload : Option Payload := none
  /-- What the replacement folds to. -/
  value : Option Constant := none
  usages : List Usage := []
  qualified : List QualifiedUsage := []
  /-- The macros whose replacements mention this one. -/
  referencedBy : List String := []
  /-- The macro holds nothing to replace. -/
  skipped : Bool := false

namespace Classification

/-- Whether the macro follows a pattern. -/
def isClassified (c : Classification) : Bool :=
  c.pattern != .unclassified

/-- The path of the file with the definition. -/
def path? (c : Classification) : Option String :=
  c.definition.map (·.definition.span.path)

/-- The evidence and the hazards in words, or else the pattern. -/
def grounds (c : Classification) : Text :=
  let parts := c.evidence.map Text.ofString ++ c.hazards.map Hazard.detail
  if parts.isEmpty then c.pattern.name else Text.joinWith "; " parts

/-- Why the macro was classified so, in one line. -/
def rationale (c : Classification) : Text :=
  match c.reason with
  | some reason => if reason.isEmpty then c.grounds else reason
  | none => c.grounds

end Classification

end Demacro
