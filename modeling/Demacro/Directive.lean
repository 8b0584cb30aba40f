import Demacro.Fault
import Demacro.Token

/-!
Macro directives: what a `#define` gives to a name, and the parsing of the lines `#define` and
`#undef`.
-/

namespace Demacro

/-- How a macro is written when it is used: its name alone, or its name with arguments. -/
inductive Shape where
  | object
  | function (parameters : List String) (variadic : Bool)
deriving DecidableEq

namespace Shape

/-- Whether uses of the macro have arguments. -/
def isFunction : Shape → Bool
  | object => false
  | function .. => true

/-- The names of the parameters. -/
def parameters : Shape → List String
  | object => []
  | function ps _ => ps

/-- Whether the parameters end with an ellipsis. -/
def isVariadic : Shape → Bool
  | object => false
  | function _ v => v

end Shape

/-- What a `#define` line gives to a name. The span is that of the whole line. -/
structure Definition where
  name : String
  span : Span
  shape : Shape
  replacement : List Token
deriving DecidableEq

namespace Definition

/-- What two definitions must share for the second to be a harmless repetition: the shape and the
lexemes of the replacement, but not the white space between them. -/
def signature (d : Definition) : Shape × List Text :=
  (d.shape, d.replacement.map Token.lexeme)

/-- The text of the replacement. -/
def text (d : Definition) : Text :=
  Token.render d.replacement

end Definition

/-- A line that defines a macro or removes its definition. -/
inductive Directive where
  | define (definition : Definition)
  | undef (name : String) (span : Span)
deriving DecidableEq

namespace Directive

/-- The macro that the directive is about. -/
def name : Directive → String
  | define d => d.name
  | undef n _ => n

/-- The text of the whole directive. -/
def span : Directive → Span
  | define d => d.span
  | undef _ s => s

/-- Whether the directive defines a macro. -/
def isDefine : Directive → Bool
  | define _ => true
  | undef .. => false

/-- The keyword of the directive. -/
def keyword : Directive → String
  | define _ => "define"
  | undef .. => "undef"

/-- Whether a logical line is a directive. -/
def isLine (line : List Token) : Bool :=
  line.head?.any (·.isPunct "#")

/-- The keyword of a directive line, empty if there is none, and the tokens behind it. -/
def split (line : List Token) : String × List Token :=
  match line.drop 1 with
  | t :: ts => if t.isIdentifier then (t.spelling, ts) else ("", t :: ts)
  | [] => ("", [])

/-- The span from the first to the last token of a line. -/
def lineSpan (first : Token) (rest : List Token) : Span :=
  { first.span with stop := (rest.getLastD first).span.stop }

/-- A fault at the place of a span. -/
def faultAt (fault : Fault) (s : Span) : ParseError :=
  ⟨fault, s.path, s.line, s.column⟩

/-- The parameters behind `done` and an opening parenthesis, and the tokens behind the closing one.
`variadic` says that the ellipsis was seen, `expecting` that a parameter must come next, and `last`
is where an unclosed list is reported. -/
def parameters (last : Span) (done : List String) (variadic expecting : Bool) :
    List Token → Except ParseError (Shape × List Token)
  | [] => .error (faultAt .unclosedParameterList last)
  | t :: ts =>
    if t.isPunct ")" then
      if expecting && !done.isEmpty then .error (faultAt .missingLastParameter t.span)
      else .ok (.function done variadic, ts)
    else if variadic then .error (faultAt .parameterAfterEllipsis t.span)
    else if expecting then
      if t.isPunct "..." then parameters last done true false ts
      else if t.isIdentifier then
        if done.contains t.spelling then .error (faultAt (.duplicateParameter t.spelling) t.span)
        else
          match ts with
          | e :: rest =>
            if e.isPunct "..." then parameters last (done ++ [t.spelling]) true false rest
            else parameters last (done ++ [t.spelling]) false false (e :: rest)
          | [] => .error (faultAt .unclosedParameterList last)
      else .error (faultAt .badParameter t.span)
    else if t.isPunct "," then parameters last done false true ts
    else .error (faultAt .missingParameterSeparator t.span)
termination_by ts => ts.length

/-- What the line of a `#define` gives to a name. -/
def define? (first : Token) (rest : List Token) : Except ParseError Definition :=
  let span := lineSpan first rest
  match (split (first :: rest)).2 with
  | [] => .error (faultAt (.missingName "define") span)
  | t :: ts =>
    if !t.isIdentifier then .error (faultAt .nameNotIdentifier t.span)
    else if t.isNamed "defined" then .error (faultAt .reservedName t.span)
    else
      match ts with
      | open_ :: inner =>
        if open_.isPunct "(" && !open_.spaced then
          (parameters (inner.getLastD open_).span [] false true inner).map fun (shape,
              replacement) =>
            ⟨t.spelling, span, shape, replacement⟩
        else .ok ⟨t.spelling, span, .object, ts⟩
      | [] => .ok ⟨t.spelling, span, .object, []⟩

/-- The name that the line of an `#undef` makes undefined. Further tokens do not matter. -/
def undef? (first : Token) (rest : List Token) : Except ParseError String :=
  match (split (first :: rest)).2 with
  | t :: _ =>
    if t.isIdentifier then .ok t.spelling
    else .error (faultAt (.missingName "undef") (lineSpan first rest))
  | [] => .error (faultAt (.missingName "undef") (lineSpan first rest))

/-- The macro directive on a line with the keyword `define` or `undef`; nothing for a line with
another keyword. -/
def ofLine? (keyword : String) (first : Token) (rest : List Token) :
    Option (Except ParseError Directive) :=
  if keyword = "define" then some ((define? first rest).map .define)
  else if keyword = "undef" then
    some ((undef? first rest).map fun name => .undef name (lineSpan first rest))
  else none

end Directive

end Demacro
