import Demacro.Directive
import Demacro.Numeral
import Demacro.Unicode.Classes

/-!
Conditional groups. The directives `#if`, `#else`, `#endif` and their relatives cut a file into
groups; the open groups around a line say how much is known about whether it is compiled. Only
conditions that are a literal truth value or number are evaluated.
-/

namespace Demacro

/-- Whether the preprocessor keeps a part of a file: always, under some conditions, or never. -/
inductive Reachability where
  | unconditional
  | conditional
  | disabled
deriving DecidableEq

/-- The name of a label. -/
def Reachability.name : Reachability → String
  | unconditional => "unconditional"
  | conditional => "conditional"
  | disabled => "disabled"

/-- What is known about the value of a condition. -/
inductive Certainty where
  | always
  | never
  | maybe
deriving DecidableEq

/-- The conditional directives. -/
inductive Conditional where
  | whenTrue
  | whenDefined
  | whenUndefined
  | elseWhenTrue
  | elseWhenDefined
  | elseWhenUndefined
  | otherwise
  | endGroup
deriving DecidableEq

namespace Conditional

/-- The keyword of a conditional directive. -/
def keyword : Conditional → String
  | whenTrue => "if"
  | whenDefined => "ifdef"
  | whenUndefined => "ifndef"
  | elseWhenTrue => "elif"
  | elseWhenDefined => "elifdef"
  | elseWhenUndefined => "elifndef"
  | otherwise => "else"
  | endGroup => "endif"

/-- All conditional directives. -/
def all : List Conditional :=
  [whenTrue, whenDefined, whenUndefined, elseWhenTrue, elseWhenDefined, elseWhenUndefined,
    otherwise, endGroup]

/-- The conditional directive with a keyword. -/
def ofKeyword? (keyword : String) : Option Conditional :=
  all.find? (·.keyword == keyword)

/-- Whether the directive opens a group. -/
def isOpener : Conditional → Bool
  | whenTrue | whenDefined | whenUndefined => true
  | _ => false

/-- The texts without the pairs of parentheses that enclose all of them. -/
def withoutParentheses (ts : List Text) : List Text :=
  match ts with
  | t :: u :: us =>
    if t == Text.ofString "(" && (u :: us).getLast? == some (Text.ofString ")") then
      withoutParentheses (u :: us).dropLast
    else ts
  | _ => ts
termination_by ts.length
decreasing_by simp only [List.length_dropLast, List.length_cons]; omega

/-- The number without the letters of an integer suffix at its end. -/
def withoutSuffix (cs : List Char) : List Char :=
  (cs.reverse.dropWhile fun c => c == 'u' || c == 'U' || c == 'l' || c == 'L').reverse

/-- What is known about a condition with one lexeme. A row of digits that is no numeral is the
error. -/
def lexemeCertainty (t : Text) : Except (List Char) Certainty :=
  if t = Text.ofString "1" ∨ t = Text.ofString "true" then .ok .always
  else if t = Text.ofString "0" ∨ t = Text.ofString "false" then .ok .never
  else
    match Text.chars? t with
    | none => .ok .maybe
    | some cs =>
      let digits := withoutSuffix cs
      if digits.isEmpty || !digits.all Unicode.isDigit then .ok .maybe
      else
        match Numeral.int? 10 digits with
        | some n => .ok (if n = 0 then .never else .always)
        | none => .error digits

/-- What is known about a condition. -/
def certainty (body : List Token) : Except (List Char) Certainty :=
  match withoutParentheses (body.map Token.lexeme) with
  | [t] => lexemeCertainty t
  | _ => .ok .maybe

end Conditional

/-- What stops the reading of a unit: a malformed file, a condition that is a row of digits without
a value, or an include that cannot even be looked for. -/
inductive ScanError where
  | malformed (error : ParseError)
  | badNumeral (digits : List Char)
  | unreachable (fault : AccessFault)
deriving DecidableEq

/-- A group of conditional branches that is open, as seen from its current branch. -/
structure Group where
  /-- The directive that opened the group, and its line. -/
  opener : Conditional
  line : Nat
  /-- What is known about the current branch. -/
  current : Certainty
  /-- Whether a branch that is always taken was seen. -/
  anyAlways : Bool
  /-- Whether all branches so far are never taken. -/
  allNever : Bool
  sawElse : Bool
deriving DecidableEq

namespace Group

/-- A group whose first branch is as certain as `c`. -/
def start (opener : Conditional) (line : Nat) (c : Certainty) : Group :=
  ⟨opener, line, c, c == .always, c == .never, false⟩

/-- The group at its `#else` branch, which is taken if no other branch is. -/
def atElse (g : Group) : Group :=
  { g with
    sawElse := true
    current := if g.anyAlways then .never else if g.allNever then .always else .maybe
    anyAlways := true }

/-- The group at a further branch with a condition. -/
def atBranch (g : Group) (c : Certainty) : Group :=
  if g.anyAlways then { g with current := .never }
  else { g with current := c, anyAlways := c == .always, allNever := g.allNever && c == .never }

/-- The label of a line inside the given open groups of a file with the label `outer`. -/
def reachability (groups : List Group) (outer : Reachability) : Reachability :=
  if outer = .disabled ∨ groups.any (·.current == .never) then .disabled
  else if outer = .conditional ∨ groups.any (·.current == .maybe) then .conditional
  else .unconditional

/-- The certainty of a condition, as a step of reading a unit. -/
def certainty (body : List Token) : Except ScanError Certainty :=
  (Conditional.certainty body).mapError .badNumeral

/-- The group that an opening directive with the operands `body` starts. `live` says that the line
itself is not disabled, and `isGuard` that the group is an include guard, which is taken to hold. -/
def opened (c : Conditional) (body : List Token) (span : Span) (live isGuard : Bool) :
    Except ScanError Group := do
  let fault (f : Fault) : ScanError := .malformed (Directive.faultAt f span)
  let known ←
    if c = .whenTrue then
      if live && body.isEmpty then .error (fault .missingCondition) else certainty body
    else if live && !body.head?.any (·.isIdentifier) then .error (fault (.missingName c.keyword))
    else .ok .maybe
  return start c span.line (if isGuard then .always else known)

/-- The open groups behind a conditional directive, innermost first. -/
def next (groups : List Group) (c : Conditional) (body : List Token) (span : Span)
    (live isGuard : Bool) : Except ScanError (List Group) :=
  if c.isOpener then (opened c body span live isGuard).map (· :: groups)
  else
    match groups with
    | [] => .error (.malformed (Directive.faultAt (.withoutOpener c.keyword) span))
    | g :: outer =>
      if c = .endGroup then .ok outer
      else if g.sawElse then .error (.malformed (Directive.faultAt (.afterElse c.keyword) span))
      else if c = .otherwise then .ok (g.atElse :: outer)
      else if g.anyAlways || c ≠ .elseWhenTrue then .ok (g.atBranch .maybe :: outer)
      else (certainty body).map fun known => g.atBranch known :: outer

end Group

end Demacro
