import Demacro.Keyword
import Demacro.Scope
import Demacro.Unit

/-!
Scopes read off the tokens of a file. The scopes around a place are opened by the braces in front of
it that have no partner in front of it; what stands before a brace says what kind of scope it opens.
This needs no syntax tree and works on files with syntax errors.
-/

namespace Demacro

/-- The first number from `low` on, below `high`, for which `p` fails, if `p` holds up to some
number and fails from there on. -/
def lowerBound (p : Nat → Bool) (low high : Nat) : Nat :=
  if low < high then
    let middle := (low + high) / 2
    if p middle then lowerBound p (middle + 1) high else lowerBound p low middle
  else low
termination_by high - low

/-- The compiled code tokens of a file. -/
structure FileTokens where
  path : String
  tokens : Array PlacedToken
  /-- The number of characters of the file. -/
  length : Nat

namespace FileTokens

/-- The tokens of a file outside disabled branches. -/
def ofCode (path : String) (code : List PlacedToken) (length : Nat) : FileTokens :=
  ⟨path, (code.filter (·.reachability != .disabled)).toArray, length⟩

/-- The number of tokens that start before an offset. -/
def countBefore (f : FileTokens) (offset : Int) : Nat :=
  lowerBound (fun i => f.tokens[i]?.any fun t => t.span.start < offset) 0 f.tokens.size

/-- The tokens that start before an offset, the nearest first. -/
def before (f : FileTokens) (offset : Int) : List PlacedToken :=
  (f.tokens.toList.take (f.countBefore offset)).reverse

/-- The tokens from an offset on. -/
def after (f : FileTokens) (offset : Int) : List PlacedToken :=
  f.tokens.toList.drop (f.countBefore offset)

end FileTokens

/-- An opening brace without a partner: the tokens before it, the nearest first, and those after
it. -/
structure OpenBrace where
  before : List PlacedToken
  brace : PlacedToken
  after : List PlacedToken

namespace OpenBrace

/-- The braces without a partner among the tokens before a place, the nearest first. `after` holds
the tokens from the place on and `closed` counts the closing braces met so far whose partners are
still to come. -/
def scan (closed : Nat) : List PlacedToken → List PlacedToken → List OpenBrace
  | [], _ => []
  | t :: before, after =>
    if t.isCloseBrace then scan (closed + 1) before (t :: after)
    else if t.isOpenBrace then
      match closed with
      | 0 => ⟨before, t, after⟩ :: scan 0 before (t :: after)
      | n + 1 => scan n before (t :: after)
    else scan closed before (t :: after)

/-- The tokens in front of the brace that belong to the same declaration or statement. -/
def header (before : List PlacedToken) : List PlacedToken :=
  (before.takeWhile fun t => !t.isBoundary).reverse

/-- The end of the brace that closes `depth` open ones. -/
def closing? (depth : Nat) : List PlacedToken → Option Nat
  | [] => none
  | t :: ts =>
    if t.isOpenBrace then closing? (depth + 1) ts
    else if t.isCloseBrace then
      if depth ≤ 1 then some t.span.stop else closing? (depth - 1) ts
    else closing? depth ts

/-- Whether a token is spelled as one of the words. -/
def isWordIn (words : List String) (t : PlacedToken) : Bool :=
  words.any fun w => t.lexeme == Text.ofString w

/-- The last class key outside angle brackets with what stands behind it. -/
def classHead? (angle : Nat) : List PlacedToken → Option (ClassKey × List PlacedToken)
  | [] => none
  | t :: ts =>
    if t.isPunct "<" then classHead? (angle + 1) ts
    else if t.isPunct ">" then classHead? (angle - 1) ts
    else
      (classHead? angle ts).orElse fun _ =>
        if angle = 0 then (ClassKey.ofName? t.spelling).map fun key => (key, ts) else none

/-- Identifiers between a class key and a base clause that are not the name of the class. -/
def notClassNames : List String :=
  ["final", "alignas", "__declspec", "__attribute__"]

/-- The name of a class, by what stands between its key and its brace. -/
def className? (tokens : List PlacedToken) : Option String :=
  let names := (tokens.takeWhile fun t => !t.isPunct ":").filter fun t =>
    t.isIdentifier && !isWordIn notClassNames t
  names.getLast?.map (·.spelling)

/-- The access at an offset in a class, by the tokens of its body: that of the last access specifier
in front of the offset that is in no inner pair of braces. -/
def accessAt (offset : Int) (access : Access) (depth : Int) : List PlacedToken → Access
  | [] => access
  | t :: ts =>
    if offset ≤ t.span.start then access
    else if t.isOpenBrace then accessAt offset access (depth + 1) ts
    else if t.isCloseBrace then accessAt offset access (depth - 1) ts
    else if depth = 0 ∧ ts.head?.any (·.isPunct ":") then
      accessAt offset ((Access.ofName? t.spelling).getD access) depth ts
    else accessAt offset access depth ts

/-- The name of the function whose parameter list is the first in a header, and the class that
qualifies it. -/
def functionName? (header : List PlacedToken) : Option (String × Option String) :=
  if header.any (·.isPunct "(") then
    match (header.takeWhile fun t => !t.isPunct "(").reverse with
    | [] => none
    | callee :: before =>
      if callee.isIdentifier && !isWordIn Keyword.statements callee
          && !isWordIn Keyword.reserved callee then
        match before with
        | colons :: owner :: _ =>
          if colons.isPunct "::" && owner.isIdentifier then
            some (owner.spelling ++ "::" ++ callee.spelling, some owner.spelling)
          else some (callee.spelling, none)
        | _ => some (callee.spelling, none)
      else none
  else none

/-- The name of a namespace, by what stands behind the word. -/
def namespaceName? (tokens : List PlacedToken) : Option String :=
  let name := String.join ((tokens.filter fun t => !isWordIn ["inline"] t).map (·.spelling))
  if name.isEmpty then none else some name

/-- The scope that a brace opens, for a place at the offset. Braces of enumerations and linkage
specifications open none. -/
def frame? (f : FileTokens) (offset : Int) (b : OpenBrace) : Option Frame :=
  let head : List PlacedToken := header b.before
  let make (shape : FrameShape) (name : Option String) : Frame :=
    ⟨shape, name, f.path, b.brace.span.start, (closing? 1 b.after).getD f.length⟩
  let fromNamespace := head.dropWhile fun t => !isWordIn ["namespace"] t
  if !fromNamespace.isEmpty then
    some (make .namespaceFrame (namespaceName? (fromNamespace.drop 1)))
  else if head.any (isWordIn ["enum"]) then none
  else
    let isLinkage :=
      match head with
      | [t, u] => isWordIn ["extern"] t && u.kind == TokenKind.string
      | _ => false
    if isLinkage then none
    else
      match (classHead? 0 head).filter fun (_, rest) => !rest.any (·.isPunct ")") with
      | some (key, rest) =>
        let access := accessAt offset key.defaultAccess 0 b.after
        some (make (.classFrame key access none) (className? rest))
      | none =>
        match functionName? head with
        | some (name, owner) => some (make (.functionFrame owner) (some name))
        | none => some (make .blockFrame none)

end OpenBrace

namespace FileTokens

/-- The braces that are open at an offset, the innermost first. -/
def openBraces (f : FileTokens) (offset : Int) : List OpenBrace :=
  OpenBrace.scan 0 (f.before offset) (f.after offset)

/-- The scopes around an offset, the outermost first. -/
def framesAt (f : FileTokens) (offset : Int) : List Frame :=
  (f.openBraces offset).reverse.filterMap (OpenBrace.frame? f offset)

/-- Whether the last comma or equality sign in front of an offset is an equality sign. -/
def behindEquals (offset : Int) (seen : Bool) : List PlacedToken → Bool
  | [] => seen
  | t :: ts =>
    if offset ≤ t.span.start then seen
    else if t.isPunct "," then behindEquals offset false ts
    else if t.isPunct "=" then behindEquals offset true ts
    else behindEquals offset seen ts

/-- Whether the tokens before a place say that a constant is required there: it is inside square
brackets, template arguments or the condition of a static assertion, behind `case`, or behind an
equality sign in an enumeration. The counts are of closing brackets whose partners are still to
come. -/
def requiresConstant (offset : Int) (square angle paren : Nat) :
    List PlacedToken → List PlacedToken → Bool
  | [], _ => false
  | t :: before, after =>
    if t.isPunct ";" || t.isCloseBrace then false
    else if t.isOpenBrace then
      (OpenBrace.header before).any (OpenBrace.isWordIn ["enum"]) && behindEquals offset false after
    else if t.isPunct "]" then requiresConstant offset (square + 1) angle paren before (t :: after)
    else if t.isPunct "[" then
      square == 0 || requiresConstant offset (square - 1) angle paren before (t :: after)
    else if t.isPunct ">" then requiresConstant offset square (angle + 1) paren before (t :: after)
    else if t.isPunct "<" then
      (angle == 0 && before.head?.any (·.isIdentifier))
        || requiresConstant offset square (angle - 1) paren before (t :: after)
    else if t.isPunct ")" then requiresConstant offset square angle (paren + 1) before (t :: after)
    else if t.isPunct "(" then
      (paren == 0 && before.head?.any (·.isNamed "static_assert"))
        || requiresConstant offset square angle (paren - 1) before (t :: after)
    else t.isNamed "case" || requiresConstant offset square angle paren before (t :: after)

/-- Whether a constant is required at an offset. -/
def isConstantPosition (f : FileTokens) (offset : Int) : Bool :=
  requiresConstant offset 0 0 0 (f.before offset) (f.after offset)

end FileTokens

end Demacro
