import Demacro.Conditional
import Demacro.Path
import Demacro.Token.Lexer

/-!
Compilation units: the logical lines of a file and of the files that it includes, in the order in
which the preprocessor meets them, each with its label. Tokens are numbered through the whole unit.
-/

namespace Demacro

/-- What a logical line is for the preprocessor. -/
inductive LineRole where
  | code
  /-- A directive with its keyword (empty if there is none), the macro directive that it holds, and
  whether it is an include that could not be followed. -/
  | directive (keyword : String) (change : Option Directive) (unresolved : Bool)
deriving DecidableEq

/-- A logical line of a unit. -/
structure UnitLine where
  first : Token
  rest : List Token
  reachability : Reachability
  role : LineRole

/-- A token at its place in a unit. -/
structure PlacedToken extends Token where
  position : Nat
  reachability : Reachability

/-- A directive line at its place in a unit, with the tokens behind its keyword. -/
structure DirectiveLine where
  keyword : String
  operands : List PlacedToken
  span : Span
  reachability : Reachability
  position : Nat

/-- A macro directive at its place in a unit: the positions of its first and last token. -/
structure Event where
  directive : Directive
  position : Nat
  lastPosition : Nat
  reachability : Reachability

/-- A list of pairs with the value of `key` set: in place if the key is there, else at the end. -/
def assign (key : String) (value : α) : List (String × α) → List (String × α)
  | [] => [(key, value)]
  | (k, v) :: rest => if k = key then (key, value) :: rest else (k, v) :: assign key value rest

/-- What was read so far of a unit. -/
structure Reading where
  lines : Array UnitLine := #[]
  /-- The text of each file, in the order of first reading. -/
  files : List (String × Text) := []
  /-- The include guard of each file that has one. -/
  guards : List (String × String) := []
  /-- Files that are not read again. -/
  once : List String := []

/-- The means to follow includes. -/
structure IncludeSearch where
  /-- The contents of a file. -/
  load : String → Except AccessFault (List UInt8)
  /-- Directories that are searched after that of the including file. -/
  directories : List String

/-- How deep includes may be nested. -/
def maxIncludeDepth : Nat := 64

namespace Reading

/-- The operand of a condition that asks for a name to be undefined. -/
def guardOperand? (keyword : String) (body : List Token) : Option Text :=
  match body with
  | [t] => if keyword = "ifndef" ∧ t.isIdentifier then some t.lexeme else none
  | [a, b, c] =>
    if keyword = "if" ∧ a.lexeme = Text.ofString "!" ∧ b.lexeme = Text.ofString "defined" then
      some c.lexeme
    else none
  | [a, b, c, d, e] =>
    if keyword = "if" ∧ a.lexeme = Text.ofString "!" ∧ b.lexeme = Text.ofString "defined"
        ∧ c.lexeme = Text.ofString "(" ∧ e.lexeme = Text.ofString ")" then
      some d.lexeme
    else none
  | _ => none

/-- Whether the `depth` groups that are open before the lines are all closed for the first time on
the last line. -/
def closesAtEnd : Nat → List (List Token) → Bool
  | _, [] => false
  | depth, line :: lines =>
    let keyword := if Directive.isLine line then (Directive.split line).1 else ""
    match Conditional.ofKeyword? keyword with
    | some .endGroup => if depth = 1 then lines.isEmpty else closesAtEnd (depth - 1) lines
    | some c => closesAtEnd (if c.isOpener then depth + 1 else depth) lines
    | none => closesAtEnd depth lines

/-- The include guard of a file: its first two lines ask for a name to be undefined and define it,
and the group that the first line opens is closed on the last line. -/
def includeGuard? (lines : List (List Token)) : Option Text :=
  match lines with
  | opening :: defining :: rest =>
    if Directive.isLine opening && Directive.isLine defining then
      let (keyword, body) := Directive.split opening
      let (second, operands) := Directive.split defining
      match guardOperand? keyword body with
      | some guard =>
        if second = "define" ∧ operands.map Token.lexeme = [guard] ∧ closesAtEnd 1 rest then
          some guard
        else none
      | none => none
    else none
  | _ => none

/-- The path in a quoted include. -/
def quotedTarget? (body : List Token) : Option Text :=
  match body with
  | [t] =>
    if t.kind = .string ∧ t.lexeme.head? = some (.char '"') ∧ 2 ≤ t.lexeme.length then
      some (t.lexeme.drop 1).dropLast
    else none
  | _ => none

/-- The first file that an include of `target` can mean, if it is looked for in the given
directories. A file that cannot be read is passed over; a path that can be no file's path ends the
search. -/
def findIn (load : String → Except AccessFault (List UInt8)) (target : String) :
    List String → Except AccessFault (Option (String × List UInt8))
  | [] => .ok none
  | directory :: directories =>
    let path := Path.normal (Path.join directory target)
    match load path with
    | .ok data => .ok (some (path, data))
    | .error fault => if fault.isPathFault then .error fault else findIn load target directories

/-- The first file that an include of `target` in the file `includer` can mean. -/
def resolve (search : IncludeSearch) (includer : String) (target : Text) :
    Except AccessFault (Option (String × List UInt8)) :=
  match Text.chars? target with
  | none => .ok none
  | some cs =>
    findIn search.load (String.ofList cs) (Path.directory includer :: search.directories)

/-- One more line. -/
def add (r : Reading) (line : UnitLine) : Reading :=
  { r with lines := r.lines.push line }

/-- A file that is not to be read again. -/
def addOnce (r : Reading) (path : String) : Reading :=
  { r with once := path :: r.once }

/-- Reads another file at the place of an include. -/
abbrev Follow := String → Text → Reachability → Reading → Except ScanError Reading

/-- Reads the file that an include line names. The line itself is added in front. `follow` reads the
included file; there is none when includes are nested too deeply. -/
def addInclude (search : Option IncludeSearch) (follow : Option Follow) (path : String)
    (body : List Token) (line : Bool → UnitLine) (span : Span) (reach : Reachability)
    (r : Reading) : Except ScanError Reading :=
  match search with
  | none => .ok (r.add (line false))
  | some search =>
    match quotedTarget? body with
    | none => .ok (r.add (line true))
    | some target =>
      match follow with
      | none => .error (.malformed (Directive.faultAt .tooDeep span))
      | some follow =>
        match resolve search path target with
        | .error fault => .error (.unreachable fault)
        | .ok none => .ok (r.add (line true))
        | .ok (some (included, data)) =>
          if r.once.contains included then .ok (r.add (line false))
          else follow included (Text.decode data) reach (r.add (line false))

/-- Reads a directive line that is not conditional. -/
def addDirective (search : Option IncludeSearch) (follow : Option Follow) (path : String)
    (first : Token) (rest : List Token) (reach : Reachability) (r : Reading) :
    Except ScanError Reading :=
  let (keyword, body) := Directive.split (first :: rest)
  let line (change : Option Directive) (unresolved : Bool) : UnitLine :=
    ⟨first, rest, reach, .directive keyword change unresolved⟩
  match Directive.ofLine? keyword first rest with
  | some (.ok d) => .ok (r.add (line (some d) false))
  | some (.error e) =>
    if reach = .disabled then .ok (r.add (line none false)) else .error (.malformed e)
  | none =>
    if keyword = "include" ∧ reach ≠ .disabled then
      addInclude search follow path body (line none) (Directive.lineSpan first rest) reach r
    else if keyword = "pragma" ∧ body.head?.any (·.lexeme == Text.ofString "once") then
      .ok ((r.add (line none false)).addOnce path)
    else .ok (r.add (line none false))

/-- Reads one logical line inside the given open groups. -/
def addLine (search : Option IncludeSearch) (follow : Option Follow) (path : String)
    (outer : Reachability) (isGuard : Bool) (first : Token) (rest : List Token)
    (groups : List Group) (r : Reading) : Except ScanError (List Group × Reading) :=
  if first.isPunct "#" then
    let (keyword, body) := Directive.split (first :: rest)
    match Conditional.ofKeyword? keyword with
    | some c => do
      let reach := Group.reachability (if c.isOpener then groups else groups.drop 1) outer
      let groups ← Group.next groups c body (Directive.lineSpan first rest)
        (reach != .disabled) isGuard
      return (groups, r.add ⟨first, rest, reach, .directive keyword none false⟩)
    | none => do
      let r ← addDirective search follow path first rest (Group.reachability groups outer) r
      return (groups, r)
  else .ok (groups, r.add ⟨first, rest, Group.reachability groups outer, .code⟩)

/-- Reads logical lines inside the given open groups. -/
def addLines (search : Option IncludeSearch) (follow : Option Follow) (path : String)
    (outer : Reachability) (isGuard : Bool) : List (List Token) → List Group → Reading →
    Except ScanError (List Group × Reading)
  | [], groups, r => .ok (groups, r)
  | [] :: lines, groups, r => addLines search follow path outer false lines groups r
  | (first :: rest) :: lines, groups, r => do
    let (groups, r) ← addLine search follow path outer isGuard first rest groups r
    addLines search follow path outer false lines groups r

/-- Reads a file. -/
def addFile (search : Option IncludeSearch) (follow : Option Follow) (path : String) (text : Text)
    (outer : Reachability) (r : Reading) : Except ScanError Reading :=
  match Token.ofText path text with
  | .error e => .error (.malformed e)
  | .ok tokens => do
    let lines := Token.logicalLines tokens
    let guard := includeGuard? lines
    let r := { r with
      files := assign path text r.files
      guards := guard.elim r.guards fun g => assign path g.display r.guards }
    let (groups, r) ← addLines search follow path outer guard.isSome lines [] r
    match groups with
    | g :: _ =>
      .error (.malformed ⟨.unterminatedConditional g.opener.keyword, path, g.line, 1⟩)
    | [] => return if guard.isSome then r.addOnce path else r

/-- Reads a file in which includes may be nested `budget` deep. -/
def addFileWithin (search : Option IncludeSearch) : Nat → Follow
  | 0 => addFile search none
  | budget + 1 => addFile search (some (addFileWithin search budget))

end Reading

/-- A compilation unit. -/
structure CompilationUnit where
  path : String
  lines : List UnitLine
  files : List (String × Text)
  guards : List (String × String)

namespace CompilationUnit

/-- Reads the unit of the file `path` with the given text. Without a search, includes are not
followed. -/
def read (path : String) (text : Text) (search : Option IncludeSearch) :
    Except ScanError CompilationUnit := do
  let r ← Reading.addFileWithin search maxIncludeDepth path text .unconditional {}
  return ⟨path, r.lines.toList, r.files, r.guards⟩

/-- The lines with the position of the first token of each, if `n` tokens come before them. -/
def numbered (n : Nat) : List UnitLine → List (Nat × UnitLine)
  | [] => []
  | line :: lines => (n, line) :: numbered (n + line.rest.length + 1) lines

/-- The lines with the position of the first token of each. -/
def placedLines (u : CompilationUnit) : List (Nat × UnitLine) :=
  numbered 0 u.lines

/-- The tokens of a line whose first token has position `n`. -/
def placeTokens (n : Nat) (reach : Reachability) : List Token → List PlacedToken
  | [] => []
  | t :: ts => { t with position := n, reachability := reach } :: placeTokens (n + 1) reach ts

/-- All tokens of the unit, those of directives among them. -/
def tokens (u : CompilationUnit) : List PlacedToken :=
  u.placedLines.flatMap fun (n, line) => placeTokens n line.reachability (line.first :: line.rest)

/-- The tokens outside directives. -/
def codeTokens (u : CompilationUnit) : List PlacedToken :=
  u.placedLines.flatMap fun (n, line) =>
    match line.role with
    | .code => placeTokens n line.reachability (line.first :: line.rest)
    | .directive .. => []

/-- The directive lines for which `p` holds of the keyword and of whether the line is an include
that could not be followed. -/
def linesWhere (u : CompilationUnit) (p : String → Bool → Bool) : List DirectiveLine :=
  u.placedLines.filterMap fun (n, line) =>
    match line.role with
    | .code => none
    | .directive keyword _ unresolved =>
      if p keyword unresolved then
        let operands := (placeTokens n line.reachability (line.first :: line.rest)).drop
          (if keyword = "" then 1 else 2)
        some ⟨keyword, operands, Directive.lineSpan line.first line.rest, line.reachability, n⟩
      else none

/-- All directive lines. -/
def directiveLines (u : CompilationUnit) : List DirectiveLine :=
  u.linesWhere fun _ _ => true

/-- The includes that could not be followed. -/
def unresolvedIncludes (u : CompilationUnit) : List DirectiveLine :=
  u.linesWhere fun _ unresolved => unresolved

/-- The lines that start a branch of a conditional group. -/
def conditionalLines (u : CompilationUnit) : List DirectiveLine :=
  u.linesWhere fun keyword _ => (Conditional.ofKeyword? keyword).any (· != .endGroup)

/-- The macro directives. -/
def events (u : CompilationUnit) : List Event :=
  u.placedLines.filterMap fun (n, line) =>
    match line.role with
    | .directive _ (some d) _ => some ⟨d, n, n + line.rest.length, line.reachability⟩
    | _ => none

/-- The text of a file of the unit. -/
def file? (u : CompilationUnit) (path : String) : Option Text :=
  u.files.lookup path

end CompilationUnit

end Demacro
