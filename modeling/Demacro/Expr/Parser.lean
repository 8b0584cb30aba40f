import Demacro.Expr
import Demacro.Keyword

/-!
Parsing of expressions. The parser walks down the precedences: lists with commas, assignments,
conditional expressions, binary operators, operators before and behind their operand, and what is
closed in itself. A parenthesis opens a cast only if nothing but words of builtin types is in it.
-/

namespace Demacro

/-- Why a sequence of tokens is not one expression. -/
inductive SyntaxFault where
  | empty
  | unexpectedEnd
  | unexpected (found : Text)
  | expected (wanted : String) (found : Option Text)
  | expectedIdentifier (found : Text)
  | expectedMember (op : String)
  /-- The parser ran out of steps. There are always enough of them. -/
  | exhausted
deriving DecidableEq

/-- A fault in words. -/
def SyntaxFault.message : SyntaxFault → Text
  | empty => "empty expression"
  | unexpectedEnd => "unexpected end of expression"
  | unexpected found => "unexpected token '" ++ found ++ "'"
  | expected wanted found =>
    "expected '" ++ wanted ++ "', found '" ++ found.getD (Text.ofString "end of expression") ++ "'"
  | expectedIdentifier found => "expected identifier, found '" ++ found ++ "'"
  | expectedMember op => "expected member name after '" ++ op ++ "'"
  | exhausted => "expression too deep"

namespace Expr

/-- The tokens not read yet, and the index of the first of them. -/
structure Source where
  index : Nat
  tokens : List Token

namespace Source

/-- The next token. -/
def peek? (s : Source) : Option Token :=
  s.tokens.head?

/-- The tokens behind the next one. -/
def next (s : Source) : Source :=
  ⟨s.index + 1, s.tokens.drop 1⟩

/-- The operator or punctuator that a token is read as. -/
def operator? (t : Token) : Option String :=
  match t.kind with
  | .punctuator => some t.spelling
  | .identifier => Keyword.operatorWords.lookup t.spelling
  | _ => none

/-- The operator or punctuator that comes next. -/
def op? (s : Source) : Option String :=
  s.peek?.bind operator?

/-- Whether an operator or punctuator comes next. -/
def isAt (s : Source) (op : String) : Bool :=
  s.op? == some op

/-- Whether the next token is an identifier with the given name. -/
def isAtName (s : Source) (name : String) : Bool :=
  s.peek?.any (·.isNamed name)

/-- The next token and what is behind it. -/
def advance (s : Source) : Except SyntaxFault (Token × Source) :=
  match s.tokens with
  | t :: ts => .ok (t, ⟨s.index + 1, ts⟩)
  | [] => .error .unexpectedEnd

/-- What is behind a punctuator that must come next. -/
def expect (s : Source) (wanted : String) : Except SyntaxFault Source :=
  match s.tokens with
  | t :: ts =>
    if t.isPunct wanted then .ok ⟨s.index + 1, ts⟩ else .error (.expected wanted (some t.lexeme))
  | [] => .error (.expected wanted none)

/-- What is behind the punctuator that closes the first one; `depth` of them are open. -/
def skipBalanced (opener closer : String) (depth index : Nat) :
    List Token → Except SyntaxFault Source
  | [] => .error .unexpectedEnd
  | t :: ts =>
    if t.isPunct opener then skipBalanced opener closer (depth + 1) (index + 1) ts
    else if t.isPunct closer then
      if depth = 1 then .ok ⟨index + 1, ts⟩ else skipBalanced opener closer (depth - 1)
        (index + 1) ts
    else skipBalanced opener closer depth (index + 1) ts

/-- What is behind a balanced group that comes next. -/
def skipGroup (s : Source) (opener closer : String) : Except SyntaxFault Source :=
  skipBalanced opener closer 0 s.index s.tokens

/-- Whether an expression cannot go on here. -/
def isAtEnd (s : Source) : Bool :=
  match s.peek? with
  | none => true
  | some t => (operator? t).any fun op => op == ")" || op == "]" || op == "," || op == ":"

/-- The words of a builtin type up to a closing parenthesis, and what is behind it. -/
def typeWords? (words : List String) (index : Nat) : List Token → Option (List String × Source)
  | [] => none
  | t :: ts =>
    if t.isPunct ")" then some (words, ⟨index + 1, ts⟩)
    else if t.isIdentifier && (Keyword.arithmeticTypes.contains t.spelling
        || Keyword.typeQualifiers.contains t.spelling) || t.isPunctIn ["*", "&"] then
      typeWords? (words ++ [t.spelling]) (index + 1) ts
    else none

/-- The type of a cast that an opening parenthesis starts, and the tokens behind it. Something must
follow for it to be a cast. -/
def castType? (s : Source) : Option (Text × Source) :=
  match typeWords? [] (s.index + 1) (s.tokens.drop 1) with
  | some (words, rest) =>
    if words.any Keyword.arithmeticTypes.contains && !rest.tokens.isEmpty then
      some (" ".intercalate words, rest)
    else none
  | none => none

/-- The lexemes up to the angle bracket that closes `depth` open ones, and what is behind it. -/
def angleWords (words : List Text) (depth index : Nat) :
    List Token → Except SyntaxFault (List Text × Source)
  | [] => .error .unexpectedEnd
  | t :: ts =>
    if t.isPunct "<" then angleWords (words ++ [t.lexeme]) (depth + 1) (index + 1) ts
    else if t.isPunct ">" then
      if depth = 1 then .ok (words, ⟨index + 1, ts⟩)
      else angleWords (words ++ [t.lexeme]) (depth - 1) (index + 1) ts
    else angleWords (words ++ [t.lexeme]) depth (index + 1) ts

/-- The strings that come next, and what is behind them. -/
def strings (index : Nat) : List Token → List Token × Source
  | [] => ([], ⟨index, []⟩)
  | t :: ts =>
    if t.kind = .string then
      let (found, rest) := strings (index + 1) ts
      (t :: found, rest)
    else ([], ⟨index, t :: ts⟩)

/-- The further parts of a qualified name, and what is behind them. -/
def nameParts (text : String) (index : Nat) :
    List Token → Except SyntaxFault (String × Source)
  | [] => .ok (text, ⟨index, []⟩)
  | [t] => if operator? t == some "::" then .error .unexpectedEnd else .ok (text, ⟨index, [t]⟩)
  | t :: part :: ts =>
    if operator? t == some "::" then
      if part.isIdentifier then nameParts (text ++ "::" ++ part.spelling) (index + 2) ts
      else .error (.expectedIdentifier part.lexeme)
    else .ok (text, ⟨index, t :: part :: ts⟩)

/-- What is behind the words of a type in a `new` expression. -/
def skipTypeWords (index : Nat) : List Token → Source
  | [] => ⟨index, []⟩
  | t :: ts =>
    if t.isIdentifier || operator? t == some "::" || operator? t == some "*" then
      skipTypeWords (index + 1) ts
    else ⟨index, t :: ts⟩

/-- What is behind a `new` expression of which the keyword was read. -/
def skipAllocation (s : Source) : Except SyntaxFault Source := do
  let s ← if s.isAt "(" then s.skipGroup "(" ")" else .ok s
  let s := skipTypeWords s.index s.tokens
  let s ← if s.isAt "[" then s.skipGroup "[" "]" else .ok s
  if s.isAt "(" then s.skipGroup "(" ")"
  else if s.isAt "\x7b" then s.skipGroup "\x7b" "\x7d"
  else return s

end Source

/-- The result of parsing at the front of a source, and what is behind it. -/
abbrev Parsed := Except SyntaxFault (Expr × Source)

mutual

/-- Expressions with commas between them. -/
def parseExpression : Nat → Source → Parsed
  | 0, _ => .error .exhausted
  | fuel + 1, s => do
    let (e, rest) ← parseAssignment fuel s
    let (es, rest) ← parseItems fuel rest
    return (if es.isEmpty then e else .comma ⟨s.index, rest.index⟩ (e :: es), rest)

/-- The expressions behind further commas. -/
def parseItems : Nat → Source → Except SyntaxFault (List Expr × Source)
  | 0, _ => .error .exhausted
  | fuel + 1, s =>
    if s.isAt "," then do
      let (e, rest) ← parseAssignment fuel s.next
      let (es, rest) ← parseItems fuel rest
      return (e :: es, rest)
    else .ok ([], s)

/-- An assignment, a `throw` expression, or a conditional expression. -/
def parseAssignment : Nat → Source → Parsed
  | 0, _ => .error .exhausted
  | fuel + 1, s =>
    if s.isAtName "throw" then
      if s.next.isAtEnd then .ok (.raise ⟨s.index, s.index + 1⟩ none, s.next)
      else do
        let (e, rest) ← parseAssignment fuel s.next
        return (.raise ⟨s.index, rest.index⟩ (some e), rest)
    else do
      let (target, rest) ← parseConditional fuel s
      match rest.op?.bind AssignOp.ofSymbol? with
      | some op =>
        let (value, rest) ← parseAssignment fuel rest.next
        return (.assign ⟨s.index, rest.index⟩ op target value, rest)
      | none => return (target, rest)

/-- A conditional expression or one with binary operators. -/
def parseConditional : Nat → Source → Parsed
  | 0, _ => .error .exhausted
  | fuel + 1, s => do
    let (condition, rest) ← parseBinary fuel BinaryOp.or.precedence s
    if rest.isAt "?" then
      let (whenTrue, rest) ← parseExpression fuel rest.next
      let rest ← rest.expect ":"
      let (whenFalse, rest) ← parseAssignment fuel rest
      return (.conditional ⟨s.index, rest.index⟩ condition whenTrue whenFalse, rest)
    else return (condition, rest)

/-- Operands with binary operators of at least the given precedence between them. -/
def parseBinary : Nat → Nat → Source → Parsed
  | 0, _, _ => .error .exhausted
  | fuel + 1, least, s => do
    let (left, rest) ← parseUnary fuel s
    parseOperands fuel least s.index left rest

/-- Further operands behind `left`, which starts at the token `start`. -/
def parseOperands : Nat → Nat → Nat → Expr → Source → Parsed
  | 0, _, _, _, _ => .error .exhausted
  | fuel + 1, least, start, left, s =>
    match s.op?.bind BinaryOp.ofSymbol? with
    | some op =>
      if op.precedence < least then .ok (left, s)
      else do
        let (right, rest) ← parseBinary fuel (op.precedence + 1) s.next
        parseOperands fuel least start (.binary ⟨start, rest.index⟩ op left right) rest
    | none => .ok (left, s)

/-- An operand with the operators before it. -/
def parseUnary : Nat → Source → Parsed
  | 0, _ => .error .exhausted
  | fuel + 1, s =>
    match s.peek? with
    | none => .error .unexpectedEnd
    | some t =>
      match (Source.operator? t).bind UnaryOp.ofSymbol? with
      | some op => do
        let (e, rest) ← parseUnary fuel s.next
        return (.unary ⟨s.index, rest.index⟩ op e, rest)
      | none =>
        if t.isNamed "sizeof" || t.isNamed "alignof" then
          if s.next.isAt "(" then do
            let rest ← s.next.skipGroup "(" ")"
            return (.measure ⟨s.index, rest.index⟩ t.spelling none, rest)
          else do
            let (e, rest) ← parseUnary fuel s.next
            return (.measure ⟨s.index, rest.index⟩ t.spelling (some e), rest)
        else if t.isNamed "new" then do
          let rest ← s.next.skipAllocation
          return (.allocate ⟨s.index, rest.index⟩, rest)
        else if t.isNamed "delete" then do
          let rest ← if s.next.isAt "[" then s.next.next.expect "]" else .ok s.next
          let (e, rest) ← parseUnary fuel rest
          return (.free ⟨s.index, rest.index⟩ e, rest)
        else
          match if t.isPunct "(" then s.castType? else none with
          | some (type, rest) => do
            let (e, rest) ← parseUnary fuel rest
            return (.cast ⟨s.index, rest.index⟩ type e, rest)
          | none => do
            let (e, rest) ← parsePrimary fuel s
            parseSuffixes fuel s.index e rest

/-- Calls, subscripts, members and steps behind `e`, which starts at the token `start`. -/
def parseSuffixes : Nat → Nat → Expr → Source → Parsed
  | 0, _, _, _ => .error .exhausted
  | fuel + 1, start, e, s =>
    match s.op? with
    | none => .ok (e, s)
    | some op =>
      if op = "(" then do
        let (arguments, rest) ← parseArguments fuel s.next
        let rest ← rest.expect ")"
        parseSuffixes fuel start (.call ⟨start, rest.index⟩ e arguments) rest
      else if op = "[" then do
        let (index, rest) ← parseExpression fuel s.next
        let rest ← rest.expect "]"
        parseSuffixes fuel start (.subscript ⟨start, rest.index⟩ e index) rest
      else if op = "." ∨ op = "->" then do
        let (part, rest) ← s.next.advance
        if part.isIdentifier then
          parseSuffixes fuel start (.member ⟨start, rest.index⟩ op e part.spelling) rest
        else .error (.expectedMember op)
      else
        match StepOp.ofSymbol? op with
        | some step => parseSuffixes fuel start (.stepped ⟨start, s.index + 1⟩ step e) s.next
        | none => .ok (e, s)

/-- The arguments of a call behind its opening parenthesis. -/
def parseArguments : Nat → Source → Except SyntaxFault (List Expr × Source)
  | 0, _ => .error .exhausted
  | fuel + 1, s =>
    if s.isAt ")" then .ok ([], s)
    else do
      let (e, rest) ← parseAssignment fuel s
      let (es, rest) ← parseItems fuel rest
      return (e :: es, rest)

/-- A literal, a name, an expression in parentheses, or a cast with a word. -/
def parsePrimary : Nat → Source → Parsed
  | 0, _ => .error .exhausted
  | fuel + 1, s => do
    let (t, rest) ← s.advance
    if t.kind = .number ∨ t.kind = .char then
      return (.literal ⟨s.index, rest.index⟩ [t], rest)
    else if t.kind = .string then
      let (found, rest) := Source.strings s.index s.tokens
      return (.literal ⟨s.index, rest.index⟩ found, rest)
    else if t.isPunct "(" then
      let (e, rest) ← parseExpression fuel rest
      let rest ← rest.expect ")"
      return (.paren ⟨s.index, rest.index⟩ e, rest)
    else if t.isIdentifier && Keyword.namedCasts.contains t.spelling then
      let rest ← rest.expect "<"
      let (words, rest) ← Source.angleWords [] 1 rest.index rest.tokens
      let rest ← rest.expect "("
      let (e, rest) ← parseExpression fuel rest
      let rest ← rest.expect ")"
      return (.cast ⟨s.index, rest.index⟩ (Text.joinWith " " words) e, rest)
    else if t.isIdentifier then
      let (text, rest) ← Source.nameParts t.spelling rest.index rest.tokens
      return (.name ⟨s.index, rest.index⟩ text, rest)
    else if t.isPunct "::" then
      let (part, rest) ← rest.advance
      if part.isIdentifier then
        let (text, rest) ← Source.nameParts ("::" ++ part.spelling) rest.index rest.tokens
        return (.name ⟨s.index, rest.index⟩ text, rest)
      else .error (.expectedIdentifier part.lexeme)
    else .error (.unexpected t.lexeme)

end

/-- The expression that a sequence of tokens is. Between two tokens the parser takes fewer than
eight steps down, which bounds their number. -/
def parse (tokens : List Token) : Except SyntaxFault Expr :=
  if tokens.isEmpty then .error .empty
  else do
    let (e, rest) ← parseExpression (10 * tokens.length + 10) ⟨0, tokens⟩
    match rest.tokens with
    | t :: _ => .error (.unexpected t.lexeme)
    | [] => return e

/-- Whether evaluating tokens has a side effect. Tokens that are no expression have one if an
assignment, increment or decrement is among them. -/
def tokensHaveEffect (tokens : List Token) : Bool :=
  match parse tokens with
  | .ok e => e.effect?.isSome
  | .error _ => tokens.any fun t =>
    t.kind == .punctuator
      && ((AssignOp.ofSymbol? t.spelling).isSome || (StepOp.ofSymbol? t.spelling).isSome)

end Expr

end Demacro
