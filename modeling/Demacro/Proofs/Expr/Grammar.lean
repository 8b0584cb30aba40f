import Demacro.Expr.Parser

/-!
What the parser reads, as a relation: which expression stands at the front of a source, and what is
left behind it. There is no bound on the steps, and each rule says what the next token must be.
-/

namespace Demacro.Expr

/-- What is to be read. -/
inductive Goal where
  | expression
  /-- The expressions behind further commas. -/
  | items
  | assignment
  | conditional
  | binary (least : Nat)
  /-- Further operands behind `left`, which starts at the token `start`. -/
  | operands (least start : Nat) (left : Expr)
  | unary
  /-- What is behind `base`, which starts at the token `start`. -/
  | suffixes (start : Nat) (base : Expr)
  | arguments
  | primary

/-- How the first token of an operand is understood. -/
inductive Head where
  | operator (op : UnaryOp)
  | measure
  | allocate
  | free
  | other

/-- How a token is understood at the start of an operand. -/
def Head.of (t : Token) : Head :=
  match (Source.operator? t).bind UnaryOp.ofSymbol? with
  | some op => .operator op
  | none =>
    if t.isNamed "sizeof" || t.isNamed "alignof" then .measure
    else if t.isNamed "new" then .allocate
    else if t.isNamed "delete" then .free
    else .other

/-- Operators and punctuators behind an operand that belong to it. -/
def suffixOperators : List String :=
  ["(", "[", ".", "->", "++", "--"]

/-- Expressions that no other ones are read for. -/
inductive Atom : Goal → Source → (TokenRange → Expr) → Source → Prop where
  | raise {i : Nat} {t : Token} {ts : List Token} (hHead : t.isNamed "throw" = true)
      (hEnd : (Source.mk (i + 1) ts).isAtEnd = true) :
      Atom .assignment ⟨i, t :: ts⟩ (.raise · none) ⟨i + 1, ts⟩
  | measure {i : Nat} {t : Token} {ts : List Token} {rest : Source} (hHead : Head.of t = .measure)
      (hOpen : (Source.mk (i + 1) ts).isAt "(" = true)
      (hGroup : (Source.mk (i + 1) ts).skipGroup "(" ")" = .ok rest) :
      Atom .unary ⟨i, t :: ts⟩ (.measure · t.spelling none) rest
  | allocate {i : Nat} {t : Token} {ts : List Token} {rest : Source} (hHead : Head.of t = .allocate)
      (hRest : (Source.mk (i + 1) ts).skipAllocation = .ok rest) :
      Atom .unary ⟨i, t :: ts⟩ .allocate rest
  | constant {i : Nat} {t : Token} {ts : List Token} (hKind : t.kind = .number ∨ t.kind = .char) :
      Atom .primary ⟨i, t :: ts⟩ (.literal · [t]) ⟨i + 1, ts⟩
  | strings {i : Nat} {t : Token} {ts found : List Token} {rest : Source} (hKind : t.kind = .string)
      (hFound : Source.strings i (t :: ts) = (found, rest)) :
      Atom .primary ⟨i, t :: ts⟩ (.literal · found) rest
  | name {i : Nat} {t : Token} {ts : List Token} {text : String} {rest : Source}
      (hHead : t.isIdentifier = true) (hCast : Keyword.namedCasts.contains t.spelling = false)
      (hParts : Source.nameParts t.spelling (i + 1) ts = .ok (text, rest)) :
      Atom .primary ⟨i, t :: ts⟩ (.name · text) rest
  | qualified {i : Nat} {t part : Token} {ts : List Token} {text : String} {rest : Source}
      (hHead : t.isPunct "::" = true) (hPart : part.isIdentifier = true)
      (hParts : Source.nameParts ("::" ++ part.spelling) (i + 2) ts = .ok (text, rest)) :
      Atom .primary ⟨i, t :: part :: ts⟩ (.name · text) rest

/-- What can stand before an operand that is read for the same goal. -/
inductive Prefix : Goal → Source → (TokenRange → Expr → Expr) → Source → Prop where
  | throw {i : Nat} {t : Token} {ts : List Token} (hHead : t.isNamed "throw" = true)
      (hEnd : (Source.mk (i + 1) ts).isAtEnd = false) :
      Prefix .assignment ⟨i, t :: ts⟩ (fun r e => .raise r (some e)) ⟨i + 1, ts⟩
  | operator {i : Nat} {t : Token} {ts : List Token} {op : UnaryOp}
      (hHead : Head.of t = .operator op) : Prefix .unary ⟨i, t :: ts⟩ (.unary · op) ⟨i + 1, ts⟩
  | measure {i : Nat} {t : Token} {ts : List Token} (hHead : Head.of t = .measure)
      (hOpen : (Source.mk (i + 1) ts).isAt "(" = false) :
      Prefix .unary ⟨i, t :: ts⟩ (fun r e => .measure r t.spelling (some e)) ⟨i + 1, ts⟩
  | free {i : Nat} {t : Token} {ts : List Token} (hHead : Head.of t = .free)
      (hOpen : (Source.mk (i + 1) ts).isAt "[" = false) :
      Prefix .unary ⟨i, t :: ts⟩ .free ⟨i + 1, ts⟩
  | freeAll {i : Nat} {t opening closing : Token} {ts : List Token} (hHead : Head.of t = .free)
      (hOpen : Source.operator? opening = some "[") (hClose : closing.isPunct "]" = true) :
      Prefix .unary ⟨i, t :: opening :: closing :: ts⟩ .free ⟨i + 3, ts⟩
  | cast {i : Nat} {t : Token} {ts : List Token} {type : Text} {rest : Source}
      (hHead : t.isPunct "(" = true)
      (hType : (Source.mk i (t :: ts)).castType? = some (type, rest)) :
      Prefix .unary ⟨i, t :: ts⟩ (.cast · type) rest

/-- What an expression in parentheses starts with. -/
inductive Opening : Source → (TokenRange → Expr → Expr) → Source → Prop where
  | paren {i : Nat} {t : Token} {ts : List Token} (hHead : t.isPunct "(" = true) :
      Opening ⟨i, t :: ts⟩ .paren ⟨i + 1, ts⟩
  | cast {i : Nat} {t : Token} {ts : List Token} {words : List Text} {angle closed rest : Source}
      (hHead : t.isIdentifier = true) (hCast : Keyword.namedCasts.contains t.spelling = true)
      (hAngle : (Source.mk (i + 1) ts).expect "<" = .ok angle)
      (hWords : Source.angleWords [] 1 angle.index angle.tokens = .ok (words, closed))
      (hOpen : closed.expect "(" = .ok rest) :
      Opening ⟨i, t :: ts⟩ (.cast · (Text.joinWith " " words)) rest

/-- What can stand behind an operand without expressions in it. -/
inductive Suffix : Source → (TokenRange → Expr → Expr) → Source → Prop where
  | member {i : Nat} {t part : Token} {ts : List Token} {op : String}
      (hHead : Source.operator? t = some op) (hMember : op = "." ∨ op = "->")
      (hPart : part.isIdentifier = true) :
      Suffix ⟨i, t :: part :: ts⟩ (fun r e => .member r op e part.spelling) ⟨i + 2, ts⟩
  | step {i : Nat} {t : Token} {ts : List Token} {op : String} {step : StepOp}
      (hHead : Source.operator? t = some op) (hStep : StepOp.ofSymbol? op = some step) :
      Suffix ⟨i, t :: ts⟩ (.stepped · step) ⟨i + 1, ts⟩

/-- What stands behind an operand with expressions in it, for which goal they are read, and what
closes them. -/
inductive Bracket : String → Goal → String → (TokenRange → Expr → List Expr → Expr) → Prop where
  | call : Bracket "(" .arguments ")" .call
  | subscript : Bracket "[" .expression "]" fun r base es => .subscript r base (es.headD base)

/-- An operand that starts neither with an operator nor with a cast to a builtin type. -/
def Source.IsPlain (s : Source) : Prop :=
  ∃ t ∈ s.peek?, Head.of t = .other ∧ (t.isPunct "(" = true → s.castType? = none)

/-- One expression, or several with commas between them. -/
def listed (r : TokenRange) (e : Expr) (es : List Expr) : Expr :=
  if es.isEmpty then e else .comma r (e :: es)

/-- What is read for a goal from a source, and what is left. For most goals it is one expression. -/
inductive Parses : Goal → Source → List Expr → Source → Prop where
  | expression {e : Expr} {es : List Expr} {s m rest : Source} (hFirst : Parses .assignment s [e] m)
      (hItems : Parses .items m es rest) :
      Parses .expression s [listed ⟨s.index, rest.index⟩ e es] rest
  | noItem {s : Source} (hNext : s.isAt "," = false) : Parses .items s [] s
  | item {e : Expr} {es : List Expr} {s m rest : Source} (hNext : s.isAt "," = true)
      (hFirst : Parses .assignment s.next [e] m) (hItems : Parses .items m es rest) :
      Parses .items s (e :: es) rest
  | atom {g : Goal} {s rest : Source} {build : TokenRange → Expr} (hAtom : Atom g s build rest) :
      Parses g s [build ⟨s.index, rest.index⟩] rest
  | prefixed {g : Goal} {s m rest : Source} {build : TokenRange → Expr → Expr} {e : Expr}
      (hPrefix : Prefix g s build m) (hOperand : Parses g m [e] rest) :
      Parses g s [build ⟨s.index, rest.index⟩ e] rest
  | assign {s m rest : Source} {op : AssignOp} {target value : Expr}
      (hHead : s.isAtName "throw" = false) (hTarget : Parses .conditional s [target] m)
      (hOp : m.op?.bind AssignOp.ofSymbol? = some op)
      (hValue : Parses .assignment m.next [value] rest) :
      Parses .assignment s [.assign ⟨s.index, rest.index⟩ op target value] rest
  | unassigned {s rest : Source} {e : Expr} (hHead : s.isAtName "throw" = false)
      (hOperand : Parses .conditional s [e] rest) (hOp : rest.op?.bind AssignOp.ofSymbol? = none) :
      Parses .assignment s [e] rest
  | conditional {s m k l rest : Source} {condition whenTrue whenFalse : Expr}
      (hCondition : Parses (.binary BinaryOp.or.precedence) s [condition] m)
      (hMark : m.isAt "?" = true)
      (hTrue : Parses .expression m.next [whenTrue] k) (hColon : k.expect ":" = .ok l)
      (hFalse : Parses .assignment l [whenFalse] rest) :
      Parses .conditional s [.conditional ⟨s.index, rest.index⟩ condition whenTrue whenFalse] rest
  | unconditional {s rest : Source} {e : Expr}
      (hOperand : Parses (.binary BinaryOp.or.precedence) s [e] rest)
      (hMark : rest.isAt "?" = false) : Parses .conditional s [e] rest
  | binary {least : Nat} {s m rest : Source} {left e : Expr} (hLeft : Parses .unary s [left] m)
      (hOperands : Parses (.operands least s.index left) m [e] rest) :
      Parses (.binary least) s [e] rest
  | lastOperand {least start : Nat} {left : Expr} {s : Source}
      (hNext : ∀ op, s.op?.bind BinaryOp.ofSymbol? = some op → op.precedence < least) :
      Parses (.operands least start left) s [left] s
  | operand {least start : Nat} {left right e : Expr} {op : BinaryOp} {s m rest : Source}
      (hOp : s.op?.bind BinaryOp.ofSymbol? = some op) (hLeast : least ≤ op.precedence)
      (hRight : Parses (.binary (op.precedence + 1)) s.next [right] m)
      (hOperands : Parses (.operands least start (.binary ⟨start, m.index⟩ op left right)) m
        [e] rest) :
      Parses (.operands least start left) s [e] rest
  | simple {s m rest : Source} {base e : Expr} (hPlain : s.IsPlain)
      (hBase : Parses .primary s [base] m)
      (hSuffixes : Parses (.suffixes s.index base) m [e] rest) : Parses .unary s [e] rest
  | lastSuffix {start : Nat} {base : Expr} {s : Source}
      (hNext : ∀ op, s.op? = some op → op ∉ suffixOperators) :
      Parses (.suffixes start base) s [base] s
  | suffix {start : Nat} {base e : Expr} {s m rest : Source} {build : TokenRange → Expr → Expr}
      (hSuffix : Suffix s build m)
      (hSuffixes : Parses (.suffixes start (build ⟨start, m.index⟩ base)) m [e] rest) :
      Parses (.suffixes start base) s [e] rest
  | bracket {start : Nat} {base e : Expr} {es : List Expr} {s m k rest : Source} {g : Goal}
      {opener closer : String} {build : TokenRange → Expr → List Expr → Expr}
      (hBracket : Bracket opener g closer build) (hOpen : s.isAt opener = true)
      (hInner : Parses g s.next es m) (hClose : m.expect closer = .ok k)
      (hSuffixes : Parses (.suffixes start (build ⟨start, k.index⟩ base es)) k [e] rest) :
      Parses (.suffixes start base) s [e] rest
  | noArguments {s : Source} (hNext : s.isAt ")" = true) : Parses .arguments s [] s
  | arguments {e : Expr} {es : List Expr} {s m rest : Source} (hNext : s.isAt ")" = false)
      (hFirst : Parses .assignment s [e] m) (hItems : Parses .items m es rest) :
      Parses .arguments s (e :: es) rest
  | enclosed {s m k rest : Source} {build : TokenRange → Expr → Expr} {e : Expr}
      (hOpening : Opening s build m) (hInner : Parses .expression m [e] k)
      (hClose : k.expect ")" = .ok rest) :
      Parses .primary s [build ⟨s.index, rest.index⟩ e] rest

end Demacro.Expr
