import Demacro.Proofs.Expr.Names
import Mathlib.Data.List.Basic

/-!
Printing. An expression that keeps to the levels of the grammar is spelled with one token for each
mark and word in it, and its nodes cover the tokens that they are spelled with.
-/

namespace Demacro

/-- The token with another kind and lexeme. -/
def Token.respelled (t : Token) (kind : TokenKind) (text : String) : Token :=
  { t with kind := kind, lexeme := text }

@[simp]
theorem Text.display_ofString (s : String) : (ofString s).display = s := by
  simp [ofString, display, List.flatMap_map, SourceChar.display]

theorem Text.ofString_inj {s t : String} : ofString s = ofString t ↔ s = t := by
  refine ⟨fun h => ?_, congrArg ofString⟩
  rw [← display_ofString s, h, display_ofString]

namespace Expr

theorem kind_of_isPunct {t : Token} {op : String} (h : t.isPunct op = true) :
    t.kind = .punctuator := by
  simp only [Token.isPunct, Bool.and_eq_true, beq_iff_eq] at h
  exact h.1

/-- A punctuator is read as itself. -/
theorem operator?_of_isPunct {t : Token} {op : String} (h : t.isPunct op = true) :
    Source.operator? t = some op := by
  obtain ⟨hKind, hLexeme⟩ : t.kind = .punctuator ∧ t.lexeme = Text.ofString op := by
    simpa [Token.isPunct] using h
  simp [Source.operator?, hKind, Token.spelling, hLexeme]

theorem kind_of_isPunctIn {t : Token} {ops : List String} (h : t.isPunctIn ops = true) :
    t.kind = .punctuator := by
  obtain ⟨op, -, hPunct⟩ := List.any_eq_true.mp h
  exact kind_of_isPunct hPunct

theorem operator?_of_isPunctIn {t : Token} {ops : List String} (h : t.isPunctIn ops = true) :
    ∃ op ∈ ops, Source.operator? t = some op := by
  obtain ⟨op, hOp, hPunct⟩ := List.any_eq_true.mp h
  exact ⟨op, hOp, operator?_of_isPunct hPunct⟩

/-- What is read as another operator is none of some punctuators. -/
theorem not_isPunctIn {t : Token} {op : String} {ops : List String}
    (h : Source.operator? t = some op) (hOp : op ∉ ops) : t.isPunctIn ops = false := by
  by_contra hPunct
  obtain ⟨op', hMem, hToken⟩ := operator?_of_isPunctIn (eq_true_of_ne_false hPunct)
  rw [h, Option.some.injEq] at hToken
  exact hOp (hToken ▸ hMem)

/-- The words and marks that the type of a cast is made of. -/
def typeWords : List String :=
  Keyword.arithmeticTypes ++ Keyword.typeQualifiers ++ ["*", "&"]

/-- The words and marks of a type. -/
def castWords (type : Text) : List String :=
  (type.splitOn (.char ' ')).map Text.display

mutual

/-- How many tokens an expression is spelled with. -/
def size : Expr → Nat
  | literal _ tokens => tokens.length
  | name .. => 1
  | paren _ e => e.size + 2
  | unary _ _ e | stepped _ _ e => e.size + 1
  | member _ _ e _ => e.size + 2
  | binary _ _ a b | assign _ _ a b => a.size + 1 + b.size
  | conditional _ a b c => a.size + 1 + b.size + 1 + c.size
  | comma _ es => sizeAll es
  | call _ e es => e.size + 1 + sizeAll es + 1
  | subscript _ a b => a.size + 1 + b.size + 1
  | cast _ type e => 1 + (castWords type).length + 1 + e.size
  | _ => 0

/-- How many tokens expressions with commas between them are spelled with. -/
def sizeAll : List Expr → Nat
  | [] => 0
  | e :: es => e.size + sizeItems es

/-- How many tokens expressions with a comma before each are spelled with. -/
def sizeItems : List Expr → Nat
  | [] => 0
  | e :: es => 1 + e.size + sizeItems es

end

attribute [simp] size sizeAll sizeItems

section

-- What a token is besides its kind and lexeme, by its place.
variable (layout : Nat → Token)

/-- The operator or punctuator at a place. -/
def mark (i : Nat) (op : String) : Token :=
  (layout i).respelled .punctuator op

/-- The word at a place. -/
def word (i : Nat) (text : String) : Token :=
  (layout i).respelled .identifier text

/-- The words and marks of a type, from a place on. -/
def printWords (i : Nat) : List String → List Token
  | [] => []
  | w :: ws =>
      (if w = "*" ∨ w = "&" then mark layout i w else word layout i w) :: printWords (i + 1) ws

mutual

/-- The tokens that an expression is spelled with, from a place on. -/
def print (i : Nat) : Expr → List Token
  | literal _ tokens => tokens
  | name _ text => [word layout i text]
  | paren _ e => mark layout i "(" :: (e.print (i + 1) ++ [mark layout (i + 1 + e.size) ")"])
  | unary _ op e => mark layout i op.symbol :: e.print (i + 1)
  | stepped _ op e => e.print i ++ [mark layout (i + e.size) op.symbol]
  | member _ op e part =>
      e.print i ++ [mark layout (i + e.size) op, word layout (i + e.size + 1) part]
  | binary _ op a b => a.print i ++ mark layout (i + a.size) op.symbol :: b.print (i + a.size + 1)
  | assign _ op a b => a.print i ++ mark layout (i + a.size) op.symbol :: b.print (i + a.size + 1)
  | conditional _ a b c =>
    a.print i ++ mark layout (i + a.size) "?" :: (b.print (i + a.size + 1)
      ++ mark layout (i + a.size + 1 + b.size) ":" :: c.print (i + a.size + 1 + b.size + 1))
  | comma _ es => printAll i es
  | call _ e es =>
    e.print i ++ mark layout (i + e.size) "(" :: (printAll (i + e.size + 1) es
      ++ [mark layout (i + e.size + 1 + sizeAll es) ")"])
  | subscript _ a b =>
    a.print i ++ mark layout (i + a.size) "[" :: (b.print (i + a.size + 1)
      ++ [mark layout (i + a.size + 1 + b.size) "]"])
  | cast _ type e =>
    mark layout i "(" :: (printWords layout (i + 1) (castWords type)
      ++ mark layout (i + 1 + (castWords type).length) ")" :: e.print
        (i + 1 + (castWords type).length + 1))
  | _ => []

/-- The tokens of expressions with commas between them. -/
def printAll (i : Nat) : List Expr → List Token
  | [] => []
  | e :: es => e.print i ++ printItems (i + e.size) es

/-- The tokens of expressions with a comma before each. -/
def printItems (i : Nat) : List Expr → List Token
  | [] => []
  | e :: es => mark layout i "," :: (e.print (i + 1) ++ printItems (i + 1 + e.size) es)

end

attribute [simp] print printAll printItems

end

mutual

/-- The same expression, with the places of the tokens that its nodes are spelled with. -/
def place (i : Nat) : Expr → Expr
  | e@(literal _ tokens) => literal ⟨i, i + e.size⟩ tokens
  | e@(name _ text) => name ⟨i, i + e.size⟩ text
  | e@(paren _ a) => paren ⟨i, i + e.size⟩ (a.place (i + 1))
  | e@(unary _ op a) => unary ⟨i, i + e.size⟩ op (a.place (i + 1))
  | e@(stepped _ op a) => stepped ⟨i, i + e.size⟩ op (a.place i)
  | e@(member _ op a part) => member ⟨i, i + e.size⟩ op (a.place i) part
  | e@(binary _ op a b) => binary ⟨i, i + e.size⟩ op (a.place i) (b.place (i + a.size + 1))
  | e@(assign _ op a b) => assign ⟨i, i + e.size⟩ op (a.place i) (b.place (i + a.size + 1))
  | e@(conditional _ a b c) =>
    conditional ⟨i, i + e.size⟩ (a.place i) (b.place (i + a.size + 1))
      (c.place (i + a.size + 1 + b.size + 1))
  | e@(comma _ es) => comma ⟨i, i + e.size⟩ (placeAll i es)
  | e@(call _ a es) => call ⟨i, i + e.size⟩ (a.place i) (placeAll (i + a.size + 1) es)
  | e@(subscript _ a b) => subscript ⟨i, i + e.size⟩ (a.place i) (b.place (i + a.size + 1))
  | e@(cast _ type a) => cast ⟨i, i + e.size⟩ type (a.place (i + 1 + (castWords type).length + 1))
  | e => e

/-- Expressions with a comma between each two, at their places. -/
def placeAll (i : Nat) : List Expr → List Expr
  | [] => []
  | e :: es => e.place i :: placeAll (i + e.size + 1) es

end

attribute [simp] place placeAll

/-- The words that are no name in an expression: they start another kind of expression, belong to a
builtin type, or are operators. -/
def words : List String :=
  ["throw", "sizeof", "alignof", "new", "delete"] ++ Keyword.namedCasts ++ Keyword.arithmeticTypes
    ++ Keyword.operatorWords.map Prod.fst

/-- Expressions that keep to the levels of the grammar: operands hold together at least as tightly
as what they stand in asks for. -/
inductive Regular : Expr → Prop where
  | constant {r : TokenRange} {t : Token} (hKind : t.kind = .number ∨ t.kind = .char) :
      Regular (.literal r [t])
  | strings {r : TokenRange} {tokens : List Token} (hSome : tokens ≠ [])
      (hKind : ∀ t ∈ tokens, t.kind = .string) : Regular (.literal r tokens)
  | name {r : TokenRange} {text : String} (hName : text ∉ words) : Regular (.name r text)
  | paren {r : TokenRange} {e : Expr} (hInner : Regular e) : Regular (.paren r e)
  | unary {r : TokenRange} {op : UnaryOp} {e : Expr} (hOperand : Regular e)
      (hLevel : unaryPrecedence ≤ e.precedence) : Regular (.unary r op e)
  | cast {r : TokenRange} {parts : List String} {e : Expr} (hParts : ∀ w ∈ parts, w ∈ typeWords)
      (hType : ∃ w ∈ parts, w ∈ Keyword.arithmeticTypes) (hOperand : Regular e)
      (hLevel : unaryPrecedence ≤ e.precedence) : Regular (.cast r (" ".intercalate parts) e)
  | binary {r : TokenRange} {op : BinaryOp} {a b : Expr} (hLeft : Regular a) (hRight : Regular b)
      (hLevel : op.precedence ≤ a.precedence) (hLevel' : op.precedence < b.precedence) :
      Regular (.binary r op a b)
  | conditional {r : TokenRange} {a b c : Expr} (hCondition : Regular a) (hTrue : Regular b)
      (hFalse : Regular c)
      (hLevel : BinaryOp.or.precedence ≤ a.precedence) (hLevel' : 2 ≤ c.precedence) :
      Regular (.conditional r a b c)
  | assign {r : TokenRange} {op : AssignOp} {a b : Expr} (hOp : op ∈ AssignOp.all)
      (hTarget : Regular a)
      (hValue : Regular b) (hLevel : BinaryOp.or.precedence ≤ a.precedence)
      (hLevel' : 2 ≤ b.precedence) : Regular (.assign r op a b)
  | comma {r : TokenRange} {es : List Expr} (hTwo : 2 ≤ es.length) (hItems : ∀ e ∈ es, Regular e)
      (hLevel : ∀ e ∈ es, 2 ≤ e.precedence) : Regular (.comma r es)
  | call {r : TokenRange} {e : Expr} {es : List Expr} (hCallee : Regular e)
      (hArguments : ∀ e ∈ es, Regular e)
      (hLevel : e.precedence = primaryPrecedence) (hLevel' : ∀ e ∈ es, 2 ≤ e.precedence) : Regular
      (.call r e es)
  | subscript {r : TokenRange} {a b : Expr} (hBase : Regular a) (hIndex : Regular b)
      (hLevel : a.precedence = primaryPrecedence) : Regular (.subscript r a b)
  | member {r : TokenRange} {op : String} {e : Expr} {part : String} (hOp : op = "." ∨ op = "->")
      (hBase : Regular e)
      (hLevel : e.precedence = primaryPrecedence) : Regular (.member r op e part)
  | stepped {r : TokenRange} {op : StepOp} {e : Expr} (hBase : Regular e)
      (hLevel : e.precedence = primaryPrecedence) : Regular (.stepped r op e)

end Expr

end Demacro
