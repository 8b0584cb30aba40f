import Demacro.Text

/-!
Preprocessing tokens and the ranges of source text that they stand for.
-/

namespace Demacro

/-- A range of characters of one file, with the line and column of its start, both from one. -/
structure Span where
  path : String
  start : Nat
  stop : Nat
  line : Nat
  column : Nat
deriving DecidableEq

/-- The classes of preprocessing tokens. Every character that fits no class is a token of its own,
of class `other`. -/
inductive TokenKind where
  | identifier
  | number
  | string
  | char
  | punctuator
  | other
deriving DecidableEq

/-- The name of a token class. -/
def TokenKind.name : TokenKind → String
  | identifier => "identifier"
  | number => "number"
  | string => "string"
  | char => "char"
  | punctuator => "punctuator"
  | other => "other"

/-- A preprocessing token. The lexeme of a punctuator is its primary spelling, which need not be
the one in the source. -/
structure Token where
  kind : TokenKind
  lexeme : Text
  span : Span
  /-- The first token of its logical line. -/
  atLineStart : Bool
  /-- White space, a comment or a line splice stands before it on its logical line. -/
  spaced : Bool
deriving DecidableEq

namespace Token

/-- The lexeme as shown to a reader. -/
def spelling (t : Token) : String :=
  t.lexeme.display

/-- A punctuator with the given spelling. -/
def isPunct (t : Token) (spelling : String) : Bool :=
  t.kind == .punctuator && t.lexeme == Text.ofString spelling

/-- A punctuator with one of the given spellings. -/
def isPunctIn (t : Token) (spellings : List String) : Bool :=
  spellings.any t.isPunct

/-- An opening brace. -/
def isOpenBrace (t : Token) : Bool :=
  t.isPunct "\x7b"

/-- A closing brace. -/
def isCloseBrace (t : Token) : Bool :=
  t.isPunct "\x7d"

/-- A token that ends a statement or starts or ends a block. -/
def isBoundary (t : Token) : Bool :=
  t.isPunct ";" || t.isOpenBrace || t.isCloseBrace

/-- An identifier. -/
def isIdentifier (t : Token) : Bool :=
  t.kind == .identifier

/-- A token is one punctuator. -/
theorem isPunct_eq_false {t : Token} {s : String} (h : t.isPunct s = true) (s' : String)
    (hNe : Text.ofString s ≠ Text.ofString s') : t.isPunct s' = false := by
  simp only [isPunct, Bool.and_eq_true, beq_iff_eq] at h
  simp [isPunct, h.2, hNe]

theorem not_isPunct_of_isIdentifier {t : Token} (h : t.isIdentifier = true) (spelling : String) :
    t.isPunct spelling = false := by
  rw [isIdentifier, beq_iff_eq] at h
  rw [isPunct, h]
  rfl

/-- The identifier with the given name. -/
def isNamed (t : Token) (name : String) : Bool :=
  t.kind == .identifier && t.lexeme == Text.ofString name

/-- The text of a line of tokens, with one space wherever the source had white space between two
of them. -/
def render : List Token → Text
  | [] => []
  | t :: ts => t.lexeme ++ ts.flatMap fun u => (if u.spaced then [.char ' '] else []) ++ u.lexeme

/-- The logical lines of a sequence of tokens. -/
def logicalLines : List Token → List (List Token)
  | [] => []
  | t :: ts =>
    match ts, logicalLines ts with
    | next :: _, line :: lines =>
        if next.atLineStart then [t] :: line :: lines else (t :: line) :: lines
    | _, lines => [t] :: lines

end Token

end Demacro
