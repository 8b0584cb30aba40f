import Demacro.Fault
import Demacro.Token
import Demacro.Unicode.Classes
import Demacro.Unicode.Word

/-!
From text to preprocessing tokens. `Piece.first` finds the piece of text at the front: a line end, a
piece without tokens (white space, a comment, a line splice), or a token. `Token.ofText` repeats it
to the end of the text and keeps track of lines and columns. Every character that is not white space
and not part of a comment ends up in some token.
-/

namespace Demacro

/-- What a piece of text is. -/
inductive Piece where
  | lineEnd
  | blank
  | token (kind : TokenKind)
deriving DecidableEq

namespace Piece

/-- The punctuators, longest first. -/
def punctuators : List String :=
  ["%:%:",
   "...", "<=>", "->*", ">>=", "<<=",
   "::", "->", ".*", "++", "--", "&&", "||", "<=", ">=", "==", "!=", "+=", "-=", "*=", "/=", "%=",
   "&=", "|=", "^=", "<<", ">>", "##", "<:", ":>", "<%", "%>", "%:",
   "[", "]", "(", ")", "\x7b", "\x7d", ".", "&", "*", "+", "-", "~", "!", "/", "%", "<", ">",
   "^", "|", "?", ":", ";", "=", ",", "#"]

/-- The punctuators with a second spelling, which comes first. -/
def digraphs : List (String × String) :=
  [("<:", "["), (":>", "]"), ("<%", "\x7b"), ("%>", "\x7d"), ("%:", "#"), ("%:%:", "##")]

/-- The primary spelling of a punctuator. -/
def primarySpelling (t : Text) : Text :=
  match digraphs.find? fun d => Text.ofString d.1 == t with
  | some d => Text.ofString d.2
  | none => t

/-- The encodings that may stand before a quote. -/
def encodings : List String :=
  ["L", "u", "U", "u8"]

/-- The words that open a raw string when a double quote follows. -/
def rawEncodings : List String :=
  ["R", "LR", "uR", "UR", "u8R"]

/-- White space within a line. -/
def isHorizontalSpace (c : Char) : Bool :=
  c == ' ' || c == '\t' || c == '\r' || c == '\x0c' || c == '\x0b' || c == '\ufeff'

/-- The length of a comment to the end of its line. A line splice continues it. -/
def lineCommentLength : Text → Nat
  | [] => 0
  | .char '\n' :: _ => 0
  | .char '\\' :: .char '\n' :: t => lineCommentLength t + 2
  | .char '\\' :: .char '\r' :: .char '\n' :: t => lineCommentLength t + 3
  | _ :: t => lineCommentLength t + 1

/-- The length of the rest of a literal after its opening quote. A backslash takes the next
character with it; a line end before the closing quote means that there is no literal. -/
def quotedLength? (quote : Char) : Text → Option Nat
  | [] => none
  | [.char '\\'] => none
  | .char '\\' :: _ :: t => (quotedLength? quote t).map (· + 2)
  | .char c :: t =>
    if c == quote then some 1
    else if c == '\n' then none
    else (quotedLength? quote t).map (· + 1)
  | .byte _ :: t => (quotedLength? quote t).map (· + 1)

/-- A character that may stand in the delimiter of a raw string. -/
def isRawDelimiter (c : SourceChar) : Bool :=
  !c.satisfies fun c => c == ' ' || c == '(' || c == ')' || c == '\\' || c == '\t' || c == '\n'
    || c == '"'

/-- The length of the rest of a raw string after its opening quote: a delimiter of at most sixteen
characters, a parenthesis, and everything up to the closing parenthesis, delimiter and quote. -/
def rawLength? (t : Text) : Option Nat :=
  let delimiter := t.takeWhile (· != .char '(')
  let body := t.drop (delimiter.length + 1)
  let closing : Text := .char ')' :: delimiter ++ [.char '"']
  if delimiter.length < t.length ∧ delimiter.length ≤ 16 ∧ delimiter.all isRawDelimiter then
    (Text.find? closing body).map fun n => delimiter.length + 1 + n + closing.length
  else none

/-- An ASCII digit. -/
def isAsciiDigit : SourceChar → Bool :=
  SourceChar.satisfies Char.isDigit

/-- An ASCII letter, digit or underscore. -/
def isAsciiWord (c : Char) : Bool :=
  c.isAlphanum || c == '_'

/-- The length of the rest of a number after its first digit. An exponent letter takes a sign with
it, and a digit separator the letter or digit behind it. -/
def numberTailLength : Text → Nat
  | [] => 0
  | [.char c] => if isAsciiWord c || c == '.' then 1 else 0
  | .char c :: .char d :: t =>
    if (c == 'e' || c == 'E' || c == 'p' || c == 'P') && (d == '+' || d == '-') then
      numberTailLength t + 2
    else if c == '\'' && isAsciiWord d then numberTailLength t + 2
    else if isAsciiWord c || c == '.' then numberTailLength (.char d :: t) + 1
    else 0
  | .char c :: .byte _ :: _ => if isAsciiWord c || c == '.' then 1 else 0
  | .byte _ :: _ => 0

/-- The length of the number at the front. -/
def numberLength? : Text → Option Nat
  | c :: t =>
    if isAsciiDigit c then some (numberTailLength t + 1)
    else
      match c, t with
      | .char '.', d :: t => if isAsciiDigit d then some (numberTailLength t + 2) else none
      | _, _ => none
  | [] => none

/-- The length of the identifier at the front. -/
def identifierLength? : Text → Option Nat
  | .char c :: t =>
    if Unicode.isWord c && !Unicode.isDecimal c then
      some ((t.takeWhile (·.satisfies Unicode.isWord)).length + 1)
    else none
  | _ => none

/-- The length of the punctuator at the front. -/
def punctuatorLength? (t : Text) : Option Nat :=
  (punctuators.find? fun p => (Text.ofString p).isPrefixOf t).map String.length

/-- The class of a literal with the given quote. -/
def literalKind (quote : Char) : TokenKind :=
  if quote == '"' then .string else .char

/-- The literal that starts with a quote at the front. -/
def literal? : Text → Option (TokenKind × Nat)
  | .char c :: t =>
    if c == '"' || c == '\'' then (quotedLength? c t).map fun n => (literalKind c, n + 1) else none
  | _ => none

/-- The token that starts with a word of `n` characters: an identifier, or a literal of which the
word is the encoding. -/
def wordToken (t : Text) (n : Nat) : Except Fault (TokenKind × Nat) :=
  let word := t.take n
  let rest := t.drop n
  if rest.head? = some (.char '"') ∧ rawEncodings.any (Text.ofString · == word) then
    match rawLength? (rest.drop 1) with
    | some k => .ok (.string, n + 1 + k)
    | none => .error .unterminatedRawString
  else if encodings.any (Text.ofString · == word) then
    match literal? rest with
    | some (kind, k) => .ok (kind, n + k)
    | none => .ok (.identifier, n)
  else .ok (.identifier, n)

/-- The token at the front, and its length. -/
def tokenAt (t : Text) : Except Fault (TokenKind × Nat) :=
  match identifierLength? t with
  | some n => wordToken t n
  | none =>
    match numberLength? t with
    | some n => .ok (.number, n)
    | none =>
      match literal? t with
      | some found => .ok found
      | none =>
        match punctuatorLength? t with
        | some n => .ok (.punctuator, n)
        | none => .ok (.other, 1)

/-- The piece at the front of a text, and its length. -/
def first : Text → Except Fault (Piece × Nat)
  | .char '\\' :: .char '\n' :: _ => .ok (.blank, 2)
  | .char '\\' :: .char '\r' :: .char '\n' :: _ => .ok (.blank, 3)
  | .char '\n' :: _ => .ok (.lineEnd, 1)
  | .char '/' :: .char '/' :: t => .ok (.blank, lineCommentLength t + 2)
  | .char '/' :: .char '*' :: t =>
    match Text.find? (Text.ofString "*/") t with
    | some n => .ok (.blank, n + 4)
    | none => .error .unterminatedComment
  | t =>
    if t.head?.any (·.satisfies isHorizontalSpace) then .ok (.blank, 1)
    else (tokenAt t).map fun (kind, n) => (.token kind, n)

end Piece

/-- A place in a text: the characters before it, the number of its line, and the characters before
its line. -/
structure Cursor where
  offset : Nat
  line : Nat
  lineStart : Nat

namespace Cursor

/-- The start of a text. -/
def start : Cursor := ⟨0, 1, 0⟩

/-- The place behind one more character. -/
def step (p : Cursor) (c : SourceChar) : Cursor :=
  if c = .char '\n' then ⟨p.offset + 1, p.line + 1, p.offset + 1⟩ else { p with offset :=
    p.offset + 1 }

/-- The place behind a piece of text. This is the one place where lines are counted, behind line
ends, splices, the splices in line comments, block comments and tokens alike. -/
def past (p : Cursor) (t : Text) : Cursor :=
  t.foldl step p

/-- The column of a place. -/
def column (p : Cursor) : Nat :=
  p.offset - p.lineStart + 1

end Cursor

namespace Token

/-- The tokens of the text that starts at `p`. The flags are those of the next token. -/
def ofTextAt (path : String) (p : Cursor) (atLineStart spaced : Bool) :
    Text → Except ParseError (List Token)
  | [] => .ok []
  | c :: t =>
    match Piece.first (c :: t) with
    | .error fault => .error ⟨fault, path, p.line, p.column⟩
    | .ok (piece, n) =>
      let text := (c :: t).take n
      let rest := t.drop (n - 1)
      let next := p.past text
      match piece with
      | .lineEnd => ofTextAt path next true false rest
      | .blank => ofTextAt path next atLineStart true rest
      | .token kind => do
        let lexeme := if kind = .punctuator then Piece.primarySpelling text else text
        let tokens ← ofTextAt path next false false rest
        return ⟨kind, lexeme, ⟨path, p.offset, next.offset, p.line, p.column⟩, atLineStart, spaced⟩
          :: tokens
termination_by t => t.length
decreasing_by all_goals (simp only [List.length_cons, List.length_drop]; omega)

/-- The tokens of a text, each with its place in the file `path`. -/
def ofText (path : String) (t : Text) : Except ParseError (List Token) :=
  ofTextAt path .start true false t

end Token

end Demacro
