import Demacro.Text.CodePoint
import Demacro.Unicode.Printable

/-!
Quoted text for messages: a text between quotes in which what cannot be shown is written as an
escape.
-/

namespace Demacro.CodeText

/-- The escape of a code point, as short as its size allows. -/
def codeEscape (n : Nat) : List Char :=
  if n < 0x100 then '\\' :: 'x' :: CodePoint.hexDigits n 2
  else if n < 0x10000 then CodePoint.unitEscape n
  else '\\' :: 'U' :: CodePoint.hexDigits n 8

/-- A character between the quotes `quote`. -/
def quoteChar (quote : Char) (c : Char) : List Char :=
  if c = quote ∨ c = '\\' then ['\\', c]
  else if c = '\n' then ['\\', 'n']
  else if c = '\r' then ['\\', 'r']
  else if c = '\t' then ['\\', 't']
  else if Unicode.isPrintable c then [c]
  else codeEscape c.toNat

/-- A code point between the quotes `quote`. -/
def quotePoint (quote : Char) : CodePoint → List Char
  | .char c => quoteChar quote c
  | .half n => codeEscape n

/-- The text between quotes: single ones, unless it holds single but no double quotes. -/
def quoted (t : CodeText) : String :=
  let quote := if t.contains (.char '\'') && !t.contains (.char '"') then '"' else '\''
  String.ofList (quote :: t.flatMap (quotePoint quote) ++ [quote])

end Demacro.CodeText
