import Demacro.Text

/-!
Code points. A text that is written with escapes can hold one half of a surrogate pair by itself,
which is no character and stands in no file. A stray byte counts as the half that is kept for it.
-/

namespace Demacro

/-- A code point: a character, or a half of a surrogate pair that stands by itself. -/
inductive CodePoint where
  | char (c : Char)
  | half (n : Nat)
deriving DecidableEq

namespace CodePoint

/-- The number of a code point. -/
def toNat : CodePoint → Nat
  | char c => c.toNat
  | half n => n

/-- Whether the code point is a half of a pair. -/
def isHalf : CodePoint → Bool
  | char _ => false
  | half _ => true

/-- The code point that a character of a source text counts as. -/
def ofSource : SourceChar → CodePoint
  | .char c => char c
  | .byte b => half (0xdc00 + b.toNat)

/-- The last `n` hexadecimal digits of a number. -/
def hexDigits (number : Nat) : Nat → List Char
  | 0 => []
  | n + 1 => hexDigits (number / 16) n ++ [SourceChar.hexDigit (number % 16)]

/-- Four hexadecimal digits behind `\u`. -/
def unitEscape (n : Nat) : List Char :=
  '\\' :: 'u' :: hexDigits n 4

/-- The code point as shown to a reader: a half that stands for a byte is shown as the byte. -/
def display : CodePoint → List Char
  | char c => [c]
  | half n =>
    if 0xdc80 ≤ n ∧ n < 0xdd00 then (SourceChar.byte (UInt8.ofNat n)).display else unitEscape n

end CodePoint

/-- A text that may hold halves of surrogate pairs. -/
abbrev CodeText := List CodePoint

namespace CodeText

/-- A text of characters only. -/
def ofString (s : String) : CodeText :=
  s.toList.map .char

instance : Coe String CodeText := ⟨ofString⟩

/-- The code points of a source text. -/
def ofText (t : Text) : CodeText :=
  t.map .ofSource

/-- The text as shown to a reader. -/
def display (t : CodeText) : String :=
  String.ofList (t.flatMap CodePoint.display)

/-- Whether the text holds characters only, so that a file can hold it. -/
def isStorable (t : CodeText) : Bool :=
  t.all fun c => !c.isHalf

/-- Texts of characters can be stored. -/
theorem isStorable_ofString (s : String) : isStorable (ofString s) = true := by
  simp [isStorable, ofString, CodePoint.isHalf]

end CodeText

end Demacro
