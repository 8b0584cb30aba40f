import Demacro.Text

/-!
Offsets into a text, counted in characters and in bytes, and the conversions between them.
-/

namespace Demacro.Text

/-- The number of bytes of the first `n` characters. -/
def bytesBefore (t : Text) (n : Nat) : Nat :=
  (t.take n).foldr (fun c bytes => c.utf8Size + bytes) 0

/-- The number of characters at the front that fit into `n` bytes. -/
def charsWithin : Text → Nat → Nat
  | [], _ => 0
  | c :: t, n => if c.utf8Size ≤ n then charsWithin t (n - c.utf8Size) + 1 else 0

/-- The byte offset of a character offset. In a text of ASCII characters the two are the same, also
outside the text; elsewhere an offset outside the text counts as the nearest one inside. -/
def byteOffset (t : Text) (offset : Int) : Int :=
  if t.isAscii then offset else t.bytesBefore offset.toNat

/-- The offset of the character that holds a byte. In a text of ASCII characters the two are the
same, also outside the text; elsewhere a byte outside the text counts as the nearest one inside. -/
def charOffset (t : Text) (offset : Int) : Int :=
  if t.isAscii then offset else t.charsWithin offset.toNat

end Demacro.Text
