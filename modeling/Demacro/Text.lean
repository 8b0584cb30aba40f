/-!
The text of source files. A file may hold any bytes, so a text is a sequence of Unicode characters
and of bytes that belong to no well-formed character. Decoding loses nothing (`encode_decode`).
Where a text must do without stray bytes, each ill-formed sequence of bytes gives way to the
replacement character; bytes that are the start of one well-formed character count as one sequence.
-/

namespace Demacro

/-- One character of a source file: a Unicode character, or a byte that is no part of any
well-formed character. -/
inductive SourceChar where
  | char (c : Char)
  | byte (b : UInt8)
deriving DecidableEq

namespace SourceChar

/-- The bytes that stand for the character in a file. -/
def utf8 : SourceChar → List UInt8
  | char c => String.utf8EncodeChar c
  | byte b => [b]

/-- The number of bytes that the character takes in a file. -/
def utf8Size (c : SourceChar) : Nat :=
  c.utf8.length

/-- A digit of a byte's two-digit hexadecimal form. -/
def hexDigit (n : Nat) : Char :=
  if n < 10 then Char.ofNat (48 + n) else Char.ofNat (87 + n)

/-- The character as shown to a reader: a stray byte is shown as `\x` and two digits. -/
def display : SourceChar → List Char
  | char c => [c]
  | byte b => ['\\', 'x', hexDigit (b.toNat / 16), hexDigit (b.toNat % 16)]

/-- Whether the character is a Unicode character with the given property. -/
def satisfies (p : Char → Bool) : SourceChar → Bool
  | char c => p c
  | byte _ => false

/-- An ASCII character. -/
def isAscii : SourceChar → Bool :=
  satisfies (·.toNat < 128)

end SourceChar

/-- The text of a file or of a part of one. -/
abbrev Text := List SourceChar

namespace Text

/-- A text without stray bytes. -/
def ofString (s : String) : Text :=
  s.toList.map .char

instance : Coe String Text := ⟨ofString⟩

/-- The text as shown to a reader. -/
def display (t : Text) : String :=
  String.ofList (t.flatMap SourceChar.display)

/-- The characters of a text that has no stray bytes. -/
def chars? : Text → Option (List Char)
  | [] => some []
  | .char c :: t => (chars? t).map (c :: ·)
  | .byte _ :: _ => none

/-- Whether all characters are ASCII. -/
def isAscii (t : Text) : Bool :=
  t.all SourceChar.isAscii

/-- The bytes of the text. -/
def encode (t : Text) : List UInt8 :=
  t.flatMap SourceChar.utf8

/-- How many bytes a lead byte announces, and the bits of the code point that it holds itself.
No character starts with a byte that announces none. -/
def leadByte (b : UInt8) : Nat × Nat :=
  let n := b.toNat
  if n < 0x80 then (1, n)
  else if n < 0xc0 then (0, 0)
  else if n < 0xe0 then (2, n % 32)
  else if n < 0xf0 then (3, n % 16)
  else if n < 0xf8 then (4, n % 8)
  else (0, 0)

/-- The well-formed character at the front of `b :: bs` and the number of bytes that it takes of
`bs`. A candidate is read off the bits; it counts only if its own encoding is what stands there, so
overlong forms and surrogates are not well formed. -/
def decodeChar? (b : UInt8) (bs : List UInt8) : Option (Char × Nat) :=
  let (size, high) := leadByte b
  let code := (bs.take (size - 1)).foldl (fun n c => n * 64 + c.toNat % 64) high
  let c := Char.ofNat code
  if String.utf8EncodeChar c = (b :: bs).take size then some (c, size - 1) else none

/-- The text of a sequence of bytes: well-formed characters become characters, every other byte
stays a byte. -/
def decode : List UInt8 → Text
  | [] => []
  | b :: bs =>
    match decodeChar? b bs with
    | some (c, n) => .char c :: decode (bs.drop n)
    | none => .byte b :: decode bs
termination_by bs => bs.length
decreasing_by all_goals (simp only [List.length_cons, List.length_drop]; omega)

theorem decodeChar?_eq_some {b : UInt8} {bs : List UInt8} {c : Char} {n : Nat}
    (h : decodeChar? b bs = some (c, n)) : String.utf8EncodeChar c = b :: bs.take n := by
  unfold decodeChar? at h
  split at h
  rename_i size high _
  dsimp only at h
  split at h
  · rename_i henc
    cases h
    cases size with
    | zero =>
      have := String.length_utf8EncodeChar
        (Char.ofNat ((bs.take (0 - 1)).foldl (fun n c => n * 64 + c.toNat % 64) high))
      rw [henc] at this
      simp only [List.take_zero, List.length_nil] at this
      have := Char.utf8Size_pos
        (Char.ofNat ((bs.take (0 - 1)).foldl (fun n c => n * 64 + c.toNat % 64) high))
      omega
    | succ k => simpa using henc
  · simp at h

/-- Decoding loses nothing. -/
theorem encode_decode (bs : List UInt8) : encode (decode bs) = bs := by
  induction bs using decode.induct with
  | case1 => simp [decode, encode]
  | case2 b bs c n h ih =>
    rw [decode, h]
    simp only [encode, List.flatMap_cons, SourceChar.utf8] at ih ⊢
    rw [ih, decodeChar?_eq_some h]
    simp
  | case3 b bs h ih =>
    rw [decode, h]
    simp only [encode, List.flatMap_cons, SourceChar.utf8] at ih ⊢
    rw [ih]
    rfl

/-- The values that the second byte of a character may have behind a lead byte. -/
def secondByteRange (lead : Nat) : Nat × Nat :=
  if lead = 0xe0 then (0xa0, 0xbf)
  else if lead = 0xed then (0x80, 0x9f)
  else if lead = 0xf0 then (0x90, 0xbf)
  else if lead = 0xf4 then (0x80, 0x8f)
  else if 0xe1 ≤ lead ∧ lead ≤ 0xf3 then (0x80, 0xbf)
  else (1, 0)

/-- The number of stray bytes behind `b` in `t` that belong to the same incomplete character. -/
def incompleteTail (b : UInt8) (t : Text) : Nat :=
  let (low, high) := secondByteRange b.toNat
  match t with
  | .byte c :: rest =>
    if low ≤ c.toNat ∧ c.toNat ≤ high then
      match rest with
      | .byte d :: _ => if 0xf0 ≤ b.toNat ∧ 0x80 ≤ d.toNat ∧ d.toNat ≤ 0xbf then 2 else 1
      | _ => 1
    else 0
  | _ => 0

/-- The characters of the text, with the replacement character for each ill-formed sequence. -/
def replaceStray : Text → List Char
  | [] => []
  | .char c :: t => c :: replaceStray t
  | .byte b :: t => '\uFFFD' :: replaceStray (t.drop (incompleteTail b t))
termination_by t => t.length
decreasing_by all_goals (simp only [List.length_cons, List.length_drop]; omega)

/-- The text without the characters in `p` at both ends. -/
def dropEnds (p : SourceChar → Bool) (t : Text) : Text :=
  ((t.dropWhile p).reverse.dropWhile p).reverse

/-- Where `needle` first occurs in the text. -/
def find? (needle : Text) : Text → Option Nat
  | [] => if needle.isEmpty then some 0 else none
  | c :: t => if needle.isPrefixOf (c :: t) then some 0 else (find? needle t).map (· + 1)

/-- Pieces joined with a separator between each two of them. -/
def joinWith (separator : Text) : List Text → Text
  | [] => []
  | [t] => t
  | t :: ts => t ++ separator ++ joinWith separator ts

end Text

end Demacro
