import Demacro.Proofs.Scopes.Braces
import Demacro.Text.Offset
import Mathlib.Order.Bounds.Basic

/-!
Texts of files and offsets into them. Decoding reads the encoding of a character as that character
and keeps every other byte, so nothing is lost. Offsets in characters and in bytes are converted
into each other, and the short way for ASCII texts gives what a search in the table of all byte
offsets gives.
-/

namespace Demacro.Text

variable {b : UInt8} {bs tail : List UInt8} {c : Char} {high : Nat}

theorem leadByte_one (h : b.toNat < 0x80) : leadByte b = (1, b.toNat) := by
  simp only [leadByte]
  rw [if_pos h]

theorem leadByte_two (hLow : 0xc0 ≤ b.toNat) (hHigh : b.toNat < 0xe0) :
    leadByte b = (2, b.toNat % 32) := by
  simp only [leadByte]
  rw [if_neg (by omega), if_neg (by omega), if_pos hHigh]

theorem leadByte_three (hLow : 0xe0 ≤ b.toNat) (hHigh : b.toNat < 0xf0) :
    leadByte b = (3, b.toNat % 16) := by
  simp only [leadByte]
  rw [if_neg (by omega), if_neg (by omega), if_neg (by omega), if_pos hHigh]

theorem leadByte_four (hLow : 0xf0 ≤ b.toNat) (hHigh : b.toNat < 0xf8) :
    leadByte b = (4, b.toNat % 8) := by
  simp only [leadByte]
  rw [if_neg (by omega), if_neg (by omega), if_neg (by omega), if_neg (by omega), if_pos hHigh]

/-- A character whose code the bits spell, and whose encoding the bytes are, is found. -/
theorem decodeChar?_of_leadByte (hBytes : String.utf8EncodeChar c = b :: tail)
    (hLead : leadByte b = (tail.length + 1, high))
    (hCode : tail.foldl (fun n c => n * 64 + c.toNat % 64) high = c.toNat) (rest : List UInt8) :
    decodeChar? b (tail ++ rest) = some (c, tail.length) := by
  have hFront : (b :: (tail ++ rest)).take (tail.length + 1) = b :: tail := by simp
  simp only [decodeChar?, hLead, Nat.add_sub_cancel, List.take_left, hCode, Char.ofNat_toNat]
  rw [if_pos (hBytes.trans hFront.symm)]

/-- The encoding of a character is read as that character, whatever follows. -/
theorem exists_decodeChar? (c : Char) : ∃ b tail, String.utf8EncodeChar c = b :: tail
    ∧ ∀ rest, decodeChar? b (tail ++ rest) = some (c, tail.length) := by
  have hCode : c.toNat < 0x110000 := by
    rcases c.valid with hLow | hHigh
    · exact Nat.lt_trans hLow (by decide)
    · exact hHigh.2
  by_cases hOne : c.toNat ≤ 127
  · have hBytes : String.utf8EncodeChar c = [UInt8.ofNat c.toNat] := if_pos hOne
    refine ⟨_, _, hBytes, decodeChar?_of_leadByte hBytes (leadByte_one ?_) ?_⟩
    all_goals simp only [UInt8.toNat_ofNat', List.foldl_nil]
    all_goals omega
  by_cases hTwo : c.toNat ≤ 2047
  · have hBytes : String.utf8EncodeChar c =
        [UInt8.ofNat (c.toNat / 64 % 32 + 192), UInt8.ofNat (c.toNat % 64 + 128)] :=
      (if_neg hOne).trans (if_pos hTwo)
    refine ⟨_, _, hBytes, decodeChar?_of_leadByte hBytes (leadByte_two ?_ ?_) ?_⟩
    all_goals simp only [UInt8.toNat_ofNat', List.foldl_cons, List.foldl_nil]
    all_goals omega
  by_cases hThree : c.toNat ≤ 65535
  · have hBytes : String.utf8EncodeChar c = [UInt8.ofNat (c.toNat / 4096 % 16 + 224),
        UInt8.ofNat (c.toNat / 64 % 64 + 128), UInt8.ofNat (c.toNat % 64 + 128)] :=
      (if_neg hOne).trans ((if_neg hTwo).trans (if_pos hThree))
    refine ⟨_, _, hBytes, decodeChar?_of_leadByte hBytes (leadByte_three ?_ ?_) ?_⟩
    all_goals simp only [UInt8.toNat_ofNat', List.foldl_cons, List.foldl_nil]
    all_goals omega
  · have hBytes : String.utf8EncodeChar c = [UInt8.ofNat (c.toNat / 262144 % 8 + 240),
        UInt8.ofNat (c.toNat / 4096 % 64 + 128), UInt8.ofNat (c.toNat / 64 % 64 + 128),
        UInt8.ofNat (c.toNat % 64 + 128)] :=
      (if_neg hOne).trans ((if_neg hTwo).trans (if_neg hThree))
    refine ⟨_, _, hBytes, decodeChar?_of_leadByte hBytes (leadByte_four ?_ ?_) ?_⟩
    all_goals simp only [UInt8.toNat_ofNat', List.foldl_cons, List.foldl_nil]
    all_goals omega

/-- A well-formed character at the front is decoded to that character. -/
theorem decode_char_append (c : Char) (rest : List UInt8) :
    decode (String.utf8EncodeChar c ++ rest) = .char c :: decode rest := by
  obtain ⟨b, tail, hBytes, hFound⟩ := exists_decodeChar? c
  rw [hBytes, List.cons_append, decode, hFound rest]
  simp only [List.drop_left]

/-- A byte that is not the start of a well-formed character stays as it is. -/
theorem decode_stray (h : ∀ c rest, b :: bs ≠ String.utf8EncodeChar c ++ rest) :
    decode (b :: bs) = .byte b :: decode bs := by
  rw [decode]
  cases hFound : decodeChar? b bs with
  | none => rfl
  | some found =>
      obtain ⟨c, n⟩ := found
      refine absurd ?_ (h c (bs.drop n))
      rw [decodeChar?_eq_some hFound, List.cons_append, List.take_append_drop]

end Demacro.Text

namespace Demacro

theorem SourceChar.utf8Size_pos (c : SourceChar) : 0 < c.utf8Size := by
  cases c with
  | char c =>
      rw [utf8Size, utf8, String.length_utf8EncodeChar]
      exact c.utf8Size_pos
  | byte b => exact Nat.one_pos

theorem SourceChar.utf8Size_of_isAscii {c : SourceChar} (h : c.isAscii = true) :
    c.utf8Size = 1 := by
  cases c with
  | char c =>
      rw [utf8Size, utf8, String.length_utf8EncodeChar, Char.utf8Size_eq_one_iff,
        UInt32.le_iff_toNat_le]
      exact Nat.le_of_lt_succ (of_decide_eq_true h)
  | byte b => cases h

namespace Text

variable {t : Text} {i n : Nat}

/-- The byte offsets of all characters of a text, and that of its end. -/
def offsetTable (t : Text) : List Nat :=
  t.scanl (fun n c => n + c.utf8Size) 0

/-- How many offsets in the table are not behind a given one, found by halving. -/
def entriesUpTo (t : Text) (offset : Nat) : Nat :=
  lowerBound (fun i => t.offsetTable[i]?.any (· ≤ offset)) 0 t.offsetTable.length

@[simp]
theorem bytesBefore_zero (t : Text) : t.bytesBefore 0 = 0 :=
  rfl

@[simp]
theorem bytesBefore_cons_succ (c : SourceChar) (t : Text) (i : Nat) :
    bytesBefore (c :: t) (i + 1) = c.utf8Size + t.bytesBefore i :=
  rfl

theorem length_encode_take (t : Text) (i : Nat) : (encode (t.take i)).length = t.bytesBefore i := by
  rw [encode, List.length_flatMap, bytesBefore, List.sum, List.foldr_map]
  rfl

theorem length_encode (t : Text) : (encode t).length = t.bytesBefore t.length := by
  rw [← length_encode_take, List.take_length]

/-- The characters that fit into some bytes are those of which the bytes are not more. -/
theorem le_charsWithin_iff (h : i ≤ t.length) : i ≤ t.charsWithin n ↔ t.bytesBefore i ≤ n := by
  induction t generalizing i n with
  | nil =>
      obtain rfl := Nat.le_zero.mp h
      simp
  | cons c t ih =>
      cases i with
      | zero => simp
      | succ i =>
          rw [charsWithin, bytesBefore_cons_succ]
          split
          · rename_i hFits
            rw [Nat.succ_le_succ_iff, ih (Nat.le_of_succ_le_succ h)]
            omega
          · omega

theorem charsWithin_le_length (t : Text) (n : Nat) : t.charsWithin n ≤ t.length := by
  induction t generalizing n with
  | nil => exact Nat.le_refl 0
  | cons c t ih =>
      rw [charsWithin]
      split
      · exact Nat.succ_le_succ (ih _)
      · exact Nat.zero_le _

/-- More bytes hold no fewer characters. -/
theorem charsWithin_mono (t : Text) {n m : Nat} (h : n ≤ m) :
    t.charsWithin n ≤ t.charsWithin m := by
  have hFits := charsWithin_le_length t n
  rw [le_charsWithin_iff hFits]
  exact ((le_charsWithin_iff hFits).mp (Nat.le_refl _)).trans h

/-- No character is without bytes, so offsets in bytes tell the characters apart. -/
theorem charsWithin_bytesBefore (h : i ≤ t.length) : t.charsWithin (t.bytesBefore i) = i := by
  induction t generalizing i with
  | nil =>
      obtain rfl := Nat.le_zero.mp h
      rfl
  | cons c t ih =>
      cases i with
      | zero =>
          have hSize := c.utf8Size_pos
          rw [charsWithin, bytesBefore_zero, if_neg (by omega)]
      | succ i =>
          rw [charsWithin, bytesBefore_cons_succ, if_pos (Nat.le_add_right _ _),
            Nat.add_sub_cancel_left, ih (Nat.le_of_succ_le_succ h)]

/-- In an ASCII text the two offsets of a character are the same. -/
theorem bytesBefore_of_isAscii (hAscii : t.isAscii = true) (h : i ≤ t.length) :
    t.bytesBefore i = i := by
  induction t generalizing i with
  | nil =>
      obtain rfl := Nat.le_zero.mp h
      rfl
  | cons c t ih =>
      rw [isAscii, List.all_cons, Bool.and_eq_true] at hAscii
      cases i with
      | zero => rfl
      | succ i =>
          rw [bytesBefore_cons_succ, SourceChar.utf8Size_of_isAscii hAscii.1,
            ih hAscii.2 (Nat.le_of_succ_le_succ h), Nat.add_comm]

theorem charsWithin_of_isAscii (hAscii : t.isAscii = true) (h : n ≤ (encode t).length) :
    t.charsWithin n = n := by
  rw [length_encode, bytesBefore_of_isAscii hAscii (Nat.le_refl _)] at h
  have hBytes := charsWithin_bytesBefore h
  rwa [bytesBefore_of_isAscii hAscii h] at hBytes

/-- Within a text the short way for ASCII texts makes no difference. -/
theorem byteOffset_of_le (h : i ≤ t.length) : t.byteOffset i = t.bytesBefore i := by
  rw [byteOffset]
  split
  · rename_i hAscii
    rw [bytesBefore_of_isAscii hAscii h]
  · rw [Int.toNat_natCast]

theorem charOffset_of_le (h : n ≤ (encode t).length) : t.charOffset n = t.charsWithin n := by
  rw [charOffset]
  split
  · rename_i hAscii
    rw [charsWithin_of_isAscii hAscii h]
  · rw [Int.toNat_natCast]

/-- Offsets keep their order when they are converted. -/
theorem charOffset_mono (t : Text) {n m : Nat} (h : n ≤ m) : t.charOffset n ≤ t.charOffset m := by
  rw [charOffset, charOffset]
  split
  · exact Int.ofNat_le.mpr h
  · rw [Int.toNat_natCast, Int.toNat_natCast]
    exact Int.ofNat_le.mpr (charsWithin_mono t h)

theorem getElem?_offsetTable (t : Text) (i : Nat) :
    t.offsetTable[i]? = if i ≤ t.length then some (t.bytesBefore i) else none := by
  have hSum : ∀ (l : Text) (n : Nat), l.foldl (fun n c => n + c.utf8Size) n
      = n + l.foldr (fun c bytes => c.utf8Size + bytes) 0 := by
    intro l
    induction l with
    | nil => exact fun n => rfl
    | cons c l ih => exact fun n => (ih _).trans (Nat.add_assoc _ _ _)
  rw [offsetTable, List.getElem?_scanl, hSum, Nat.zero_add]
  rfl

/-- The search finds one entry more than characters fit, the one for the front of the text. -/
theorem entriesUpTo_eq (t : Text) (n : Nat) : t.entriesUpTo n = t.charsWithin n + 1 := by
  have hFits := charsWithin_le_length t n
  refine lowerBound_eq (Nat.zero_le _) ?_ (fun i hi => ?_) fun i hi => ?_
  · rw [offsetTable, List.length_scanl]
    exact Nat.succ_le_succ hFits
  · have hInside : i ≤ t.length := by omega
    rw [getElem?_offsetTable, if_pos hInside]
    simpa using (le_charsWithin_iff hInside).mp (Nat.le_of_lt_succ hi)
  · rw [getElem?_offsetTable]
    split
    · rename_i hInside
      have hBehind := (le_charsWithin_iff (n := n) hInside).not.mp (by omega)
      simpa using hBehind
    · rfl

/-- What the conversions between the two kinds of offsets give within a text. -/
structure ConvertsOffsets (t : Text) : Prop where
  /-- The byte offset of a character is the number of bytes in front of it. -/
  byteOffset : ∀ i : Nat, i ≤ t.length → t.byteOffset i = (encode (t.take i)).length
  charOffset_byteOffset : ∀ i : Nat, i ≤ t.length → t.charOffset (t.byteOffset i) = i
  /-- A byte belongs to the last character that does not start behind it. -/
  charOffset : ∀ b : Nat, b ≤ (encode t).length →
    IsGreatest {i : Int | 0 ≤ i ∧ i ≤ t.length ∧ t.byteOffset i ≤ b} (t.charOffset b)
  /-- Whether a text is ASCII or not, the offsets are those in the table. -/
  byteOffset_table : ∀ i : Nat, i ≤ t.length →
    t.offsetTable[i]?.map Int.ofNat = some (t.byteOffset i)
  charOffset_table : ∀ b : Nat, b ≤ (encode t).length → t.charOffset b = (t.entriesUpTo b : Int) - 1

theorem convertsOffsets (t : Text) : ConvertsOffsets t := by
  constructor
  case byteOffset =>
    intro i h
    rw [byteOffset_of_le h, length_encode_take]
  case charOffset_byteOffset =>
    intro i h
    have hBytes : t.bytesBefore i ≤ (encode t).length := by
      rw [length_encode, ← le_charsWithin_iff h, charsWithin_bytesBefore (Nat.le_refl _)]
      exact h
    rw [byteOffset_of_le h, charOffset_of_le hBytes, charsWithin_bytesBefore h]
  case charOffset =>
    intro b h
    have hFits := charsWithin_le_length t b
    rw [charOffset_of_le h]
    refine ⟨⟨Int.natCast_nonneg _, Int.ofNat_le.mpr hFits, ?_⟩, fun i ⟨hFirst, hLast, hBytes⟩ => ?_⟩
    · rw [byteOffset_of_le hFits]
      exact Int.ofNat_le.mpr ((le_charsWithin_iff hFits).mp (Nat.le_refl _))
    · obtain ⟨i, rfl⟩ := Int.eq_ofNat_of_zero_le hFirst
      have hInside := Int.ofNat_le.mp hLast
      rw [byteOffset_of_le hInside] at hBytes
      exact Int.ofNat_le.mpr ((le_charsWithin_iff hInside).mpr (Int.ofNat_le.mp hBytes))
  case byteOffset_table =>
    intro i h
    rw [getElem?_offsetTable, if_pos h, byteOffset_of_le h]
    rfl
  case charOffset_table =>
    intro b h
    rw [charOffset_of_le h, entriesUpTo_eq, Int.natCast_succ, Int.add_sub_cancel]

/-- **Decoding.** The text of a sequence of bytes stands for just these bytes, with a character for
each well-formed one and a byte for every other byte, and offsets into it in characters and in bytes
are converted without loss. -/
theorem decode_lossless (d : List UInt8) :
    encode (decode d) = d
      ∧ (∀ c rest, d = String.utf8EncodeChar c ++ rest → decode d = .char c :: decode rest)
      ∧ (∀ b bs, d = b :: bs → (∀ c rest, d ≠ String.utf8EncodeChar c ++ rest) →
        decode d = .byte b :: decode bs)
      ∧ ConvertsOffsets (decode d) := by
  refine ⟨encode_decode d, ?_, ?_, convertsOffsets _⟩
  · rintro c rest rfl
    exact decode_char_append c rest
  · rintro b bs rfl hNone
    exact decode_stray hNone

/-- The first bytes of a character without its last one are read one by one. -/
example : decode [0x61, 0xc3, 0xa9, 0xe2, 0x82] = [.char 'a', .char 'é', .byte 0xe2, .byte 0x82]
    ∧ [1, 2, 4].map (decode [0x61, 0xc3, 0xa9, 0xe2, 0x82]).charOffset = [1, 1, 3] := by
  decide +kernel

end Text

end Demacro
