import Demacro.Proofs.Arithmetic
import Mathlib.Data.Nat.Digits.Defs

/-!
Integer literals of the language: how they are written, which number they mean and which type they
have. The main statement is that a literal that is read with full confidence is read with this
number and this type.
-/

namespace Demacro

/-- The number is a value of the type where `long` has the size of `int`. -/
def IntegerType.HoldsShort (t : IntegerType) (n : Int) : Prop :=
  match t with
  | long => int.Holds n
  | unsignedLong => unsignedInt.Holds n
  | t => t.Holds n

instance (t : IntegerType) (n : Int) : Decidable (t.HoldsShort n) := by
  cases t <;> exact inferInstanceAs (Decidable (IntegerType.Holds _ n))

end Demacro

namespace Demacro.Literal

/-- What is to hold of the members of a list is decided for each of them, and not for each
character. -/
scoped instance (priority := high) decidableForallMem {α : Type} (p : α → Prop) [DecidablePred p]
    (xs : List α) : Decidable (∀ x ∈ xs, p x) :=
  List.decidableBAll p xs

/-- The digits in ascending order. -/
def digitRow : List Char :=
  "0123456789abcdef".toList

/-- The value of a digit. -/
def digitValue (c : Char) : Nat :=
  digitRow.idxOf c.toLower

/-- The ways to write an integer. -/
inductive Radix where
  | binary
  | octal
  | decimal
  | hexadecimal
deriving DecidableEq

namespace Radix

/-- The number of digits. -/
def base : Radix → Nat
  | binary => 2
  | octal => 8
  | decimal => 10
  | hexadecimal => 16

/-- The characters that are digits. -/
def digits : Radix → List Char
  | binary => "01".toList
  | octal => "01234567".toList
  | decimal => "0123456789".toList
  | hexadecimal => "0123456789abcdefABCDEF".toList

/-- What stands in front of the digits. -/
def leads : Radix → List (List Char)
  | binary => [['0', 'b'], ['0', 'B']]
  | octal | decimal => [[]]
  | hexadecimal => [['0', 'x'], ['0', 'X']]

/-- Whether a digit may be the first one: without a lead, it is zero for the base eight only. -/
def Starts : Radix → Char → Prop
  | octal, c => c = '0'
  | decimal, c => c ≠ '0'
  | binary, _ | hexadecimal, _ => True

end Radix

/-- The program's test for a digit. -/
def Radix.test : Radix → Char → Bool
  | binary => isBinaryDigit
  | octal => isOctalDigit
  | decimal => Char.isDigit
  | hexadecimal => isHexDigit

/-- The number that a row of digits means. -/
def numberOf (radix : Radix) (digits : List Char) : Nat :=
  Nat.ofDigits radix.base (digits.reverse.map digitValue)

/-- The letters that ask for a length. -/
def lengthLetters : List (List Char × Length) :=
  [([], .plain), (['l'], .long), (['L'], .long), (['l', 'l'], .longLong), (['L', 'L'], .longLong)]

/-- The suffixes of integer literals. The letter for unsigned stands before or behind the length. -/
def suffixes : List (List Char × Suffix) :=
  lengthLetters.flatMap fun x => (x.1, ⟨false, x.2⟩) :: ['u', 'U'].flatMap fun u =>
    [(u :: x.1, ⟨true, x.2⟩), (x.1 ++ [u], ⟨true, x.2⟩)]

/-- An integer literal. -/
@[ext]
structure IntegerLiteral where
  radix : Radix
  first : Char
  rest : List Char
  suffix : Suffix
  isDigit : ∀ c ∈ first :: rest, c ∈ radix.digits
  starts : radix.Starts first

/-- Digits with single separators between some of them. -/
inductive Separated : List Char → List Char → Prop where
  | last : Separated [d] [d]
  | next (h : Separated cs ds) : Separated (d :: cs) (d :: ds)
  | separator (h : Separated cs ds) : Separated (d :: '\'' :: cs) (d :: ds)

namespace IntegerLiteral

/-- The digits. -/
def digits (l : IntegerLiteral) : List Char :=
  l.first :: l.rest

/-- The number that the literal means. -/
def number (l : IntegerLiteral) : Nat :=
  numberOf l.radix l.digits

/-- The literal is written as the given text. -/
inductive IsWritten (l : IntegerLiteral) : Text → Prop where
  | intro (hLead : lead ∈ l.radix.leads) (hRow : Separated row l.digits)
      (hLetters : (letters, l.suffix) ∈ suffixes) : IsWritten l ((lead ++ row ++ letters).map .char)

/-- The types that the literal may have, the preferred ones first. A decimal literal is unsigned
only if it says so. -/
def types (l : IntegerLiteral) : List IntegerType :=
  match l.suffix.isUnsigned, l.suffix.length, decide (l.radix = .decimal) with
  | false, .plain, true => [.int, .long, .longLong]
  | false, .plain, false =>
    [.int, .unsignedInt, .long, .unsignedLong, .longLong, .unsignedLongLong]
  | true, .plain, _ => [.unsignedInt, .unsignedLong, .unsignedLongLong]
  | false, .long, true => [.long, .longLong]
  | false, .long, false => [.long, .unsignedLong, .longLong, .unsignedLongLong]
  | true, .long, _ => [.unsignedLong, .unsignedLongLong]
  | false, .longLong, true => [.longLong]
  | false, .longLong, false => [.longLong, .unsignedLongLong]
  | true, .longLong, _ => [.unsignedLongLong]

/-- The type of the literal: the first one that holds its number. -/
def type? (l : IntegerLiteral) : Option IntegerType :=
  l.types.find? (·.Holds l.number)

/-- The type of the literal where `long` has the size of `int`. -/
def shortType? (l : IntegerLiteral) : Option IntegerType :=
  l.types.find? (·.HoldsShort l.number)

end IntegerLiteral

section

variable {l l' : IntegerLiteral} {lexeme : Text} {cs ds : List Char} {r : Radix} {f : Folded}

@[simp]
theorem chars?_map (cs : List Char) : Text.chars? (cs.map .char) = some cs := by
  induction cs with
  | nil => rfl
  | cons c cs ih => rw [List.map_cons, Text.chars?, ih, Option.map_some]

theorem chars?_eq_some_iff : Text.chars? lexeme = some cs ↔ lexeme = cs.map .char := by
  constructor
  · intro h
    induction lexeme generalizing cs with
    | nil =>
        cases h
        rfl
    | cons c lexeme ih =>
        cases c with
        | byte => cases h
        | char c =>
            obtain ⟨cs, hRest, rfl⟩ := Option.map_eq_some_iff.mp h
            rw [ih hRest, List.map_cons]
  · rintro rfl
    exact chars?_map cs

theorem withoutSeparators_map (cs : List Char) :
    withoutSeparators (cs.map .char) = (cs.filter (· != '\'')).map .char := by
  unfold withoutSeparators
  rw [List.filter_map]
  congr 1
  apply List.filter_congr
  intro c _
  simp [bne]

theorem Separated.filter (h : Separated cs ds) (hDigits : ∀ d ∈ ds, d ≠ '\'') :
    cs.filter (· != '\'') = ds := by
  induction h with
  | last => simpa using hDigits
  | next _ ih | separator _ ih =>
      rw [List.forall_mem_cons] at hDigits
      simp [hDigits.1, ih hDigits.2]

/-- The characters of integer literals without separators. -/
def alphabet : List Char :=
  "0123456789abcdefABCDEFxXuUlL".toList

theorem not_mem_alphabet : ∀ c ∈ ['.', 'p', 'P', '\'', '\n'], c ∉ alphabet := by
  decide

theorem mem_alphabet_of_mem_digits : ∀ c ∈ r.digits, c ∈ alphabet := by
  cases r <;> decide

theorem mem_alphabet_of_mem_lead : ∀ lead ∈ r.leads, ∀ c ∈ lead, c ∈ alphabet := by
  cases r <;> decide

theorem mem_alphabet_of_isLetter : ∀ c ∈ ['u', 'U', 'l', 'L'], c ∈ alphabet := by
  decide

theorem isLetter_of_mem_suffixes : ∀ x ∈ suffixes, ∀ c ∈ x.1, c ∈ ['u', 'U', 'l', 'L'] := by
  decide

theorem ofChars?_of_mem_suffixes : ∀ x ∈ suffixes, Suffix.ofChars? x.1 = some x.2 := by
  decide

theorem digitValue?_of_mem_digits :
    ∀ c ∈ r.digits, Numeral.digitValue? r.base c = some (digitValue c) := by
  cases r <;> decide

theorem isAscii_of_mem_alphabet : ∀ c ∈ alphabet, c.toNat < 128 := by
  decide

/-- Both ways to take the number of a row of digits agree. -/
theorem valueOf_eq_numberOf (h : ∀ c ∈ ds, c ∈ r.digits) : valueOf r.base ds = numberOf r ds := by
  unfold valueOf numberOf
  rw [Nat.ofDigits_eq_foldr, List.foldr_map, List.foldr_reverse]
  apply List.foldl_ext
  intro n c hc
  rw [digitValue?_of_mem_digits c (h c hc), Option.getD_some, Nat.cast_id]
  ring

theorem cut_append {base : Nat} {p : Char → Bool} (hDigits : ∀ c ∈ ds, p c = true)
    (hRest : ∀ c ∈ cs.head?, p c = false) : Digits.cut base p (ds ++ cs) = ⟨base, ds, cs⟩ := by
  have hTake : cs.takeWhile p = [] := by
    cases cs with
    | nil => rfl
    | cons c cs => rw [List.takeWhile_cons_of_neg (by simp [hRest c rfl])]
  have hDrop : cs.dropWhile p = cs := by
    cases cs with
    | nil => rfl
    | cons c cs => rw [List.dropWhile_cons_of_neg (by simp [hRest c rfl])]
  rw [Digits.cut, List.takeWhile_append_of_pos hDigits, List.dropWhile_append_of_pos hDigits,
    hTake, hDrop, List.append_nil]

/-- What starts with zero and has no other lead is read in base eight. -/
theorem ofChars?_zero
    (h : ∀ x d after, cs = x :: d :: after → ¬ ((x = 'x' ∨ x = 'X') ∧ isHexDigit d = true)
    ∧ ¬ ((x = 'b' ∨ x = 'B') ∧ isBinaryDigit d = true)) :
    Digits.ofChars? ('0' :: cs) = some (.cut 8 isOctalDigit ('0' :: cs)) := by
  match cs with
  | [] | [_] => rfl
  | x :: d :: after =>
      obtain ⟨hHexadecimal, hBinary⟩ := h x d after rfl
      rw [Digits.ofChars?, if_neg hHexadecimal, if_neg hBinary]

theorem ofChars?_hexadecimal {x d : Char} (hx : x = 'x' ∨ x = 'X') (hd : isHexDigit d = true) :
    Digits.ofChars? ('0' :: x :: d :: cs) = some (.cut 16 isHexDigit (d :: cs)) :=
  if_pos ⟨hx, hd⟩

theorem ofChars?_binary {x d : Char} (hx : x = 'b' ∨ x = 'B') (hd : isBinaryDigit d = true) :
    Digits.ofChars? ('0' :: x :: d :: cs) = some (.cut 2 isBinaryDigit (d :: cs)) := by
  rw [Digits.ofChars?, if_neg, if_pos ⟨hx, hd⟩]
  rintro ⟨hOther, -⟩
  rcases hx with rfl | rfl <;> simp at hOther

theorem ofChars?_decimal {c : Char} (hZero : c ≠ '0') (hDigit : c.isDigit = true) :
    Digits.ofChars? (c :: cs) = some (.cut 10 Char.isDigit (c :: cs)) := by
  rw [Digits.ofChars?.eq_def]
  split
  · rename_i h
    exact absurd (List.cons.inj h).1 hZero
  · rename_i h
    exact absurd (List.cons.inj h).1 hZero
  · rename_i h
    cases h
    rw [if_pos hDigit]
  · rename_i h
    cases h

theorem Radix.eq_of_base {r' : Radix} (h : r.base = r'.base) : r = r' := by
  revert h
  cases r <;> cases r' <;> decide

theorem test_of_mem_digits : ∀ c ∈ r.digits, r.test c = true := by
  cases r <;> decide

theorem mem_digits_of_test {c : Char} (h : r.test c = true) : c ∈ r.digits := by
  have hAscii : ∀ n < 128, r.test (Char.ofNat n) = true → Char.ofNat n ∈ r.digits := by
    cases r <;> decide
  have hSmall : c.toNat < 128 := by
    cases r with
    | binary =>
        rcases (Bool.or_eq_true _ _).mp h with h | h <;> rw [eq_of_beq h] <;> decide
    | octal =>
        have hGreatest : c.toNat ≤ 55 := of_decide_eq_true ((Bool.and_eq_true _ _).mp h).2
        omega
    | decimal =>
        have hGreatest : c.toNat ≤ 57 := of_decide_eq_true ((Bool.and_eq_true _ _).mp h).2
        omega
    | hexadecimal =>
        simp only [Radix.test, isHexDigit, Char.isDigit, Bool.or_eq_true, Bool.and_eq_true,
          decide_eq_true_eq] at h
        rcases h with (h | h) | h
        · have hGreatest : c.toNat ≤ 57 := h.2
          omega
        · have hGreatest : c.toNat ≤ 102 := h.2
          omega
        · have hGreatest : c.toNat ≤ 70 := h.2
          omega
  have hCode := hAscii c.toNat hSmall
  rw [Char.ofNat_toNat] at hCode
  exact hCode h

theorem test_of_mem_letters : ∀ c ∈ ['u', 'U', 'l', 'L'], r.test c = false := by
  cases r <;> decide

theorem not_mem_leads_of_octal : ∀ c ∈ Radix.octal.digits, c ∉ ['x', 'X', 'b', 'B'] := by
  decide

theorem not_mem_leads_of_letter : ∀ c ∈ ['u', 'U', 'l', 'L'], c ∉ ['x', 'X', 'b', 'B'] := by
  decide

/-- The lead and the first digit tell the base. -/
theorem ofChars?_lead {lead letters : List Char} (hLead : lead ∈ l.radix.leads)
    (hZero : l.radix = .octal → ∀ x d after, l.rest ++ letters = x :: d :: after →
      ¬ ((x = 'x' ∨ x = 'X') ∧ isHexDigit d = true)
      ∧ ¬ ((x = 'b' ∨ x = 'B') ∧ isBinaryDigit d = true)) :
    Digits.ofChars? (lead ++ l.digits ++ letters)
      = some (.cut l.radix.base l.radix.test (l.digits ++ letters)) := by
  obtain ⟨radix, first, rest, suffix, hDigits, hStarts⟩ := l
  dsimp only [IntegerLiteral.digits] at hLead ⊢
  have hTest := test_of_mem_digits first (hDigits first List.mem_cons_self)
  cases radix with
  | binary =>
      simp only [Radix.leads, List.mem_cons, List.not_mem_nil, or_false] at hLead
      rcases hLead with rfl | rfl
      · exact ofChars?_binary (.inl rfl) hTest
      · exact ofChars?_binary (.inr rfl) hTest
  | hexadecimal =>
      simp only [Radix.leads, List.mem_cons, List.not_mem_nil, or_false] at hLead
      rcases hLead with rfl | rfl
      · exact ofChars?_hexadecimal (.inl rfl) hTest
      · exact ofChars?_hexadecimal (.inr rfl) hTest
  | octal =>
      cases List.mem_singleton.mp hLead
      cases (hStarts : first = '0')
      exact ofChars?_zero (hZero rfl)
  | decimal =>
      cases List.mem_singleton.mp hLead
      exact ofChars?_decimal hStarts hTest

/-- Neither digits in base eight nor the letters of a suffix are a lead. -/
theorem not_lead_of_octal (hRadix : l.radix = .octal) {letters : List Char}
    (hLetters : ∀ c ∈ letters, c ∈ ['u', 'U', 'l', 'L']) (x d : Char) (after : List Char)
    (hText : l.rest ++ letters = x :: d :: after) :
    ¬ ((x = 'x' ∨ x = 'X') ∧ isHexDigit d = true)
    ∧ ¬ ((x = 'b' ∨ x = 'B') ∧ isBinaryDigit d = true) := by
  have hx : x ∈ l.rest ++ letters := by
    rw [hText]
    exact List.mem_cons_self
  have hOther : x ∉ ['x', 'X', 'b', 'B'] := by
    rcases List.mem_append.mp hx with hx | hx
    · exact not_mem_leads_of_octal x (hRadix ▸ l.isDigit x (List.mem_cons_of_mem _ hx))
    · exact not_mem_leads_of_letter x (hLetters x hx)
  simp only [List.mem_cons, List.not_mem_nil, or_false, not_or] at hOther
  simp [hOther]

theorem cut_digits {letters : List Char} (hLetters : ∀ c ∈ letters, c ∈ ['u', 'U', 'l', 'L']) :
    Digits.cut l.radix.base l.radix.test (l.digits ++ letters) = ⟨l.radix.base, l.digits,
      letters⟩ :=
  cut_append (fun c hc => test_of_mem_digits c (l.isDigit c hc)) fun c hc =>
    test_of_mem_letters c (hLetters c (List.mem_of_mem_head? hc))

/-- The types that the program tries are those of the language. -/
theorem candidates_eq (l : IntegerLiteral) :
    candidates l.suffix (l.radix.base == 10) = l.types := by
  obtain ⟨radix, first, rest, ⟨isUnsigned, length⟩, -, -⟩ := l
  cases radix <;> cases isUnsigned <;> cases length <;> rfl

theorem fits_iff {t : IntegerType} {n : Nat} : fits t t.bits n = true ↔ t.Holds n := by
  unfold fits
  cases hSigned : t.isSigned with
  | true =>
      rw [IntegerType.holds_iff_of_isSigned hSigned, if_pos rfl, decide_eq_true_iff]
      show n < t.half ↔ _
      omega
  | false =>
      rw [IntegerType.holds_iff_of_not_isSigned hSigned, if_neg Bool.false_ne_true,
        decide_eq_true_iff]
      show n < t.modulus ↔ _
      omega

theorem fits_bitsShortLong_iff {t : IntegerType} {n : Nat} :
    fits t t.bitsShortLong n = true ↔ t.HoldsShort n := by
  cases t with
  | long => exact fits_iff (t := .int)
  | unsignedLong => exact fits_iff (t := .unsignedInt)
  | _ => exact fits_iff

theorem ascii?_map (h : ∀ c ∈ cs, c ∈ alphabet) : ascii? (cs.map .char) = some cs := by
  have hEnd : (cs.getLast? == some '\n') = false := by
    rw [beq_eq_false_iff_ne]
    intro hEnd
    exact not_mem_alphabet _ (by decide) (h _ (List.mem_of_getLast? hEnd))
  have hAscii : cs.all (fun c => decide (c.toNat < 128)) = true := by
    rw [List.all_eq_true]
    intro c hc
    exact decide_eq_true (isAscii_of_mem_alphabet c (h c hc))
  rw [ascii?, chars?_map]
  simp only [hEnd, Bool.false_eq_true, if_false, hAscii, if_true]

theorem contains_map {c : Char} : (cs.map SourceChar.char).contains (.char c) = cs.contains c := by
  rw [Bool.eq_iff_iff, List.contains_iff_mem, List.contains_iff_mem]
  simp

theorem not_exponent_of_mem_digits (hr : r ≠ .hexadecimal) :
    ∀ c ∈ r.digits, c ∉ ['.', 'e', 'E'] := by
  revert hr
  cases r <;> decide

theorem not_exponent_of_mem_lead : ∀ lead ∈ r.leads, ∀ c ∈ lead, c ∉ ['.', 'e', 'E'] := by
  cases r <;> decide

theorem not_exponent_of_isLetter : ∀ c ∈ ['u', 'U', 'l', 'L'], c ∉ ['.', 'e', 'E'] := by
  decide

/-- An integer literal is not taken for a floating one. -/
theorem isFloating_eq_false {lead letters : List Char} (hLead : lead ∈ l.radix.leads)
    (hLetters : ∀ c ∈ letters, c ∈ ['u', 'U', 'l', 'L'])
    (hAlphabet : ∀ c ∈ lead ++ l.digits ++ letters, c ∈ alphabet)
    (hText : withoutSeparators lexeme = (lead ++ l.digits ++ letters).map .char) :
    isFloating lexeme = false := by
  have hMissing : ∀ c, c ∉ lead ++ l.digits ++ letters →
      ((lead ++ l.digits ++ letters).map SourceChar.char).contains (.char c) = false := by
    intro c hc
    rw [contains_map]
    simpa using hc
  unfold isFloating
  dsimp only
  rw [hText]
  split
  · rw [hMissing 'p' (mt (hAlphabet _) (not_mem_alphabet _ (by decide))),
      hMissing 'P' (mt (hAlphabet _) (not_mem_alphabet _ (by decide)))]
    rfl
  · rename_i hStart
    have hRadix : l.radix ≠ .hexadecimal := by
      intro hRadix
      rw [hRadix] at hLead
      simp only [Radix.leads, List.mem_cons, List.not_mem_nil, or_false] at hLead
      rcases hLead with rfl | rfl
      · exact hStart (.inl rfl)
      · exact hStart (.inr rfl)
    have hExponent : ∀ c ∈ ['.', 'e', 'E'], c ∉ lead ++ l.digits ++ letters := by
      intro c hExponent hc
      simp only [List.mem_append] at hc
      rcases hc with (hc | hc) | hc
      · exact not_exponent_of_mem_lead lead hLead c hc hExponent
      · exact not_exponent_of_mem_digits hRadix c (l.isDigit c hc) hExponent
      · exact not_exponent_of_isLetter c (hLetters c hc) hExponent
    rw [hMissing '.' (hExponent _ (by decide)), hMissing 'e' (hExponent _ (by decide)),
      hMissing 'E' (hExponent _ (by decide))]
    rfl

theorem ne_separator_of_mem_alphabet : ∀ c ∈ alphabet, c ≠ '\'' := by
  decide

theorem filter_alphabet (h : ∀ c ∈ cs, c ∈ alphabet) : cs.filter (· != '\'') = cs := by
  rw [List.filter_eq_self]
  intro c hc
  simpa using ne_separator_of_mem_alphabet c (h c hc)

/-- In front of anything, a numeral without its separators is its lead and its digits. -/
theorem withoutSeparators_numeral {lead row : List Char} {tail : Text}
    (hLead : lead ∈ l.radix.leads) (hRow : Separated row l.digits) :
    withoutSeparators ((lead ++ row).map .char ++ tail)
      = (lead ++ l.digits).map .char ++ withoutSeparators tail := by
  have hDigits : ∀ c ∈ l.digits, c ≠ '\'' := fun c hc =>
    ne_separator_of_mem_alphabet c (mem_alphabet_of_mem_digits c (l.isDigit c hc))
  rw [withoutSeparators, List.filter_append, ← withoutSeparators, withoutSeparators_map,
    List.filter_append, filter_alphabet (mem_alphabet_of_mem_lead lead hLead), hRow.filter hDigits]
  rfl

namespace IntegerLiteral

/-- A written literal without its separators is its lead, its digits and its suffix. -/
theorem IsWritten.plain (h : l.IsWritten lexeme) : ∃ lead letters, lead ∈ l.radix.leads
    ∧ (letters, l.suffix) ∈ suffixes ∧ (∀ c ∈ lead ++ l.digits ++ letters, c ∈ alphabet)
    ∧ withoutSeparators lexeme = (lead ++ l.digits ++ letters).map .char := by
  obtain ⟨hLead, hRow, hLetters⟩ := h
  rename_i lead row letters
  have hAlphabet : ∀ c ∈ lead ++ l.digits ++ letters, c ∈ alphabet := by
    intro c hc
    simp only [List.mem_append] at hc
    rcases hc with (hc | hc) | hc
    · exact mem_alphabet_of_mem_lead lead hLead c hc
    · exact mem_alphabet_of_mem_digits c (l.isDigit c hc)
    · exact mem_alphabet_of_isLetter c (isLetter_of_mem_suffixes _ hLetters c hc)
  refine ⟨lead, letters, hLead, hLetters, hAlphabet, ?_⟩
  rw [List.forall_mem_append] at hAlphabet
  rw [List.map_append, withoutSeparators_numeral hLead hRow, withoutSeparators_map,
    filter_alphabet hAlphabet.2, ← List.map_append]

/-- A written literal falls apart into its digits and its suffix. -/
theorem IsWritten.digits (h : l.IsWritten lexeme) : ∃ letters,
    (ascii? (withoutSeparators lexeme)).bind Digits.ofChars? = some ⟨l.radix.base, l.digits,
      letters⟩
      ∧ letters.all (fun c => c == 'u' || c == 'U' || c == 'l' || c == 'L') = true
      ∧ Suffix.ofChars? letters = some l.suffix := by
  obtain ⟨lead, letters, hLead, hLetters, hAlphabet, hText⟩ := h.plain
  have hLetter := isLetter_of_mem_suffixes _ hLetters
  refine ⟨letters, ?_, ?_, ofChars?_of_mem_suffixes _ hLetters⟩
  · rw [hText, ascii?_map hAlphabet, Option.bind_some,
      ofChars?_lead hLead (not_lead_of_octal · hLetter), cut_digits hLetter]
  · rw [List.all_eq_true]
    intro c hc
    simpa [or_assoc] using hLetter c hc

/-- No text is two literals. -/
theorem IsWritten.unique (h : l.IsWritten lexeme) (h' : l'.IsWritten lexeme) : l = l' := by
  obtain ⟨letters, hDigits, -, hSuffix⟩ := h.digits
  obtain ⟨letters', hDigits', -, hSuffix'⟩ := h'.digits
  have hText := Option.some.inj (hDigits.symm.trans hDigits')
  rw [Digits.mk.injEq] at hText
  obtain ⟨hBase, hRow, rfl⟩ := hText
  have hSame := Option.some.inj (hSuffix.symm.trans hSuffix')
  obtain ⟨hFirst, hRest⟩ := List.cons.inj hRow
  exact IntegerLiteral.ext (Radix.eq_of_base hBase) hFirst hRest hSame

/-- Digits without separators. -/
theorem separated_self : ∀ (d : Char) (ds : List Char), Separated (d :: ds) (d :: ds)
  | _, [] => .last
  | _, d :: ds => .next (separated_self d ds)

theorem withoutSeparators_idem (lexeme : Text) :
    Literal.withoutSeparators (Literal.withoutSeparators lexeme) =
    Literal.withoutSeparators lexeme := by
  unfold Literal.withoutSeparators
  rw [List.filter_filter]
  simp only [Bool.and_self]

/-- The separators of a literal do not matter. -/
theorem IsWritten.withoutSeparators (h : l.IsWritten lexeme) :
    l.IsWritten (Literal.withoutSeparators lexeme) := by
  obtain ⟨lead, letters, hLead, hLetters, -, hText⟩ := h.plain
  rw [hText]
  exact .intro hLead (separated_self _ _) hLetters

/-- What is read is a literal once separators are removed. -/
theorem number_eq (h : l.IsWritten (Literal.withoutSeparators lexeme)) : isFloating lexeme = false
    ∧ Literal.number lexeme =
      if l.radix.base = 10 ∧ Numeral.maxDigits < l.digits.length
      then .error (.tooManyDigits l.digits.length)
      else match l.type? with
        | none => .error (.integerTooLarge lexeme)
        | some t => if l.shortType? = some t then .ok ⟨.integral t (some l.number), .high, []⟩
          else .ok ⟨.integral (if t.isSigned then .longLong else .unsignedLongLong) (some l.number),
            .medium, ["literal " ++ lexeme.display ++ " is '" ++ t.name ++ "' under LP64 but '"
              ++ (l.shortType?.map IntegerType.name).getD "None" ++ "' under LLP64; widened to '"
              ++ (if t.isSigned then IntegerType.longLong else .unsignedLongLong).name
              ++ "'"]⟩ := by
  obtain ⟨lead, letters, hLead, hLetters, hAlphabet, hText⟩ := h.plain
  rw [withoutSeparators_idem] at hText
  have hFloating := isFloating_eq_false hLead (isLetter_of_mem_suffixes _ hLetters) hAlphabet hText
  refine ⟨hFloating, ?_⟩
  obtain ⟨letters, hDigits, hAll, hSuffix⟩ := h.digits
  rw [withoutSeparators_idem] at hDigits
  have hNumber : valueOf l.radix.base l.digits = l.number := valueOf_eq_numberOf l.isDigit
  have hType : (l.types.find? fun t => fits t t.bits l.number) = l.type? := by
    unfold type?
    congr 1
    funext t
    rw [Bool.eq_iff_iff, fits_iff, decide_eq_true_iff]
  have hShort : (l.types.find? fun t => fits t t.bitsShortLong l.number) = l.shortType? := by
    unfold shortType?
    congr 1
    funext t
    rw [Bool.eq_iff_iff, fits_bitsShortLong_iff, decide_eq_true_iff]
  rw [Literal.number, hFloating, if_neg Bool.false_ne_true, integer, hDigits]
  by_cases hLong : l.radix.base = 10 ∧ Numeral.maxDigits < l.digits.length
  · simp only [hAll, Bool.not_true, Bool.false_eq_true, if_false, hSuffix, if_pos hLong]
  · cases hFirst : l.type? <;>
      simp only [hAll, Bool.not_true, Bool.false_eq_true, if_false, hSuffix, if_neg hLong, hNumber,
        candidates_eq, hType, hFirst, hShort]

/-- A literal that is read with full confidence has its type, and its number is the value. -/
theorem IsWritten.number_eq_ok (h : l.IsWritten lexeme) (hRead : Literal.number lexeme = .ok f)
    (hHigh : f.confidence = .high) :
    ∃ t, l.type? = some t ∧ f.constant = .integral t (some l.number) := by
  rw [(number_eq h.withoutSeparators).2] at hRead
  split at hRead
  · cases hRead
  split at hRead
  · cases hRead
  rename_i t hFirst
  split at hRead
  · cases hRead
    exact ⟨t, hFirst, rfl⟩
  · -- A type that depends on the size of `long` is never sure.
    cases hRead
    cases hHigh

end IntegerLiteral

end

end Demacro.Literal
