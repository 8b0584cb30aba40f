import Demacro.Proofs.Constant.Numerals
import Demacro.Proofs.Success
import Mathlib.Data.Nat.Digits.Lemmas

/-!
The reading of integer literals: it fails only if no type holds the number, and otherwise the type
is the first one that does, or a longer one if that depends on the size of `long`. Behind the digits
of a numeral nothing but a suffix is accepted, up to separators, which are removed wherever they
stand.
-/

namespace Demacro.Literal

namespace IntegerLiteral

/-- What stands behind the digits goes on with the number: with a digit, a point, an exponent, or as
the mark of another base behind a zero. -/
inductive GoesOn (l : IntegerLiteral) : Text → Prop where
  | digit (h : c ∈ Radix.decimal.digits ∨ c ∈ l.radix.digits) : GoesOn l (.char c :: after)
  | point : GoesOn l (.char '.' :: after)
  | exponent (hLetter : c ∈ if l.radix = .hexadecimal then ['p', 'P'] else ['e', 'E'])
      (hSign : sign ∈ [[], ['+'], ['-']]) (hDigit : d ∈ Radix.decimal.digits) :
      GoesOn l ((c :: (sign ++ [d])).map .char ++ after)
  | mark (hZero : l.digits = ['0'])
      (hMark : c ∈ ['x', 'X'] ∧ (d ∈ Radix.hexadecimal.digits ∨ d = '.')
      ∨ c ∈ ['b', 'B'] ∧ d ∈ Radix.binary.digits) : GoesOn l (.char c :: .char d :: after)

end IntegerLiteral

section

variable {l : IntegerLiteral} {lexeme tail : Text} {cs ds letters lead row : List Char} {f : Folded}
  {n : Nat} {t : IntegerType} {suffix : Suffix}

/-- What is not too large for a type has at most twenty decimal digits. -/
theorem lt_of_holds (h : t.Holds n) : n < 10 ^ 20 := by
  have hGreatest : ∀ t : IntegerType, t.greatest < 10 ^ 20 := by
    intro t
    cases t <;> decide
  have hLess := h.2.trans_lt (hGreatest t)
  exact_mod_cast hLess

/-- A decimal literal is at least as large as a power of ten with as many digits. -/
theorem pow_le_number (hRadix : l.radix = .decimal) : 10 ^ l.rest.length ≤ l.number := by
  obtain ⟨radix, first, rest, suffix, hDigits, hStarts⟩ := l
  cases hRadix
  have hFirst : ∀ c ∈ Radix.decimal.digits, c ≠ '0' → digitValue c ≠ 0 := by
    decide
  have hRow := Nat.pow_length_le_mul_ofDigits (b := 8) (l := (first :: rest).reverse.map digitValue)
    (by simp) (by simpa using hFirst first (hDigits first List.mem_cons_self) hStarts)
  rw [List.length_map, List.length_reverse, List.length_cons, pow_succ, Nat.mul_comm] at hRow
  exact Nat.le_of_mul_le_mul_left hRow (by decide)

/-- A literal that is too long to be read is too large for any type. -/
theorem type?_eq_none_of_long (hBase : l.radix.base = 10)
    (hLong : Numeral.maxDigits < l.digits.length) : l.type? = none := by
  rw [IntegerLiteral.type?, List.find?_eq_none]
  intro t _ hHolds
  have hLess := lt_of_holds (of_decide_eq_true hHolds)
  have hRadix : l.radix = .decimal := Radix.eq_of_base hBase
  have hMany : 20 ≤ l.rest.length := by
    have hLength : Numeral.maxDigits < l.rest.length + 1 := hLong
    unfold Numeral.maxDigits at hLength
    omega
  exact absurd hLess
    (not_lt.mpr ((Nat.pow_le_pow_right (by decide) hMany).trans (pow_le_number hRadix)))

/-- A number is a value of the longest type with its sign. -/
theorem holds_longest (h : t.Holds n) :
    (if t.isSigned then IntegerType.longLong else .unsignedLongLong).Holds n := by
  have hCovers : (if t.isSigned then IntegerType.longLong else .unsignedLongLong).Covers t := by
    cases t <;> decide
  exact hCovers.holds h

namespace IntegerLiteral

theorem number_eq_error_iff (h : l.IsWritten (withoutSeparators lexeme)) :
    (∃ e, Literal.number lexeme = .error e) ↔ l.type? = none := by
  rw [(number_eq h).2]
  split
  · rename_i hLong
    simp [type?_eq_none_of_long hLong.1 hLong.2]
  split
  · rename_i hNone
    simp [hNone]
  · rename_i t hType
    rw [hType]
    split <;> simp

theorem constant_of_number (h : l.IsWritten (withoutSeparators lexeme))
    (hRead : Literal.number lexeme = .ok f) :
    ∃ first given, l.type? = some first ∧ f.constant = .integral given (some l.number)
    ∧ given.Holds l.number
      ∧ if l.shortType? = some first then given = first ∧ f.confidence = .high
        else given = (if first.isSigned then .longLong else .unsignedLongLong)
        ∧ f.confidence = .medium := by
  rw [(number_eq h).2] at hRead
  split at hRead
  · cases hRead
  split at hRead
  · cases hRead
  rename_i first hType
  have hHolds : first.Holds l.number := by
    unfold type? at hType
    have hTest := List.find?_some hType
    exact of_decide_eq_true hTest
  split at hRead
  · rename_i hSame
    cases hRead
    exact ⟨first, first, hType, rfl, hHolds, by rw [if_pos hSame]; exact ⟨rfl, rfl⟩⟩
  · rename_i hOther
    cases hRead
    exact ⟨first, _, hType, rfl, holds_longest hHolds, by rw [if_neg hOther]; exact ⟨rfl, rfl⟩⟩

end IntegerLiteral

/-- The letters that are understood as a suffix are one. -/
theorem mem_suffixes_of_ofChars? (hLetters : ∀ c ∈ cs, c ∈ ['u', 'U', 'l', 'L'])
    (h : Suffix.ofChars? cs = some suffix) : (cs, suffix) ∈ suffixes := by
  have hShort : cs.length ≤ 3 := by
    unfold Suffix.ofChars? at h
    dsimp only at h
    split at h
    · cases h
    rename_i hCount
    rw [not_or, not_ne_iff, not_lt] at hCount
    split at h
    · cases h
    split at h
    · rename_i hLength
      rw [hLength, List.length_nil] at hCount
      omega
    · rename_i hLength
      rw [hLength, List.length_singleton] at hCount
      omega
    · rename_i hLength
      rw [hLength, List.length_cons, List.length_singleton] at hCount
      omega
    · cases h
  have hOne : ∀ a ∈ ['u', 'U', 'l', 'L'], ∀ s ∈ Suffix.ofChars? [a], ([a], s) ∈ suffixes := by
    decide
  have hTwo : ∀ a ∈ ['u', 'U', 'l', 'L'], ∀ b ∈ ['u', 'U', 'l', 'L'], ∀ s ∈ Suffix.ofChars? [a, b],
      ([a, b], s) ∈ suffixes := by decide
  have hThree : ∀ a ∈ ['u', 'U', 'l', 'L'], ∀ b ∈ ['u', 'U', 'l', 'L'], ∀ c ∈ ['u', 'U', 'l', 'L'],
      ∀ s ∈ Suffix.ofChars? [a, b, c], ([a, b, c], s) ∈ suffixes := by decide
  match cs with
  | [] =>
      cases h
      decide
  | [a] => exact hOne a (hLetters a (by simp)) suffix h
  | [a, b] => exact hTwo a (hLetters a (by simp)) b (hLetters b (by simp)) suffix h
  | [a, b, c] =>
      exact hThree a (hLetters a (by simp)) b (hLetters b (by simp)) c (hLetters c (by simp))
        suffix h
  | _ :: _ :: _ :: _ :: _ =>
      simp only [List.length_cons] at hShort
      omega

theorem eq_map_of_ascii? (hLine : SourceChar.char '\n' ∉ lexeme) (h : ascii? lexeme = some cs) :
    lexeme = cs.map .char := by
  unfold ascii? at h
  split at h
  · rename_i all hChars
    rw [chars?_eq_some_iff] at hChars
    have hEnd : ¬ (all.getLast? == some '\n') = true := by
      intro hEnd
      apply hLine
      rw [hChars]
      exact List.mem_map_of_mem (List.mem_of_getLast? (eq_of_beq hEnd))
    dsimp only at h
    rw [if_neg hEnd] at h
    split at h
    · cases h
      exact hChars
    · cases h
  · cases h

/-- A row of digits with something else behind it. -/
theorem mantissa?_append {p : Char → Bool} (hDigits : ∀ c ∈ ds, p c = true)
    (hHead : ∀ c ∈ cs.head?, p c = false ∧ c ≠ '.') :
    mantissa? p (ds ++ cs) = if ds.isEmpty then none else some (ds, 0, false, cs) := by
  have hCut : Digits.cut 0 p (ds ++ cs) = ⟨0, ds, cs⟩ := cut_append hDigits fun c hc =>
    (hHead c hc).1
  have hTake : (ds ++ cs).takeWhile p = ds := congrArg Digits.digits hCut
  unfold mantissa?
  dsimp only
  rw [hTake, List.drop_left]
  split
  · exact absurd rfl (hHead '.' rfl).2
  · rfl

theorem exponent?_eq_none (h : ∀ sign ∈ [[], ['+'], ['-']], ∀ d ∈ Radix.decimal.digits, ∀ after,
    cs ≠ sign ++ d :: after) : exponent? cs = none := by
  have hNone : ∀ body : List Char, (∀ d ∈ Radix.decimal.digits, ∀ after, body ≠ d :: after) →
      body.takeWhile Char.isDigit = [] := by
    intro body hBody
    cases body with
    | nil => rfl
    | cons d after =>
        refine List.takeWhile_cons_of_neg fun hDigit => ?_
        exact hBody d (mem_digits_of_test (r := .decimal) hDigit) after rfl
  unfold exponent?
  split
  rename_i negative body hBody
  dsimp only
  rw [hNone body]
  · rfl
  intro d hd after hCons
  subst hCons
  split at hBody
  · cases hBody
    exact h ['-'] (by simp) d hd after rfl
  · cases hBody
    exact h ['+'] (by simp) d hd after rfl
  · cases hBody
    exact h [] (by simp) d hd after rfl

/-- Digits without a point and an exponent are no floating literal. -/
theorem decimal?_append (hDigits : ∀ c ∈ ds, c.isDigit = true)
    (hHead : ∀ c ∈ cs.head?, c.isDigit = false ∧ c ≠ '.')
    (hExponent : ∀ c after, cs = c :: after → c = 'e' ∨ c = 'E' → exponent? after = none) :
    decimal? (ds ++ cs) = none := by
  unfold decimal?
  rw [mantissa?_append hDigits hHead]
  cases ds with
  | nil => rfl
  | cons d ds =>
      cases cs with
      | nil => rfl
      | cons c after =>
          by_cases hLetter : c = 'e' ∨ c = 'E'
          · simp [hLetter, hExponent c after rfl hLetter]
          · simp [hLetter]

theorem hexadecimal?_eq_none (h : ∀ x after digits places pointed p behind, cs = '0' :: x :: after →
    x = 'x' ∨ x = 'X' →
    mantissa? isHexDigit after = some (digits, places, pointed, p :: behind) → p = 'p' ∨ p = 'P' →
    exponent? behind = none) : hexadecimal? cs = none := by
  unfold hexadecimal?
  split
  · rename_i x after
    split
    · rename_i hMark
      split
      · rename_i digits places pointed p behind hMantissa
        split
        · rename_i hLetter
          rw [h x after digits places pointed p behind rfl hMark hMantissa hLetter]
        · rfl
      · rfl
    · rfl
  · rfl

/-- Behind the zero at the front of a literal in base eight stands a digit, or what is behind that
zero. -/
theorem octal_second {x : Char} {after : List Char} (hRadix : l.radix = .octal)
    (hText : l.rest ++ letters = x :: after) :
    x ∈ Radix.octal.digits ∨ l.digits = ['0'] ∧ letters = x :: after := by
  have hFirst : l.first = '0' := by
    have hStarts := l.starts
    rwa [hRadix] at hStarts
  cases hRest : l.rest with
  | nil =>
      rw [hRest] at hText
      exact .inr ⟨by rw [IntegerLiteral.digits, hFirst, hRest], hText⟩
  | cons d ds =>
      rw [hRest] at hText
      obtain rfl : d = x := (List.cons.inj hText).1
      exact .inl (hRadix ▸ l.isDigit d (by simp [hRest]))

section

variable (hLead : lead ∈ l.radix.leads) (hGoesOn : ¬ l.GoesOn (letters.map .char))

include hGoesOn

theorem not_digit_of_not_goesOn {c : Char} (hc : c ∈ letters.head?) :
    c ∉ Radix.decimal.digits ∧ c ∉ l.radix.digits ∧ c ≠ '.' := by
  cases letters with
  | nil => cases hc
  | cons head after =>
      cases hc
      exact ⟨fun h => hGoesOn (.digit (.inl h)), fun h => hGoesOn (.digit (.inr h)),
        fun h => hGoesOn (h ▸ .point)⟩

theorem exponent?_of_not_goesOn {c : Char} {after : List Char} (hLetters : letters = c :: after)
    (hLetter : c ∈ if l.radix = .hexadecimal then ['p', 'P'] else ['e', 'E']) :
    exponent? after = none := by
  refine exponent?_eq_none fun sign hSign d hDigit behind hAfter => hGoesOn ?_
  rw [hLetters, hAfter, show c :: (sign ++ d :: behind) = c :: (sign ++ [d]) ++ behind by
    simp, List.map_append]
  exact .exponent hLetter hSign hDigit

include hLead

theorem decimal?_numeral : decimal? (lead ++ l.digits ++ letters) = none := by
  have hHead : ∀ c ∈ letters.head?, c.isDigit = false ∧ c ≠ '.' := by
    intro c hc
    obtain ⟨hDecimal, -, hPoint⟩ := not_digit_of_not_goesOn hGoesOn hc
    exact ⟨eq_false_of_ne_true (mt (mem_digits_of_test (r := .decimal)) hDecimal), hPoint⟩
  have hPlain : l.radix ≠ .hexadecimal → lead = [] → (∀ c ∈ l.radix.digits, c.isDigit = true) →
      decimal? (lead ++ l.digits ++ letters) = none := by
    rintro hRadix rfl hDigits
    refine decimal?_append (fun c hc => hDigits c (l.isDigit c hc)) hHead
      fun c after hLetters hLetter => ?_
    refine exponent?_of_not_goesOn hGoesOn hLetters ?_
    rw [if_neg hRadix]
    simpa using hLetter
  have hMarked : ∀ x, lead = ['0', x] → x.isDigit = false ∧ x ≠ '.' ∧ x ≠ 'e' ∧ x ≠ 'E' →
      decimal? (lead ++ l.digits ++ letters) = none := by
    rintro x rfl ⟨hDigit, hPoint, hLower, hUpper⟩
    show decimal? (['0'] ++ (x :: (l.digits ++ letters))) = none
    refine decimal?_append (by decide) ?_ ?_
    · rintro _ ⟨⟩
      exact ⟨hDigit, hPoint⟩
    · rintro c after hCons (rfl | rfl)
      · exact absurd (List.cons.inj hCons).1 hLower
      · exact absurd (List.cons.inj hCons).1 hUpper
  cases hRadix : l.radix with
  | decimal | octal =>
      rw [hRadix] at hLead hPlain
      exact hPlain (by decide) (List.mem_singleton.mp hLead) (by decide)
  | binary | hexadecimal =>
      rw [hRadix] at hLead
      simp only [Radix.leads, List.mem_cons, List.not_mem_nil, or_false] at hLead
      rcases hLead with h | h
      · exact hMarked _ h (by decide)
      · exact hMarked _ h (by decide)

/-- Behind the mark of hexadecimal numbers, digits without an exponent are no floating literal. -/
theorem hexadecimal?_numeral : hexadecimal? (lead ++ l.digits ++ letters) = none := by
  refine hexadecimal?_eq_none fun x after digits places pointed p behind hText hMark hMantissa
    hLetter => ?_
  cases hRadix : l.radix with
  | binary =>
      rw [hRadix] at hLead
      simp only [Radix.leads, List.mem_cons, List.not_mem_nil, or_false] at hLead
      rcases hLead with rfl | rfl <;> cases hText <;> simp at hMark
  | hexadecimal =>
      have hTest : ∀ c ∈ l.digits, isHexDigit c = true := by
        intro c hc
        exact test_of_mem_digits (r := .hexadecimal) c (hRadix ▸ l.isDigit c hc)
      have hHead : ∀ c ∈ letters.head?, isHexDigit c = false ∧ c ≠ '.' := by
        intro c hc
        obtain ⟨-, hDigit, hPoint⟩ := not_digit_of_not_goesOn hGoesOn hc
        rw [hRadix] at hDigit
        exact ⟨eq_false_of_ne_true (mt (mem_digits_of_test (r := .hexadecimal)) hDigit), hPoint⟩
      have hAfter : after = l.digits ++ letters := by
        rw [hRadix] at hLead
        simp only [Radix.leads, List.mem_cons, List.not_mem_nil, or_false] at hLead
        rcases hLead with rfl | rfl <;> cases hText <;> rfl
      rw [hAfter, mantissa?_append hTest hHead] at hMantissa
      cases hMantissa
      exact exponent?_of_not_goesOn hGoesOn rfl (by rw [if_pos hRadix]; simpa using hLetter)
  | decimal =>
      rw [hRadix] at hLead
      cases List.mem_singleton.mp hLead
      have hStarts := l.starts
      rw [hRadix] at hStarts
      exact absurd (List.cons.inj hText).1 hStarts
  | octal =>
      rw [hRadix] at hLead
      cases List.mem_singleton.mp hLead
      have hOctal : ∀ c ∈ Radix.octal.digits, ¬ (c = 'x' ∨ c = 'X') := by
        decide
      rcases octal_second hRadix (List.cons.inj hText).2 with hDigit | ⟨hZero, rfl⟩
      · exact absurd hMark (hOctal x hDigit)
      -- Without a digit or a point there is nothing in front of the exponent.
      have hHead : ∀ d ∈ after.head?, isHexDigit d = false ∧ d ≠ '.' := by
        intro d hd
        have hMark : x ∈ ['x', 'X'] := by simpa using hMark
        cases after with
        | nil => cases hd
        | cons _ after =>
            cases hd
            exact ⟨eq_false_of_ne_true fun h => hGoesOn (.mark hZero
              (.inl ⟨hMark, .inl (mem_digits_of_test (r := .hexadecimal) h)⟩)),
              fun h => hGoesOn (.mark hZero (.inl ⟨hMark, .inr h⟩))⟩
      rw [← List.nil_append after, mantissa?_append (by simp) hHead] at hMantissa
      cases hMantissa

/-- The digits of the numeral are cut off. -/
theorem ofChars?_numeral :
    Digits.ofChars? (lead ++ l.digits ++ letters) = some ⟨l.radix.base, l.digits, letters⟩ := by
  have hZero : l.radix = .octal → ∀ x d after, l.rest ++ letters = x :: d :: after →
      ¬ ((x = 'x' ∨ x = 'X') ∧ isHexDigit d = true)
      ∧ ¬ ((x = 'b' ∨ x = 'B') ∧ isBinaryDigit d = true) := by
    intro hRadix x d after hText
    rcases octal_second hRadix hText with hDigit | ⟨hZero, rfl⟩
    · have hOther := not_mem_leads_of_octal x hDigit
      simp only [List.mem_cons, List.not_mem_nil, or_false, not_or] at hOther
      simp [hOther]
    · constructor
      · rintro ⟨hMark, hDigit⟩
        exact hGoesOn
          (.mark hZero
            (.inl ⟨by simpa using hMark, .inl (mem_digits_of_test (r := .hexadecimal) hDigit)⟩))
      · rintro ⟨hMark, hDigit⟩
        exact hGoesOn
          (.mark hZero (.inr ⟨by simpa using hMark, mem_digits_of_test (r := .binary) hDigit⟩))
  have hCut : Digits.cut l.radix.base l.radix.test (l.digits ++ letters) = ⟨l.radix.base, l.digits,
      letters⟩ :=
    cut_append (fun c hc => test_of_mem_digits c (l.isDigit c hc)) fun c hc =>
      eq_false_of_ne_true (mt mem_digits_of_test (not_digit_of_not_goesOn hGoesOn hc).2.1)
  rw [ofChars?_lead hLead hZero, hCut]

end

/-- The characters of a numeral and of what is behind it. -/
theorem exists_letters_of_ascii? (hLead : lead ∈ l.radix.leads) (hRow : Separated row l.digits)
    (hLine : SourceChar.char '\n' ∉ tail)
    (h : ascii? (withoutSeparators ((lead ++ row).map .char ++ tail)) = some cs) :
    ∃ letters, withoutSeparators tail = letters.map .char ∧ cs = lead ++ l.digits ++ letters := by
  have hNumeral : ∀ c ∈ lead ++ l.digits, c ∈ alphabet :=
    List.forall_mem_append.mpr ⟨mem_alphabet_of_mem_lead lead hLead, fun c hc =>
      mem_alphabet_of_mem_digits c (l.isDigit c hc)⟩
  have hPlainLine : SourceChar.char '\n' ∉ (lead ++ l.digits).map SourceChar.char
      ++ withoutSeparators tail := by
    intro hMem
    rcases List.mem_append.mp hMem with hMem | hMem
    · obtain ⟨c, hc, hSame⟩ := List.mem_map.mp hMem
      cases hSame
      exact not_mem_alphabet _ (by decide) (hNumeral _ hc)
    · exact hLine (List.mem_of_mem_filter hMem)
  rw [withoutSeparators_numeral hLead hRow] at h
  obtain ⟨front, letters, rfl, hFront, hTail⟩ :=
    List.map_eq_append_iff.mp (eq_map_of_ascii? hPlainLine h).symm
  have hInjective : Function.Injective SourceChar.char := fun _ _ h => SourceChar.char.inj h
  rw [hInjective.list_map hFront]
  exact ⟨letters, hTail.symm, rfl⟩

/-- What is read behind a numeral is a suffix once separators are removed. -/
theorem exists_suffix_of_number (hLead : lead ∈ l.radix.leads) (hRow : Separated row l.digits)
    (hLine : SourceChar.char '\n' ∉ tail) (hGoesOn : ¬ l.GoesOn (withoutSeparators tail))
    (hRead : Literal.number ((lead ++ row).map .char ++ tail) = .ok f) :
    ∃ letters suffix, withoutSeparators tail = letters.map .char
    ∧ (letters, suffix) ∈ suffixes := by
  unfold Literal.number at hRead
  split at hRead
  · unfold floating at hRead
    split at hRead
    · cases hRead
    rename_i cs hAscii
    obtain ⟨letters, hTail, rfl⟩ := exists_letters_of_ascii? hLead hRow hLine hAscii
    rw [hTail] at hGoesOn
    simp only [decimal?_numeral hLead hGoesOn, hexadecimal?_numeral hLead hGoesOn] at hRead
    cases hRead
  · unfold integer at hRead
    split at hRead
    · cases hRead
    rename_i d hDigits
    obtain ⟨cs, hAscii, hDigits⟩ := Option.bind_eq_some_iff.mp hDigits
    obtain ⟨letters, hTail, rfl⟩ := exists_letters_of_ascii? hLead hRow hLine hAscii
    rw [hTail] at hGoesOn
    rw [ofChars?_numeral hLead hGoesOn] at hDigits
    cases hDigits
    split at hRead
    · cases hRead
    rename_i hAll
    split at hRead
    · cases hRead
    rename_i suffix hSuffix
    have hLetters : ∀ c ∈ letters, c ∈ ['u', 'U', 'l', 'L'] := by
      rw [Bool.not_eq_true', Bool.not_eq_false, List.all_eq_true] at hAll
      intro c hc
      simpa [or_assoc] using hAll c hc
    exact ⟨letters, suffix, hTail, mem_suffixes_of_ofChars? hLetters hSuffix⟩

namespace IntegerLiteral

theorem type?_eq_none_iff : l.type? = none ↔ ∀ t ∈ l.types, ¬ t.Holds l.number := by
  rw [type?, List.find?_eq_none]
  simp only [decide_eq_true_iff]

/-- An integer literal is never taken for a floating one, and it is refused only if no type holds
its number. Otherwise its constant has its number as the value, which its type holds. This is the
first type that does, with full confidence, if `long` can have the size of `int` without another
result, and else the longest type with the sign of that one. Behind a numeral, what does not go on
with the number is accepted if and only if it is a suffix without its separators, with a type that
holds the number. -/
theorem number_exact (l : IntegerLiteral) :
    (∀ lexeme, l.IsWritten lexeme → isFloating lexeme = false
      ∧ ((∃ e, Literal.number lexeme = .error e) ↔ ∀ t ∈ l.types, ¬ t.Holds l.number)
      ∧ ∀ f, Literal.number lexeme = .ok f → ∃ first given, l.type? = some first
        ∧ f.constant = .integral given (some l.number) ∧ given.Holds l.number
        ∧ if l.shortType? = some first then given = first ∧ f.confidence = .high
          else given = (if first.isSigned then .longLong else .unsignedLongLong)
          ∧ f.confidence = .medium)
    ∧ ∀ lead row tail, lead ∈ l.radix.leads → Separated row l.digits → SourceChar.char '\n' ∉ tail →
      ¬ l.GoesOn (withoutSeparators tail) →
      ((∃ e, Literal.number ((lead ++ row).map .char ++ tail) = .error e) ↔
        ∀ letters suffix, withoutSeparators tail = letters.map .char →
        (letters, suffix) ∈ suffixes →
          { l with suffix := suffix : IntegerLiteral }.type? = none) := by
  constructor
  · intro lexeme h
    refine ⟨(number_eq h.withoutSeparators).1, ?_, fun f => constant_of_number h.withoutSeparators⟩
    rw [number_eq_error_iff h.withoutSeparators, type?_eq_none_iff]
  · intro lead row tail hLead hRow hLine hGoesOn
    have hWritten : ∀ letters suffix, withoutSeparators tail = letters.map .char →
      (letters, suffix) ∈ suffixes →
        { l with suffix := suffix : IntegerLiteral }.IsWritten
          (withoutSeparators ((lead ++ row).map .char ++ tail)) := by
      intro letters suffix hTail hSuffix
      rw [withoutSeparators_numeral hLead hRow, hTail, ← List.map_append]
      exact .intro (l := { l with suffix := suffix }) hLead (separated_self _ _) hSuffix
    constructor
    · intro hError letters suffix hTail hSuffix
      exact (number_eq_error_iff (hWritten letters suffix hTail hSuffix)).mp hError
    · intro hNone
      cases hRead : Literal.number ((lead ++ row).map .char ++ tail) with
      | error e => exact ⟨e, rfl⟩
      | ok f =>
          obtain ⟨letters, suffix, hTail, hSuffix⟩ :=
            exists_suffix_of_number hLead hRow hLine hGoesOn hRead
          have hError := (number_eq_error_iff (hWritten letters suffix hTail hSuffix)).mpr
            (hNone letters suffix hTail hSuffix)
          rw [hRead] at hError
          exact hError

theorem not_goesOn {c : Char} {after : Text} (hRow : l.digits ≠ ['0'])
    (hDigit : c ∉ Radix.decimal.digits) (hOther : c ∉ l.radix.digits) (hPoint : c ≠ '.')
    (hLetter : c ∉ if l.radix = .hexadecimal then ['p', 'P'] else ['e', 'E']) :
    ¬ l.GoesOn (.char c :: after) := by
  generalize hText : SourceChar.char c :: after = text
  intro h
  cases h with
  | digit h =>
      cases hText
      exact h.elim hDigit hOther
  | point =>
      cases hText
      exact hPoint rfl
  | exponent h =>
      cases hText
      exact hLetter h
  | mark hZero => exact hRow hZero

private def fourBillion : IntegerLiteral :=
  ⟨.decimal, '4', "000000000".toList, ⟨false, .plain⟩, by decide, show '4' ≠ '0' by decide⟩

/-- A number whose type depends on the size of `long`, and letters behind it that are no suffix. -/
theorem number_exact_fourBillion :
    (∃ f, Literal.number "4'000'000'000" = .ok f
      ∧ f.constant = .integral .longLong (some 4000000000)
      ∧ f.confidence = .medium) ∧ ∃ e, Literal.number "4'000'000'000lul" = .error e := by
  obtain ⟨hLiteral, hBehind⟩ := number_exact fourBillion
  have hRow : Separated "4'000'000'000".toList fourBillion.digits :=
    .separator (.next (.next (.separator (.next (.next (.separator (.next (.next .last))))))))
  constructor
  · have hWritten : fourBillion.IsWritten (([] ++ "4'000'000'000".toList ++ []).map .char) :=
      .intro (List.mem_singleton_self []) hRow (show ([], Suffix.mk false .plain) ∈ suffixes by
        decide)
    obtain ⟨-, hFails, hReads⟩ := hLiteral _ hWritten
    have hType : fourBillion.type? = some .long := by
      decide +kernel
    have hShort : fourBillion.shortType? = some .longLong := by
      decide +kernel
    have hNumber : fourBillion.number = 4000000000 := by
      decide +kernel
    cases hRead : Literal.number (([] ++ "4'000'000'000".toList ++ []).map .char) with
    | error e =>
        have hNone := type?_eq_none_iff.mpr (hFails.mp ⟨e, hRead⟩)
        rw [hType] at hNone
        cases hNone
    | ok f =>
        obtain ⟨first, given, hFirst, hConstant, -, hGiven⟩ := hReads f hRead
        obtain rfl := Option.some.inj (hFirst.symm.trans hType)
        rw [hShort, if_neg (by decide)] at hGiven
        obtain ⟨rfl, hConfidence⟩ := hGiven
        rw [hNumber] at hConstant
        exact ⟨f, hRead, hConstant, hConfidence⟩
  · have hTail : ¬ fourBillion.GoesOn (withoutSeparators [.char 'l', .char 'u', .char 'l']) :=
      not_goesOn (by decide) (by decide) (by decide) (by decide) (by decide)
    have hOther : ∀ s ∈ suffixes, withoutSeparators [.char 'l', .char 'u', .char 'l']
        ≠ s.1.map .char := by
      decide
    exact (hBehind [] "4'000'000'000".toList [.char 'l', .char 'u', .char 'l']
      (List.mem_singleton_self []) hRow
      (by decide) hTail).mpr fun letters suffix hLetters hSuffix =>
      absurd hLetters (hOther _ hSuffix)

/-- Letters with a separator between them behind a number. -/
theorem number_separatedLetters :
    ¬ ∀ (l : IntegerLiteral) (lead row : List Char) (tail : Text), lead ∈ l.radix.leads →
    Separated row l.digits →
      Piece.numberLength? ((lead ++ row).map .char ++ tail)
        = some ((lead ++ row).map SourceChar.char ++ tail).length →
      ¬ l.GoesOn (withoutSeparators tail) → (∀ s ∈ suffixes, tail ≠ s.1.map .char) →
      ∃ e, Literal.number ((lead ++ row).map .char ++ tail) = .error e := by
  intro hRefuses
  obtain ⟨e, hError⟩ := hRefuses ⟨.decimal, '1', [], ⟨false, .plain⟩,
    by decide, show '1' ≠ '0' by decide⟩ [] ['1']
    [.char 'u', .char '\'', .char 'l'] (List.mem_singleton_self []) .last (by decide)
    (not_goesOn (by decide) (by decide) (by decide) (by decide) (by decide)) (by decide)
  have hReads : (Literal.number "1u'l").passes (fun f => f.confidence == .high) = true := by
    decide +kernel
  rw [show Literal.number "1u'l" = .error e from hError] at hReads
  cases hReads

end IntegerLiteral

end

end Demacro.Literal
