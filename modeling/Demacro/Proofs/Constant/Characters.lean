import Demacro.Proofs.Constant.Numerals

/-!
Character literals of the language: how they are written, which type they have and which value. The
main statement is that every character literal is read, with its type and with the number that is
written, whether or not this is its value.
-/

namespace Demacro.Literal

/-- What is written between the quotes: a character, which is encoded, or a code unit. -/
inductive CharacterCode where
  | encoded (n : Nat)
  | unit (n : Nat)

/-- The number that is written. -/
def CharacterCode.number : CharacterCode → Nat
  | encoded n | unit n => n

/-- The characters that are written as a letter behind a backslash. -/
def escapes : List (Char × Char) :=
  [('n', '\n'), ('t', '\t'), ('r', '\r'), ('a', '\x07'), ('b', '\x08'), ('f', '\x0c'),
    ('v', '\x0b'), ('\\', '\\'), ('\'', '\''), ('"', '"'), ('?', '?')]

/-- How a code is written. -/
inductive Codes : List Char → CharacterCode → Prop where
  | plain (hPlain : c ∉ ['\'', '\\', '\n']) : Codes [c] (.encoded c.toNat)
  | simple (hEscape : (c, d) ∈ escapes) : Codes ['\\', c] (.encoded d.toNat)
  | octal (hFew : ds.length < 3) (hDigits : ∀ c ∈ d :: ds, c ∈ Radix.octal.digits) :
      Codes ('\\' :: d :: ds) (.unit (numberOf .octal (d :: ds)))
  | hexadecimal (hDigits : ∀ c ∈ d :: ds, c ∈ Radix.hexadecimal.digits) :
      Codes ('\\' :: 'x' :: d :: ds) (.unit (numberOf .hexadecimal (d :: ds)))
  | universal (hLength : (u, (d :: ds).length) ∈ [('u', 4), ('U', 8)])
      (hDigits : ∀ c ∈ d :: ds, c ∈ Radix.hexadecimal.digits) :
      Codes ('\\' :: u :: d :: ds) (.encoded (numberOf .hexadecimal (d :: ds)))

/-- The types of character literals, by what stands in front of the quote. -/
def characterTypes : List (List Char × IntegerType) :=
  [([], .char), (['L'], .wchar), (['u', '8'], .char8), (['u'], .char16), (['U'], .char32)]

/-- The text is a character literal of the type with the code. -/
inductive IsCharacter (t : IntegerType) (code : CharacterCode) : Text → Prop where
  | intro (hType : (lead, t) ∈ characterTypes) (hCode : Codes body code) :
      IsCharacter t code ((lead ++ '\'' :: (body ++ ['\''])).map .char)

/-- The number below which a character takes one code unit of the encoding that belongs to a
type. -/
def unitLimit : IntegerType → Nat
  | .char | .char8 => 0x80
  | .char16 => 0x10000
  | _ => 0x110000

/-- The value of a character literal. A character must take one code unit, and a code unit must have
as many bits as the type; it may stand for a negative value. -/
inductive CharacterValue (t : IntegerType) : CharacterCode → Int → Prop where
  | encoded {n : Nat} (hScalar : n.isValidChar) (hUnit : n < unitLimit t) :
      CharacterValue t (.encoded n) n
  | unit {n : Nat} (hUnit : n < 2 ^ t.bits) (hValue : t.Converts n m) : CharacterValue t (.unit n) m

section

variable {t t' : IntegerType} {code code' : CharacterCode} {lexeme : Text} {c d : Char}
  {cs ds : List Char}

theorem CharacterValue.unique {m n : Int} (h : CharacterValue t code m)
    (h' : CharacterValue t code n) : m = n := by
  cases h with
  | encoded =>
      cases h'
      rfl
  | unit _ hValue =>
      cases h' with
      | unit _ hValue' => exact hValue.unique hValue'

theorem not_mem_octal_of_escapes : ∀ x ∈ escapes, x.1 ∉ Radix.octal.digits := by
  decide

theorem eq_of_mem_escapes : ∀ x ∈ escapes, ∀ y ∈ escapes, x.1 = y.1 → x = y := by
  decide

theorem x_not_mem_octal : 'x' ∉ Radix.octal.digits := by
  decide

/-- The letters of the two longer forms. -/
theorem eq_of_universal {k : Nat} (h : (c, k) ∈ [('u', 4), ('U', 8)]) : c = 'u' ∨ c = 'U' := by
  simp only [List.mem_cons, List.not_mem_nil, or_false, Prod.mk.injEq] at h
  exact h.imp And.left And.left

theorem not_mem_octal_of_universal (h : c = 'u' ∨ c = 'U') : c ∉ Radix.octal.digits := by
  rcases h with rfl | rfl <;> decide

/-- What stands behind the backslash tells how the code is written. -/
theorem Codes.unique (h : Codes cs code) (h' : Codes cs code') : code = code' := by
  cases h with
  | plain =>
      cases h'
      rfl
  | simple hEscape =>
      cases h' with
      | simple hEscape' =>
          have hSame := eq_of_mem_escapes _ hEscape _ hEscape' rfl
          cases hSame
          rfl
      | octal _ hDigits' =>
          exact absurd (hDigits' _ List.mem_cons_self) (not_mem_octal_of_escapes _ hEscape)
  | octal _ hDigits =>
      cases h' with
      | simple hEscape' =>
          exact absurd (hDigits _ List.mem_cons_self) (not_mem_octal_of_escapes _ hEscape')
      | octal => rfl
      | hexadecimal => exact absurd (hDigits _ List.mem_cons_self) x_not_mem_octal
      | universal hLength' =>
          exact absurd (hDigits _ List.mem_cons_self)
            (not_mem_octal_of_universal (eq_of_universal hLength'))
  | hexadecimal hDigits =>
      cases h' with
      | octal _ hDigits' => exact absurd (hDigits' _ List.mem_cons_self) x_not_mem_octal
      | hexadecimal => rfl
      | universal hLength' => simp at hLength'
  | universal hLength hDigits =>
      cases h' with
      | octal _ hDigits' =>
          exact absurd (hDigits' _ List.mem_cons_self)
            (not_mem_octal_of_universal (eq_of_universal hLength))
      | hexadecimal => simp at hLength
      | universal => rfl

theorem eq_append_of_takeWhile {q : SourceChar} {pre : Text} (h : q ∉ pre) (post : Text) :
    (pre ++ q :: post).takeWhile (· != q) = pre ∧ (pre ++ q :: post).dropWhile (· != q) = q
    :: post := by
  have hAll : ∀ c ∈ pre, (c != q) = true := by
    intro c hc
    rw [bne_iff_ne]
    rintro rfl
    exact h hc
  rw [List.takeWhile_append_of_pos hAll, List.dropWhile_append_of_pos hAll]
  simp

theorem quote_not_mem_lead :
    ∀ x ∈ characterTypes, SourceChar.char '\'' ∉ x.1.map SourceChar.char := by
  decide

theorem encoding?_of_mem :
    ∀ x ∈ characterTypes, encoding? (x.1.map SourceChar.char) = some x.2 := by
  decide

theorem Codes.ne_nil (h : Codes cs code) : cs ≠ [] := by
  cases h <;> exact List.cons_ne_nil _ _

/-- A character literal falls apart at its first quote. -/
theorem IsCharacter.parts (h : IsCharacter t code lexeme) : ∃ body, Codes body code
    ∧ encoding? (lexeme.takeWhile (· != .char '\'')) = some t
    ∧ lexeme.dropWhile (· != .char '\'') = ('\'' :: (body ++ ['\''])).map .char
    ∧ lexeme.contains (.char '\'') = true := by
  obtain ⟨hType, hCode⟩ := h
  rename_i lead body
  have hLead := eq_append_of_takeWhile (quote_not_mem_lead _ hType) ((body ++ ['\'']).map .char)
  rw [List.map_append, List.map_cons]
  refine ⟨body, hCode, ?_, hLead.2, by simp⟩
  rw [hLead.1]
  exact encoding?_of_mem _ hType

theorem Codes.plain_or_escaped (h : Codes cs code) :
    (∃ c, c ≠ '\\' ∧ cs = [c] ∧ code = .encoded c.toNat) ∨ ∃ rest, cs = '\\' :: rest := by
  cases h with
  | plain hPlain =>
      simp only [List.mem_cons, List.not_mem_nil, or_false, not_or] at hPlain
      exact .inl ⟨_, hPlain.2.1, rfl, rfl⟩
  | simple | octal | hexadecimal | universal => exact .inr ⟨_, rfl⟩

/-- No text is two character literals. -/
theorem IsCharacter.unique (h : IsCharacter t code lexeme) (h' : IsCharacter t' code' lexeme) :
    t = t' ∧ code = code' := by
  obtain ⟨body, hCode, hType, hQuoted, -⟩ := h.parts
  obtain ⟨body', hCode', hType', hQuoted', -⟩ := h'.parts
  refine ⟨Option.some.inj (hType.symm.trans hType'), ?_⟩
  have hInjective : Function.Injective (List.map SourceChar.char) :=
    List.map_injective_iff.mpr fun _ _ h => SourceChar.char.inj h
  have hSame := (List.cons.inj (hInjective (hQuoted.symm.trans hQuoted'))).2
  cases List.append_cancel_right hSame
  exact hCode.unique hCode'

theorem rowValue?_eq (n : Nat) (after : Bool) (hDigits : ∀ c ∈ ds, c ∈ Radix.hexadecimal.digits)
    (hNonempty : after = true ∨ ds ≠ []) : Numeral.rowValue? 16 n after ds
      = some (ds.foldl (fun n c => n * 16 + (Numeral.digitValue? 16 c).getD 0) n) := by
  induction ds generalizing n after with
  | nil => simp_all [Numeral.rowValue?]
  | cons c ds ih =>
      rw [List.forall_mem_cons] at hDigits
      have hDigit := digitValue?_of_mem_digits c hDigits.1
      have hUnderscore : c ≠ '_' := by
        rintro rfl
        exact absurd hDigits.1 (by decide)
      rw [Numeral.rowValue?, if_neg hUnderscore, show Numeral.digitValue? 16 c = _ from hDigit]
      dsimp only
      rw [ih _ _ hDigits.2 (.inl rfl), List.foldl_cons, show Numeral.digitValue? 16 c =
        _ from hDigit, Option.getD_some]

theorem dropWhile_isSurrounding (h : ∀ c ∈ cs, c ∈ Radix.hexadecimal.digits) :
    cs.dropWhile Numeral.isSurrounding = cs := by
  cases cs with
  | nil => rfl
  | cons c cs =>
      have hOther : ∀ c ∈ Radix.hexadecimal.digits, Numeral.isSurrounding c = false := by
        decide
      rw [List.dropWhile_cons_of_neg]
      simp [hOther c (h c List.mem_cons_self)]

/-- A row of hexadecimal digits is a numeral. -/
theorem int?_hexadecimal (hDigits : ∀ c ∈ d :: ds, c ∈ Radix.hexadecimal.digits) :
    Numeral.int? 16 (d :: ds) = some (numberOf .hexadecimal (d :: ds) : Int) := by
  have hBody : (((d :: ds).dropWhile Numeral.isSurrounding).reverse.dropWhile
      Numeral.isSurrounding).reverse = d :: ds := by
    rw [dropWhile_isSurrounding hDigits, dropWhile_isSurrounding, List.reverse_reverse]
    intro c hc
    exact hDigits c (List.mem_reverse.mp hc)
  have hValue : Numeral.unsigned? 16 (d :: ds) = some (numberOf .hexadecimal (d :: ds)) := by
    have hRow := rowValue?_eq 0 false hDigits (.inr (List.cons_ne_nil _ _))
    rw [← valueOf_eq_numberOf hDigits]
    unfold Numeral.unsigned?
    split
    · rename_i x rest hText
      have hx : ¬ ((16 : Nat) = 16 ∧ (x = 'x' ∨ x = 'X')) := by
        have hDigit := hDigits x (by rw [hText]; simp)
        rintro ⟨-, rfl | rfl⟩ <;> exact absurd hDigit (by decide)
      rw [if_neg hx]
      exact hRow
    · exact hRow
  have hSign : d ≠ '+' ∧ d ≠ '-' := by
    have hDigit := hDigits d List.mem_cons_self
    constructor <;> rintro rfl <;> exact absurd hDigit (by decide)
  unfold Numeral.int?
  dsimp only
  rw [hBody, if_neg (by simp)]
  have hHead : (d :: ds).head? ≠ some '-' := by
    simpa using hSign.2
  simp only [hHead, if_false]
  split
  · rename_i hText
    exact absurd (List.cons.inj hText).1 hSign.1
  · rename_i hText
    exact absurd (List.cons.inj hText).1 hSign.2
  · rw [hValue]
    rfl

theorem lookup_of_mem_escapes :
    ∀ x ∈ escapes, simpleEscapes.lookup x.1 = some (x.2.toNat : Int) := by
  decide

theorem lookup_of_mem_octal : ∀ c ∈ Radix.octal.digits, simpleEscapes.lookup c = none := by
  decide

theorem escape?_hexadecimal (hc : c = 'x' ∨ c = 'u' ∨ c = 'U')
    (hDigits : ∀ c ∈ d :: ds, c ∈ Radix.hexadecimal.digits) :
    escape? (c :: d :: ds) = some (numberOf .hexadecimal (d :: ds) : Int) := by
  simp only [escape?, List.isEmpty_cons, Bool.false_eq_true, if_false, hc, Bool.not_false, and_self,
    if_true]
  exact int?_hexadecimal hDigits

theorem escape?_octal (hFew : ds.length < 3) (hDigits : ∀ c ∈ d :: ds, c ∈ Radix.octal.digits) :
    escape? (d :: ds) = some (numberOf .octal (d :: ds) : Int) := by
  have hDigit := hDigits d List.mem_cons_self
  have hLetter : ¬ (d = 'x' ∨ d = 'u' ∨ d = 'U') := by
    rintro (rfl | rfl | rfl) <;> exact absurd hDigit (by decide)
  have hAll : (d :: ds).all isOctalDigit = true := by
    rw [List.all_eq_true]
    intro c hc
    exact test_of_mem_digits c (hDigits c hc)
  have hNumber : valueOf 8 (d :: ds) = numberOf .octal (d :: ds) := valueOf_eq_numberOf hDigits
  simp only [escape?, lookup_of_mem_octal d hDigit, ite_self, hLetter, false_and, if_false, hAll,
    hFew, and_self, if_true, hNumber]

/-- What is written behind a backslash is read as its number. -/
theorem escape?_eq (h : Codes ('\\' :: cs) code) : escape? cs = some (code.number : Int) := by
  cases h with
  | plain hPlain => simp at hPlain
  | simple hEscape =>
      have hLookup := lookup_of_mem_escapes _ hEscape
      simp only [escape?, List.isEmpty_nil, if_true, hLookup, CharacterCode.number]
  | octal hFew hDigits => exact escape?_octal hFew hDigits
  | hexadecimal hDigits => exact escape?_hexadecimal (.inl rfl) hDigits
  | universal hLength hDigits => exact escape?_hexadecimal (.inr (eq_of_universal hLength)) hDigits

/-- A character literal is read as the number that is written in it. -/
theorem IsCharacter.character_eq (h : IsCharacter t code lexeme) :
    character lexeme = .ok ⟨.integral t (some code.number), .high, []⟩ := by
  obtain ⟨body, hCode, hType, hQuoted, hQuote⟩ := h.parts
  have hBody : ((('\'' :: (body ++ ['\''])).map SourceChar.char).drop 1).dropLast
      = body.map .char := by
    simp
  have hLong : ¬ (('\'' :: (body ++ ['\''])).map SourceChar.char).length < 3 := by
    have hPos := List.length_pos_iff.mpr hCode.ne_nil
    simp only [List.length_map, List.length_cons, List.length_append, List.length_nil]
    omega
  unfold character
  dsimp only
  rw [hQuote, hQuoted, hType]
  rw [if_neg (by simp)]
  dsimp only
  rw [if_neg hLong, hBody]
  rcases hCode.plain_or_escaped with ⟨c, hPlain, rfl, rfl⟩ | ⟨cs, rfl⟩
  · split
    · rename_i hText
      cases hText
      exact absurd rfl hPlain
    · rename_i hText
      cases hText
      rfl
    · rename_i hOther
      exact absurd rfl (hOther _)
  · have hRest : (Text.chars? (cs.map .char)).bind escape? = some (code.number : Int) := by
      rw [chars?_map, Option.bind_some, escape?_eq hCode]
    split
    · rename_i hText
      cases (List.cons.inj hText).2
      rw [hRest]
      rfl
    · rename_i hOther hText
      exact (hOther (List.cons.inj hText).1.symm).elim
    · rename_i hOther _
      exact absurd rfl (hOther _)

end

end Demacro.Literal
