import Demacro.Proofs.Constant.Kinds

/-!
The ranges of constants. Every operator brings its result into the range of its type, and so does
every conversion, so that a constant can be out of range only where it enters an expression. The
main result is that folding gives a value of the type exactly if the expression is not a character
literal whose number is none, parentheses aside.
-/

namespace Demacro

namespace Literal

/-- What stands behind a backslash is read as a number: one letter as the character that it stands
for, and everything else as its digits. -/
inductive EscapeNumber : List Char → Int → Prop where
  | letter (hEscape : (c, d) ∈ escapes) : EscapeNumber [c] d.toNat
  | octal (hFew : ds.length < 3) (hDigits : ∀ c ∈ d :: ds, c ∈ Radix.octal.digits) :
      EscapeNumber (d :: ds) (numberOf .octal (d :: ds))
  | numeral (hLetter : c = 'x' ∨ c = 'u' ∨ c = 'U') (hNumeral : Numeral.int? 16 ds = some n) :
      EscapeNumber (c :: ds) n

/-- What stands between the quotes is read as a number, a character as its code point. -/
inductive BodyNumber : Text → Int → Prop where
  | character (hPlain : c ≠ .char '\\') : BodyNumber [c] (codeOf c)
  | escape (h : EscapeNumber cs n) : BodyNumber (.char '\\' :: cs.map .char) n

/-- A character literal is read as a number of a type. The last character closes it, whatever it
is. -/
inductive IsReadAs (t : IntegerType) (n : Int) : Text → Prop where
  | intro (hType : (lead, t) ∈ characterTypes) (hBody : BodyNumber body n) :
      IsReadAs t n (lead.map .char ++ .char '\'' :: (body ++ [q]))

/-- The number that a character literal is read as is no value of its type. -/
def Exceeds (lexeme : Text) : Prop :=
  ∃ t n, IsReadAs t n lexeme ∧ ¬ t.Holds n

section

variable {t : IntegerType} {n : Int} {c d : Char} {cs ds : List Char} {body lexeme : Text}
  {f : Folded}

theorem mem_escapes_of_simpleEscapes :
    ∀ x ∈ simpleEscapes, ∃ y ∈ escapes, y.1 = x.1 ∧ x.2 = y.2.toNat := by
  decide

theorem exists_of_lookup (h : simpleEscapes.lookup c = some n) :
    ∃ d, (c, d) ∈ escapes ∧ d.toNat = n := by
  obtain ⟨front, back, hList, -⟩ := List.lookup_eq_some_iff.mp h
  have hMem : (c, n) ∈ simpleEscapes := by
    rw [hList]
    simp
  obtain ⟨⟨_, d⟩, hEscape, rfl, hCode⟩ := mem_escapes_of_simpleEscapes _ hMem
  exact ⟨d, hEscape, hCode.symm⟩

theorem escape?_of_numeral (hLetter : c = 'x' ∨ c = 'u' ∨ c = 'U')
    (hNumeral : Numeral.int? 16 ds = some n) : escape? (c :: ds) = some n := by
  have hEmpty : ds.isEmpty = false := by
    cases ds with
    | nil => simp [Numeral.int?, Numeral.unsigned?, Numeral.rowValue?] at hNumeral
    | cons => rfl
  simp only [escape?, hEmpty, Bool.false_eq_true, if_false, hLetter, Bool.not_false, and_self,
    if_true, hNumeral]

theorem escape?_eq_some_iff : escape? cs = some n ↔ EscapeNumber cs n := by
  constructor
  · intro h
    cases cs with
    | nil => cases h
    | cons c ds =>
        simp only [escape?] at h
        split at h
        · rename_i hLookup
          cases h
          split at hLookup
          · obtain ⟨d, hEscape, rfl⟩ := exists_of_lookup hLookup
            cases List.isEmpty_iff.mp ‹_›
            exact .letter hEscape
          · cases hLookup
        split at h
        · exact .numeral (And.left ‹_›) h
        split at h
        · rename_i hOctal
          have hDigits : ∀ x ∈ c :: ds, x ∈ Radix.octal.digits := by
            intro x hx
            exact mem_digits_of_test (r := .octal) (List.all_eq_true.mp hOctal.1 x hx)
          have hNumber : valueOf 8 (c :: ds) = numberOf .octal (c :: ds) :=
            valueOf_eq_numberOf hDigits
          cases h
          rw [hNumber]
          exact .octal hOctal.2 hDigits
        · cases h
  · intro h
    cases h with
    | letter hEscape =>
        have hLookup := lookup_of_mem_escapes _ hEscape
        simp only [escape?, List.isEmpty_nil, if_true, hLookup]
    | octal hFew hDigits => exact escape?_octal hFew hDigits
    | numeral hLetter hNumeral => exact escape?_of_numeral hLetter hNumeral

theorem exists_lead_of_encoding? (h : encoding? body = some t) :
    ∃ lead, (lead, t) ∈ characterTypes ∧ body = lead.map .char := by
  have hMem : ∀ x ∈ encodings, (x.1.toList, x.2) ∈ characterTypes := by
    decide
  obtain ⟨x, hFind, rfl⟩ := Option.map_eq_some_iff.mp h
  have hName := List.find?_some hFind
  exact ⟨x.1.toList, hMem x (List.mem_of_find?_eq_some hFind), (beq_iff_eq.mp hName).symm⟩

theorem isReadAs_of_character (h : character lexeme = .ok f) :
    ∃ t n, IsReadAs t n lexeme ∧ f = ⟨.integral t (some n), .high, []⟩ := by
  unfold character at h
  dsimp only at h
  split at h
  · cases h
  rename_i hQuote
  rw [Bool.not_eq_true, Bool.not_eq_false', List.contains_iff_mem] at hQuote
  obtain ⟨word, rest, rfl, hFirst⟩ := List.eq_append_cons_of_mem hQuote
  have hParts := eq_append_of_takeWhile hFirst rest
  rw [hParts.1, hParts.2] at h
  split at h
  · cases h
  rename_i t hEncoding
  obtain ⟨lead, hLead, rfl⟩ := exists_lead_of_encoding? hEncoding
  split at h
  · cases h
  rename_i hLong
  obtain ⟨n, hValue, rfl⟩ := Except.map_eq_ok_iff.mp h
  refine ⟨t, n, ?_, rfl⟩
  rcases List.eq_nil_or_concat rest with rfl | ⟨body, q, rfl⟩
  · simp at hLong
  rw [List.concat_eq_append] at hValue ⊢
  rw [List.drop_succ_cons, List.drop_zero, List.dropLast_concat] at hValue
  refine .intro hLead ?_
  split at hValue
  · split at hValue
    · rename_i m hEscape
      cases hValue
      obtain ⟨cs, hChars, hEscape⟩ := Option.bind_eq_some_iff.mp hEscape
      rw [chars?_eq_some_iff.mp hChars]
      exact .escape (escape?_eq_some_iff.mp hEscape)
    · cases hValue
  · rename_i c hOther
    cases hValue
    exact .character hOther
  · cases hValue

theorem IsReadAs.character_eq (h : IsReadAs t n lexeme) :
    character lexeme = .ok ⟨.integral t (some n), .high, []⟩ := by
  obtain ⟨hType, hBody⟩ := h
  rename_i lead body q
  have hLead := eq_append_of_takeWhile (quote_not_mem_lead _ hType) (body ++ [q])
  have hLong : ¬ (SourceChar.char '\'' :: (body ++ [q])).length < 3 := by
    have hPos : 0 < body.length := by
      cases hBody <;> exact Nat.succ_pos _
    simp only [List.length_cons, List.length_append, List.length_nil]
    omega
  unfold character
  dsimp only
  rw [hLead.1, hLead.2, encoding?_of_mem _ hType, if_neg (by simp)]
  dsimp only
  rw [if_neg hLong, List.drop_succ_cons, List.drop_zero, List.dropLast_concat]
  cases hBody with
  | character hPlain =>
      split
      · rename_i hText
        exact absurd (List.cons.inj hText).1 hPlain
      · rename_i hText
        cases hText
        rfl
      · rename_i hOther
        exact absurd rfl (hOther _)
  | escape hEscape =>
      simp only [chars?_map, Option.bind_some, escape?_eq_some_iff.mpr hEscape]
      rfl

/-- A character literal is read exactly as the number that is spelled in it. -/
theorem character_eq_ok_iff :
    character lexeme = .ok f ↔ ∃ t n, IsReadAs t n lexeme
    ∧ f = ⟨.integral t (some n), .high, []⟩ := by
  constructor
  · exact isReadAs_of_character
  · rintro ⟨t, n, h, rfl⟩
    exact h.character_eq

end

end Literal

namespace Constant

/-- The value of an integer constant, if it is known, is one that the bits of its type can
represent: in two's complement if the type is signed. -/
def IsRepresentable (c : Constant) : Prop :=
  ∀ t n, c = .integral t (some n) → t ∈ IntegerType.all
    ∧ if t.isSigned then -2 ^ (t.bits - 1) ≤ n ∧ n < 2 ^ (t.bits - 1) else 0 ≤ n ∧ n < 2 ^ t.bits

/-- The expression is a character literal whose number is no value of its type, parentheses
aside. -/
inductive IsExcess : Expr → Prop where
  | character (hKind : token.kind = .char) (hExceeds : Literal.Exceeds token.lexeme) :
      IsExcess (.literal r (token :: tokens))
  | paren (h : IsExcess e) : IsExcess (.paren r e)

section

variable {resolve : Option Resolver} {e : Expr} {f : Folded} {c : Constant} {t : IntegerType}
  {n : Int} {v : Option Int} {lexeme : Text} {tokens : List Token}

theorem isRepresentable_integral_iff : (integral t (some n)).IsRepresentable ↔ t.Holds n := by
  have hAll : t ∈ IntegerType.all := by
    cases t <;> decide
  have hHalf : (t.half : Int) = 2 ^ (t.bits - 1) := by
    cases t <;> rfl
  have hRange : (if t.isSigned then -2 ^ (t.bits - 1) ≤ n ∧ n < 2 ^ (t.bits - 1) else 0 ≤ n
    ∧ n < 2 ^ t.bits)
      ↔ t.Holds n := by
    split
    · rw [IntegerType.holds_iff_of_isSigned ‹_›, hHalf]
    · rw [IntegerType.holds_iff_of_not_isSigned (Bool.eq_false_of_not_eq_true ‹_›),
        IntegerType.modulus_eq_pow]
  constructor
  · intro h
    exact hRange.mp (h t n rfl).2
  · intro h u m hSame
    cases hSame
    exact ⟨hAll, hRange.mpr h⟩

theorem isRepresentable_unknown (t : IntegerType) : (integral t none).IsRepresentable :=
  nofun

theorem isRepresentable_of_kind (h : c.kind ≠ .integral) : c.IsRepresentable := by
  rintro t n rfl
  exact absurd rfl h

/-- Truth values are in range. -/
theorem isRepresentable_truth {v : Option Bool} :
    (integral .bool (v.map ofBool)).IsRepresentable := by
  cases v with
  | none => exact isRepresentable_unknown _
  | some b => exact isRepresentable_integral_iff.mpr (holds_ofBool b)

theorem isRepresentable_inType (ht : t ≠ .bool)
    (h : (inType t n).map (fun m => integral t (some m)) = .ok c) : c.IsRepresentable := by
  obtain ⟨m, hm, rfl⟩ := Except.map_eq_ok_iff.mp h
  exact isRepresentable_integral_iff.mpr ((inType_eq_ok_iff ht).mp hm).1

theorem isRepresentable_inType? (ht : t ≠ .bool) (h : (inType? t v).map (integral t) = .ok c) :
    c.IsRepresentable := by
  cases v with
  | none =>
      cases h
      exact isRepresentable_unknown t
  | some n =>
      obtain ⟨m, hm, rfl⟩ := map_inType?_eq_ok ht h
      exact isRepresentable_integral_iff.mpr hm.1

theorem isRepresentable_unaryOp {op : UnaryOp} {a : Constant} (h : unaryOp op a = .ok c) :
    c.IsRepresentable := by
  cases a with
  | integral t v =>
      cases op with
      | not =>
          cases h
          cases v with
          | none => exact isRepresentable_unknown _
          | some n => exact isRepresentable_integral_iff.mpr (holds_ofBool _)
      | plus | minus | complement => exact isRepresentable_inType? t.promote_ne_bool h
      | dereference | addressOf | step => cases h
  | floating t v =>
      cases op with
      | not =>
          cases h
          cases v with
          | none => exact isRepresentable_unknown _
          | some x => exact isRepresentable_integral_iff.mpr (holds_ofBool _)
      | plus | minus =>
          cases h
          exact isRepresentable_of_kind nofun
      | complement | dereference | addressOf | step => cases h
  | string | pointer => cases h

theorem isRepresentable_castTo {t : ArithmeticType} {v : Option Number} (h : castTo t v = .ok c) :
    c.IsRepresentable := by
  unfold castTo at h
  split at h
  · cases h
    exact isRepresentable_unknown _
  · cases h
    exact isRepresentable_of_kind nofun
  · obtain ⟨x, -, rfl⟩ := Except.map_eq_ok_iff.mp h
    exact isRepresentable_of_kind nofun
  · rename_i t v
    split at h
    · rename_i hBool
      cases h
      rw [hBool]
      exact isRepresentable_integral_iff.mpr (holds_ofBool _)
    · obtain ⟨n, -, rfl⟩ := Except.map_eq_ok_iff.mp h
      exact isRepresentable_integral_iff.mpr (t.holds_wrap n)

theorem ne_bool_of_common {t u : ArithmeticType} {s : IntegerType} (h : t.common u = .integer s) :
    s ≠ .bool := by
  cases t with
  | floating => cases u <;> cases h
  | integer t =>
      cases u with
      | floating => cases h
      | integer u =>
          cases h
          exact t.common_ne_bool u

theorem isRepresentable_arithmeticOp {op : BinaryOp} {t u : ArithmeticType} {a b : Option Number}
    (h : arithmeticOp op t u a b = .ok c) : c.IsRepresentable := by
  unfold arithmeticOp at h
  split at h
  · split at h
    · cases h
    split at h
    · cases h
    split at h
    · obtain ⟨x, -, h⟩ := Except.bind_eq_ok_iff.mp h
      obtain ⟨y, -, h⟩ := Except.bind_eq_ok_iff.mp h
      cases h
      exact isRepresentable_of_kind nofun
    · cases h
      exact isRepresentable_of_kind nofun
  · rename_i s hCommon
    split at h
    · cases h
    split at h
    · obtain ⟨a', -, h⟩ := Except.bind_eq_ok_iff.mp h
      obtain ⟨b', -, h⟩ := Except.bind_eq_ok_iff.mp h
      obtain ⟨n, -, h⟩ := Except.bind_eq_ok_iff.mp h
      exact isRepresentable_inType (ne_bool_of_common hCommon) (n := n) h
    · cases h
      exact isRepresentable_unknown s

theorem isRepresentable_shift {op : BinaryOp} {a b : Int}
    (h : (shift op t.promote a b).map (fun n => integral t.promote (some n)) = .ok c) :
    c.IsRepresentable := by
  obtain ⟨n, hShift, rfl⟩ := Except.map_eq_ok_iff.mp h
  obtain ⟨-, -, hType⟩ := shift_eq_ok hShift
  rw [isRepresentable_integral_iff]
  split at hType
  · exact ((inType_eq_ok_iff t.promote_ne_bool).mp hType.2).1
  · exact ((inType_eq_ok_iff t.promote_ne_bool).mp hType).1

theorem isRepresentable_binaryOp {op : BinaryOp} {a b : Constant} (h : binaryOp op a b = .ok c) :
    c.IsRepresentable := by
  unfold binaryOp at h
  split at h
  · cases h
  · cases h
  cases op with
  | and | or | less | lessEqual | greater | greaterEqual | equal | notEqual =>
      dsimp only at h
      split at h
      · cases h
        exact isRepresentable_truth
      · cases h
        exact isRepresentable_unknown _
  | threeWay => cases h
  | shiftLeft | shiftRight =>
      dsimp only at h
      split at h
      · split at h
        · exact isRepresentable_shift h
        · cases h
          exact isRepresentable_unknown _
      · cases h
  | mul | div | mod | add | sub | bitAnd | bitXor | bitOr => exact isRepresentable_arithmeticOp h

theorem isRepresentable_choose {k a b : Constant} (h : choose k a b = .ok c) :
    c.IsRepresentable := by
  unfold choose at h
  split at h
  · dsimp only at h
    split at h
    · split at h
      · obtain ⟨x, -, rfl⟩ := Except.map_eq_ok_iff.mp h
        exact isRepresentable_of_kind nofun
      · cases h
        exact isRepresentable_of_kind nofun
    · rename_i s hCommon
      split at h
      · obtain ⟨n, -, h⟩ := Except.bind_eq_ok_iff.mp h
        exact isRepresentable_inType (ne_bool_of_common hCommon) (n := n) h
      · cases h
        exact isRepresentable_unknown s
  · cases h

/-- A number that is widened is in the range of the wider type. -/
theorem holds_wide (h : t.Holds n) :
    (if t.isSigned then IntegerType.longLong else .unsignedLongLong).Holds n := by
  have hCovers : (if t.isSigned then IntegerType.longLong else .unsignedLongLong).Covers t := by
    cases t <;> decide
  exact hCovers.holds h

theorem isRepresentable_integer (h : Literal.integer lexeme = .ok f) :
    f.constant.IsRepresentable := by
  unfold Literal.integer at h
  split at h
  · cases h
  split at h
  · cases h
  split at h
  · cases h
  split at h
  · cases h
  dsimp only at h
  split at h
  · cases h
  rename_i t hFirst
  have hFits := List.find?_some hFirst
  have hHolds := Literal.fits_iff.mp hFits
  split at h
  · cases h
    exact isRepresentable_integral_iff.mpr hHolds
  · cases h
    exact isRepresentable_integral_iff.mpr (holds_wide hHolds)

theorem isRepresentable_number (h : Literal.number lexeme = .ok f) :
    f.constant.IsRepresentable := by
  unfold Literal.number at h
  split at h
  · refine isRepresentable_of_kind ?_
    rw [kind_of_floating h]
    decide
  · exact isRepresentable_integer h

/-- A character literal is in range unless its number is none of its type. -/
theorem isRepresentable_character_iff (h : Literal.character lexeme = .ok f) :
    f.constant.IsRepresentable ↔ ¬ Literal.Exceeds lexeme := by
  obtain ⟨t, n, hRead, rfl⟩ := Literal.character_eq_ok_iff.mp h
  rw [isRepresentable_integral_iff]
  constructor
  · rintro hHolds ⟨u, m, hOther, hExceeds⟩
    cases h.symm.trans hOther.character_eq
    exact hExceeds hHolds
  · intro hNone
    by_contra hHolds
    exact hNone ⟨t, n, hRead, hHolds⟩

theorem isExcess_literal_iff {token : Token} :
    IsExcess (.literal r (token :: tokens)) ↔ token.kind = .char
    ∧ Literal.Exceeds token.lexeme := by
  constructor
  · rintro ⟨hKind, hExceeds⟩
    exact ⟨hKind, hExceeds⟩
  · rintro ⟨hKind, hExceeds⟩
    exact .character hKind hExceeds

theorem isRepresentable_literal_iff (h : ofLiteral tokens = .ok f) :
    f.constant.IsRepresentable ↔ ¬ IsExcess (.literal r tokens) := by
  have hString : ∀ ts, Literal.string ts = .ok f → f.constant.IsRepresentable := by
    intro ts hRead
    apply isRepresentable_of_kind
    rw [kind_of_string hRead]
    decide
  cases tokens with
  | nil => exact iff_of_true (hString _ h) nofun
  | cons token rest =>
      rw [isExcess_literal_iff]
      unfold ofLiteral at h
      cases hKind : token.kind with
      | char =>
          simp only [hKind] at h
          rw [isRepresentable_character_iff h, and_iff_right rfl]
      | number =>
          simp only [hKind] at h
          exact iff_of_true (isRepresentable_number h) (by simp)
      | _ =>
          simp only [hKind] at h
          exact iff_of_true (hString _ h) (by simp)

theorem isRepresentable_name (hNames : ∀ g ∈ resolve, ∀ name f, g name = .ok f →
    f.constant.IsRepresentable)
    {name : String} (h : ofName resolve name = .ok f) : f.constant.IsRepresentable := by
  unfold ofName at h
  split at h
  · cases h
    exact isRepresentable_integral_iff.mpr (holds_ofBool _)
  split at h
  · cases h
    exact isRepresentable_of_kind nofun
  split at h
  · split at h
    · cases h
    · exact hNames _ rfl name f h
  · cases h

/-- An expression comes to a value of its type exactly if it is no character literal whose number
exceeds the type. -/
theorem isRepresentable_fold_iff
    (hNames : ∀ g ∈ resolve, ∀ name f, g name = .ok f → f.constant.IsRepresentable)
    (h : fold resolve e = .ok f) : f.constant.IsRepresentable ↔ ¬ IsExcess e := by
  -- Parentheses are the only node that hands on what is inside as it is.
  fun_induction fold resolve e generalizing f with
  | case1 range tokens => exact isRepresentable_literal_iff h
  | case2 range text => exact iff_of_true (isRepresentable_name hNames h) (by rintro ⟨⟩)
  | case3 range e ih =>
      rw [ih h, not_iff_not]
      constructor
      · exact .paren
      · rintro ⟨⟩
        assumption
  | case4 =>
      cases h
      exact iff_of_true (isRepresentable_unknown _) (by rintro ⟨⟩)
  | case5 | case6 | case7 => cases h
  | case8 range op e hStep hDereference hAddress ih =>
      obtain ⟨g, hOperand, h⟩ := Except.bind_eq_ok_iff.mp h
      obtain ⟨c, hResult, rfl⟩ := ofOperands_eq_ok (needArithmetic_bind_eq_ok h)
      rw [ofOperands_constant]
      exact iff_of_true (isRepresentable_unaryOp hResult) (by rintro ⟨⟩)
  | case9 range type e words =>
      obtain ⟨t, hType, h⟩ := Except.bind_eq_ok_iff.mp h
      obtain ⟨g, hOperand, h⟩ := Except.bind_eq_ok_iff.mp h
      obtain ⟨c, hResult, rfl⟩ := ofOperands_eq_ok (needArithmetic_bind_eq_ok h)
      rw [ofOperands_constant]
      exact iff_of_true (isRepresentable_castTo hResult) (by rintro ⟨⟩)
  | case10 range op left right ihLeft ihRight =>
      obtain ⟨g, g', c, hLeft, hRight, hResult, rfl⟩ := fold_binary_eq_ok (r := range) h
      rw [ofOperands_constant]
      exact iff_of_true (isRepresentable_binaryOp hResult) (by rintro ⟨⟩)
  | case11 range condition whenTrue whenFalse ihCondition ihTrue ihFalse =>
      obtain ⟨k, g, g', c, -, hTrue, hFalse, hResult, rfl⟩ := fold_conditional_eq_ok (r := range) h
      rw [ofOperands_constant]
      exact iff_of_true (isRepresentable_choose hResult) (by rintro ⟨⟩)
  | _ => cases h

/-- All parts of an expression come to values of their types, but for character literals whose
numbers exceed their types, and these come to none. -/
theorem isRepresentable_nodes_iff
    (hNames : ∀ g ∈ resolve, ∀ name f, g name = .ok f → f.constant.IsRepresentable) :
    ∀ x ∈ e.nodes, ∀ f, fold resolve x = .ok f → (f.constant.IsRepresentable ↔ ¬ IsExcess x) := by
  intro x _ f h
  exact isRepresentable_fold_iff hNames h

/-- Whether the constant is the given integer. -/
private def isInteger (t : IntegerType) (n : Int) : Constant → Bool
  | .integral u (some m) => u = t && m = n
  | _ => false

private theorem eq_of_isInteger (h : isInteger t n c = true) : c = .integral t (some n) := by
  unfold isInteger at h
  split at h
  · rw [Bool.and_eq_true, decide_eq_true_iff, decide_eq_true_iff] at h
    rw [h.1, h.2]
  · cases h

/-- A name that is added to a character. -/
theorem isRepresentable_nodes_sum :
    let resolve : Option Resolver := some fun _ => .ok ⟨.integral .char (some 100), .high, []⟩
    ∃ tokens, Token.ofText "f.cpp" "N + 'a'" = .ok tokens ∧ ∃ e, Expr.parse tokens = .ok e
      ∧ (∀ g ∈ resolve, ∀ name f, g name = .ok f → f.constant.IsRepresentable)
      ∧ (∃ f, fold resolve e = .ok f ∧ f.constant = .integral .int (some 197))
      ∧ ∀ x ∈ e.nodes, ∀ f, fold resolve x = .ok f →
      (f.constant.IsRepresentable ↔ ¬ IsExcess x) := by
  intro resolve
  have hNames : ∀ g ∈ resolve, ∀ name f, g name = .ok f → f.constant.IsRepresentable := by
    intro g hg name f h
    obtain rfl := Option.some.inj hg
    cases h
    exact isRepresentable_integral_iff.mpr (by decide)
  refine Except.exists_of_passes (fun tokens => (Expr.parse tokens).passes fun e =>
    (fold resolve e).passes fun f => isInteger .int 197 f.constant) (by decide +kernel) ?_
  intro tokens _ hTokens
  refine Except.exists_of_passes _ hTokens fun e _ hTest =>
    ⟨hNames, ?_, isRepresentable_nodes_iff hNames⟩
  exact Except.exists_of_passes _ hTest fun f _ hSum => eq_of_isInteger hSum

/-- A code unit above the greatest character. -/
theorem not_isRepresentable_codeUnit :
    ∃ tokens, Token.ofText "f.cpp" "'\\xff'" = .ok tokens ∧ ∃ e, Expr.parse tokens = .ok e
      ∧ ∃ f, fold none e = .ok f ∧ f.confidence = .high ∧ f.constant = .integral .char (some 255)
      ∧ ¬ f.constant.IsRepresentable := by
  refine Except.exists_of_passes (fun tokens => (Expr.parse tokens).passes fun e =>
    (fold none e).passes fun f => f.confidence == .high && isInteger .char 255 f.constant) (by
      decide +kernel) ?_
  intro tokens _ hTokens
  refine Except.exists_of_passes _ hTokens fun e _ hTest => ?_
  refine Except.exists_of_passes _ hTest fun f _ hRead => ?_
  rw [Bool.and_eq_true, beq_iff_eq] at hRead
  have hConstant := eq_of_isInteger hRead.2
  refine ⟨hRead.1, hConstant, ?_⟩
  rw [hConstant, isRepresentable_integral_iff]
  decide

end

end Constant

end Demacro
