import Demacro.Proofs.Constant.Faults
import Demacro.Proofs.Constant.Resolving

/-!
Faults of expressions for which no reason is given. The folding of an expression breaks off exactly
if it comes to a literal that cannot be read or to an operator that breaks off for its operands.
-/

namespace Demacro

namespace Constant

/-- Why a literal cannot be read. -/
inductive Unreadable : List Token → FoldError → Prop where
  | hexadecimal {token : Token} {tokens : List Token} {cs : List Char} {n : Nat} {e : Int}
      {t : FloatingType} {negative : Bool} (hKind : token.kind = .number)
      (hFloating : Literal.isFloating token.lexeme = true)
      (hText : Literal.ascii? (Literal.withoutSeparators token.lexeme) = some cs)
      (hValue : Literal.hexadecimal? cs = some (n, e, t))
      (hView : Binary64.view (Binary64.ofScaled 2 n e) = .infinite negative) :
      Unreadable (token :: tokens) .hexadecimalTooLarge
  | digits {token : Token} {tokens : List Token} {cs : List Char} {d : Literal.Digits}
      {suffix : Literal.Suffix} (hKind : token.kind = .number)
      (hInteger : Literal.isFloating token.lexeme = false)
      (hText : Literal.ascii? (Literal.withoutSeparators token.lexeme) = some cs)
      (hDigits : Literal.Digits.ofChars? cs = some d)
      (hSuffix : Literal.Suffix.ofChars? d.suffix = some suffix)
      (hBase : d.base = 10) (hLength : Numeral.maxDigits < d.digits.length) :
      Unreadable (token :: tokens) (.tooManyDigits d.digits.length)
  | character {token : Token} {tokens : List Token} (hKind : token.kind = .char)
      (hQuote : .char '\'' ∉ token.lexeme) : Unreadable (token :: tokens) .unquoted
  | string {tokens before after : List Token} {token : Token}
      (hKind : ∀ t ∈ tokens.head?, t.kind ≠ .number ∧ t.kind ≠ .char)
      (hTokens : tokens = before ++ token :: after)
      (hBefore : ∀ t ∈ before, ∃ word, Literal.stringEncoding t.lexeme = .ok word)
      (hQuote : .char '"' ∉ token.lexeme) : Unreadable tokens .unquoted

section

variable {f : FoldError} {token : Token} {tokens : List Token}

/-- The letters of a suffix are those of its two parts. -/
theorem letters_of_suffix {cs : List Char} {suffix : Literal.Suffix}
    (h : Literal.Suffix.ofChars? cs = some suffix) :
    cs.all (fun c => c == 'u' || c == 'U' || c == 'l' || c == 'L') = true := by
  have hLength : (cs.filter fun c => c == 'u' || c == 'U').length
      + (cs.filter fun c => c == 'l' || c == 'L').length = cs.length := by
    by_contra hOther
    simp [Literal.Suffix.ofChars?, hOther] at h
  have hSum : ∀ cs : List Char, (cs.filter fun c => c == 'u' || c == 'U').length
      + (cs.filter fun c => c == 'l' || c == 'L').length
        = (cs.filter fun c => c == 'u' || c == 'U' || c == 'l' || c == 'L').length := by
    intro cs
    induction cs with
    | nil => rfl
    | cons c cs ih =>
        by_cases hU : c = 'u' ∨ c = 'U'
        · rcases hU with rfl | rfl <;> simp <;> omega
        · by_cases hL : c = 'l' ∨ c = 'L'
          · rcases hL with rfl | rfl <;> simp <;> omega
          · simp only [not_or] at hU hL
            simpa [List.filter_cons, hU, hL] using ih
  rw [hSum, List.length_filter_eq_length_iff] at hLength
  exact List.all_eq_true.mpr hLength

theorem breaks_integer_iff {lexeme : Text} : Breaks (Literal.integer lexeme) f ↔
    ∃ cs d suffix, Literal.ascii? (Literal.withoutSeparators lexeme) = some cs
      ∧ Literal.Digits.ofChars? cs = some d ∧ Literal.Suffix.ofChars? d.suffix = some suffix
      ∧ d.base = 10 ∧ Numeral.maxDigits < d.digits.length ∧ f = .tooManyDigits d.digits.length := by
  unfold Literal.integer
  constructor
  · intro h
    split at h
    · exact absurd h (not_breaks_error rfl)
    rename_i d hDigits
    obtain ⟨cs, hText, hDigits⟩ := Option.bind_eq_some_iff.mp hDigits
    split at h
    · exact absurd h (not_breaks_error rfl)
    split at h
    · exact absurd h (not_breaks_error rfl)
    rename_i suffix hSuffix
    split at h
    · rename_i hLong
      cases h.1
      exact ⟨cs, d, suffix, hText, hDigits, hSuffix, hLong.1, hLong.2, rfl⟩
    dsimp only at h
    split at h
    · exact absurd h (not_breaks_error rfl)
    split at h <;> exact absurd h not_breaks_ok
  · rintro ⟨cs, d, suffix, hText, hDigits, hSuffix, hBase, hLength, rfl⟩
    have hLetters := letters_of_suffix hSuffix
    simp only [hText, Option.bind_some, hDigits, hLetters, Bool.not_true, Bool.false_eq_true,
      ↓reduceIte, hSuffix, hBase, hLength, and_self]
    exact ⟨rfl, rfl⟩

/-- A hexadecimal floating literal is no decimal one. -/
theorem decimal?_of_hexadecimal? {cs : List Char} {v : Nat × Int × FloatingType}
    (h : Literal.hexadecimal? cs = some v) : Literal.decimal? cs = none := by
  unfold Literal.hexadecimal? at h
  split at h
  · rename_i x cs
    split at h
    · rename_i hx
      rcases hx with rfl | rfl <;>
        simp [Literal.decimal?, Literal.mantissa?]
    · cases h
  · cases h

theorem breaks_floating_iff {lexeme : Text} : Breaks (Literal.floating lexeme) f ↔
    ∃ cs n e t negative, Literal.ascii? (Literal.withoutSeparators lexeme) = some cs
      ∧ Literal.hexadecimal? cs = some (n, e, t)
      ∧ Binary64.view (Binary64.ofScaled 2 n e) = .infinite negative
      ∧ f = .hexadecimalTooLarge := by
  unfold Literal.floating
  constructor
  · intro h
    split at h
    · exact absurd h (not_breaks_error rfl)
    rename_i cs hText
    split at h
    · exact absurd h not_breaks_ok
    split at h
    · rename_i n e t hValue
      dsimp only at h
      split at h
      · rename_i negative hView
        cases h.1
        exact ⟨cs, n, e, t, negative, hText, hValue, hView, rfl⟩
      · exact absurd h not_breaks_ok
    · exact absurd h (not_breaks_error rfl)
  · rintro ⟨cs, n, e, t, negative, hText, hValue, hView, rfl⟩
    simp only [hText, decimal?_of_hexadecimal? hValue, hValue, hView]
    exact ⟨rfl, rfl⟩

theorem breaks_character_iff {lexeme : Text} : Breaks (Literal.character lexeme) f ↔
    .char '\'' ∉ lexeme ∧ f = .unquoted := by
  unfold Literal.character
  dsimp only
  by_cases hQuote : lexeme.contains (.char '\'') = true
  · simp only [hQuote, Bool.not_true, Bool.false_eq_true, ↓reduceIte]
    refine iff_of_false ?_ fun h => h.1 (List.contains_iff_mem.mp hQuote)
    split
    · exact not_breaks_error rfl
    split
    · exact not_breaks_error rfl
    rw [breaks_map_iff]
    split
    · split
      · exact not_breaks_ok
      · exact not_breaks_error rfl
    · exact not_breaks_ok
    · exact not_breaks_error rfl
  · have hMissing : .char '\'' ∉ lexeme := fun h => hQuote (List.contains_iff_mem.mpr h)
    simp only [hQuote, Bool.not_false, ↓reduceIte, hMissing, not_false_eq_true, true_and]
    constructor
    · rintro ⟨⟨⟩, -⟩
      rfl
    · rintro rfl
      exact ⟨rfl, rfl⟩

theorem breaks_stringEncoding_iff {lexeme : Text} : Breaks (Literal.stringEncoding lexeme) f ↔
    .char '"' ∉ lexeme ∧ f = .unquoted := by
  unfold Literal.stringEncoding
  dsimp only
  by_cases hQuote : lexeme.contains (.char '"') = true
  · simp only [hQuote, Bool.not_true, Bool.false_eq_true, ↓reduceIte]
    refine iff_of_false ?_ fun h => h.1 (List.contains_iff_mem.mp hQuote)
    generalize (if (List.getLast? _ : Option SourceChar) = some _ then _ else _ : Text) = word
    split
    · exact not_breaks_ok
    · exact not_breaks_error rfl
  · have hMissing : .char '"' ∉ lexeme := fun h => hQuote (List.contains_iff_mem.mpr h)
    simp only [hQuote, Bool.not_false, ↓reduceIte, hMissing, not_false_eq_true, true_and]
    constructor
    · rintro ⟨⟨⟩, -⟩
      rfl
    · rintro rfl
      exact ⟨rfl, rfl⟩

/-- Going through a list, the first step that fails decides. -/
theorem breaks_mapM_iff {α β : Type} {g : α → Except FoldError β} {xs : List α} :
    Breaks (xs.mapM g) f ↔ ∃ before x after, xs = before ++ x :: after
      ∧ (∀ y ∈ before, ∃ b, g y = .ok b) ∧ Breaks (g x) f := by
  induction xs with
  | nil => exact iff_of_false not_breaks_ok (by simp)
  | cons y ys ih =>
      rw [List.mapM_cons, breaks_bind_iff]
      simp only [breaks_bind_iff, ih]
      constructor
      · rintro (h | ⟨b, hb, ⟨before, x, after, rfl, hBefore, h⟩ | ⟨_, -, h⟩⟩)
        · exact ⟨[], y, ys, rfl, by simp, h⟩
        · exact ⟨y :: before, x, after, rfl, by simpa using ⟨⟨b, hb⟩, hBefore⟩, h⟩
        · exact absurd h not_breaks_ok
      · rintro ⟨before, x, after, hList, hBefore, h⟩
        cases before with
        | nil =>
            cases hList
            exact .inl h
        | cons z before =>
            cases hList
            obtain ⟨b, hb⟩ := hBefore y List.mem_cons_self
            exact .inr ⟨b, hb, .inl ⟨before, x, after, rfl,
              fun y hy => hBefore y (List.mem_cons_of_mem _ hy), h⟩⟩

theorem breaks_string_iff : Breaks (Literal.string tokens) f ↔
    (∃ before token after, tokens = before ++ token :: after
      ∧ (∀ t ∈ before, ∃ word, Literal.stringEncoding t.lexeme = .ok word)
      ∧ .char '"' ∉ token.lexeme) ∧ f = .unquoted := by
  unfold Literal.string
  rw [breaks_bind_iff, breaks_mapM_iff]
  simp only [breaks_stringEncoding_iff]
  constructor
  · rintro (⟨before, token, after, hTokens, hBefore, hQuote, hf⟩ | ⟨words, -, h⟩)
    · exact ⟨⟨before, token, after, hTokens, hBefore, hQuote⟩, hf⟩
    · split at h
      · exact absurd h not_breaks_ok
      split at h
      · exact absurd h not_breaks_ok
      · exact absurd h (not_breaks_error rfl)
  · rintro ⟨⟨before, token, after, hTokens, hBefore, hQuote⟩, hf⟩
    exact .inl ⟨before, token, after, hTokens, hBefore, hQuote, hf⟩

/-- A literal fails without a reason exactly if it cannot be read. -/
theorem breaks_ofLiteral_iff : Breaks (ofLiteral tokens) f ↔ Unreadable tokens f := by
  have hStrings : (∀ t ∈ tokens.head?, t.kind ≠ .number ∧ t.kind ≠ .char) →
      (Breaks (Literal.string tokens) f ↔ Unreadable tokens f) := by
    intro hKind
    rw [breaks_string_iff]
    constructor
    · rintro ⟨⟨before, token, after, hTokens, hBefore, hQuote⟩, rfl⟩
      exact .string hKind hTokens hBefore hQuote
    · intro h
      cases h with
      | hexadecimal hNumber => exact absurd hNumber (hKind _ rfl).1
      | digits hNumber => exact absurd hNumber (hKind _ rfl).1
      | character hChar => exact absurd hChar (hKind _ rfl).2
      | string _ hTokens hBefore hQuote => exact ⟨⟨_, _, _, hTokens, hBefore, hQuote⟩, rfl⟩
  unfold ofLiteral
  split
  · rename_i token tokens
    split
    · rename_i hNumber
      unfold Literal.number
      constructor
      · intro h
        split at h
        · rename_i hFloating
          obtain ⟨cs, n, e, t, negative, hText, hValue, hView, rfl⟩ := breaks_floating_iff.mp h
          exact .hexadecimal hNumber hFloating hText hValue hView
        · rename_i hFloating
          obtain ⟨cs, d, suffix, hText, hDigits, hSuffix, hBase, hLength, rfl⟩ :=
            breaks_integer_iff.mp h
          exact .digits hNumber (by simpa using hFloating) hText hDigits hSuffix hBase hLength
      · intro h
        cases h with
        | hexadecimal _ hFloating hText hValue hView =>
            rw [if_pos hFloating]
            exact breaks_floating_iff.mpr ⟨_, _, _, _, _, hText, hValue, hView, rfl⟩
        | digits _ hInteger hText hDigits hSuffix hBase hLength =>
            rw [if_neg (by simpa using hInteger)]
            exact breaks_integer_iff.mpr ⟨_, _, _, hText, hDigits, hSuffix, hBase, hLength, rfl⟩
        | character hChar => cases hNumber.symm.trans hChar
        | string hKind => exact absurd hNumber (hKind _ rfl).1
    · rename_i hChar
      rw [breaks_character_iff]
      constructor
      · rintro ⟨hQuote, rfl⟩
        exact .character hChar hQuote
      · intro h
        cases h with
        | hexadecimal hNumber => cases hChar.symm.trans hNumber
        | digits hNumber => cases hChar.symm.trans hNumber
        | character _ hQuote => exact ⟨hQuote, rfl⟩
        | string hKind => exact absurd hChar (hKind _ rfl).2
    · rename_i hNumber hChar
      refine hStrings ?_
      rintro _ ⟨⟩
      exact ⟨hNumber, hChar⟩
  · exact hStrings (by simp)

end

/-- The operators that give an operand behind them another value. -/
def valueOperators : List UnaryOp :=
  [.plus, .minus, .not, .complement]

/-- The type that the text of a cast means. -/
def castTarget (type : Text) : Except FoldError ArithmeticType :=
  (ArithmeticType.ofWords (Unicode.runs (SourceChar.satisfies Unicode.isBlank) type)).mapError
    .castType

/-- The expression folds to an arithmetic constant. -/
def FoldsTo (resolve : Option Resolver) (e : Expr) (c : Constant) : Prop :=
  (∃ v, fold resolve e = .ok v ∧ v.constant = c) ∧ ∃ t, c.arithmeticType? = some t

/-- The folding of the first expression comes to the folding of the second one, which is an
operand. -/
inductive Reaches (resolve : Option Resolver) : Expr → Expr → Prop where
  | paren : Reaches resolve (.paren r e) e
  | unary (hOp : op ∈ valueOperators) : Reaches resolve (.unary r op e) e
  | cast (hType : castTarget type = .ok target) : Reaches resolve (.cast r type e) e
  | left : Reaches resolve (.binary r op left right) left
  | right (hLeft : FoldsTo resolve left a) : Reaches resolve (.binary r op left right) right
  | condition : Reaches resolve (.conditional r condition whenTrue whenFalse) condition
  | whenTrue (hCondition : FoldsTo resolve condition c) :
      Reaches resolve (.conditional r condition whenTrue whenFalse) whenTrue
  | whenFalse (hCondition : FoldsTo resolve condition c) (hTrue : FoldsTo resolve whenTrue a) :
      Reaches resolve (.conditional r condition whenTrue whenFalse) whenFalse

/-- The folding of an expression comes to something that has no value, for which no reason is
given. -/
inductive Escapes (resolve : Option Resolver) : Expr → FoldError → Prop where
  | literal (h : Unreadable tokens f) : Escapes resolve (.literal r tokens) f
  | operand (hOperand : Reaches resolve e e') (h : Escapes resolve e' f) : Escapes resolve e f
  | cast (hType : castTarget type = .ok target) (hOperand : FoldsTo resolve e c)
      (hValue : c.number? = some n)
      (h : Inconvertible n target f) : Escapes resolve (.cast r type e) f
  | binary (hLeft : FoldsTo resolve left a) (hRight : FoldsTo resolve right b)
      (h : Undefined op a b f) : Escapes resolve (.binary r op left right) f
  | conditional (hCondition : FoldsTo resolve condition c) (hTrue : FoldsTo resolve whenTrue a)
      (hFalse : FoldsTo resolve whenFalse b) (hTest : c.number? = some v)
      (hChosen : (if v.truth then a.number? else b.number?) = some n)
      (ht : a.arithmeticType? = some t) (hu : b.arithmeticType? = some u)
      (h : Inconvertible n (t.common u) f) :
      Escapes resolve (.conditional r condition whenTrue whenFalse) f

section

variable {resolve : Option Resolver} {f : FoldError} {e e' : Expr}

theorem not_breaks_ofName (hResolve : ∀ g ∈ resolve, ∀ name f, ¬ Breaks (g name) f)
    (name : String) : ¬ Breaks (ofName resolve name) f := by
  unfold ofName
  split
  · exact not_breaks_ok
  split
  · exact not_breaks_ok
  split
  · rename_i g
    split
    · exact not_breaks_error rfl
    · exact hResolve g rfl name f
  · exact not_breaks_error rfl

/-- What comes after an arithmetic operand fails if the operand or the rest does. -/
theorem breaks_operand_iff {α : Type} {op : String} {g : Folded → Except FoldError α} :
    Breaks (fold resolve e >>= fun x => needArithmetic op x >>= g) f ↔ Breaks (fold resolve e) f
      ∨ ∃ v, fold resolve e = .ok v ∧ (∃ t, v.constant.arithmeticType? = some t)
      ∧ Breaks (g v) f := by
  simp only [breaks_bind_iff, not_breaks_needArithmetic, false_or]
  refine or_congr_right ⟨?_, ?_⟩
  · rintro ⟨x, hx, v, hv, h⟩
    unfold needArithmetic at hv
    split at hv
    · rename_i t hType
      cases hv
      exact ⟨x, hx, ⟨t, hType⟩, h⟩
    · cases hv
  · rintro ⟨v, hv, ⟨t, hType⟩, h⟩
    exact ⟨v, hv, v, by rw [needArithmetic, hType], h⟩

theorem FoldsTo.breaks_operand {α : Type} {op : String} {c : Constant}
    {g : Folded → Except FoldError α} (h : FoldsTo resolve e c)
    (hRest : ∀ v : Folded, v.constant = c → Breaks (g v) f) :
    Breaks (fold resolve e >>= fun x => needArithmetic op x >>= g) f := by
  obtain ⟨⟨v, hv, rfl⟩, hType⟩ := h
  exact breaks_operand_iff.mpr (.inr ⟨v, hv, hType, hRest v rfl⟩)

theorem fold_unary {r : TokenRange} {op : UnaryOp} (hOp : op ∈ valueOperators) :
    fold resolve (.unary r op e) = fold resolve e >>= fun x =>
    needArithmetic op.symbol x >>= fun v =>
      unaryOp op v.constant >>= fun c => .ok (Folded.ofOperands c [v]) := by
  simp only [valueOperators, List.mem_cons, List.not_mem_nil, or_false] at hOp
  rcases hOp with rfl | rfl | rfl | rfl <;> rfl

/-- A fault of an operand is one of the whole. -/
theorem Reaches.breaks (h : Reaches resolve e e') (hBreaks : Breaks (fold resolve e') f) :
    Breaks (fold resolve e) f := by
  cases h with
  | paren => exact hBreaks
  | unary hOp =>
      rw [fold_unary hOp]
      exact breaks_operand_iff.mpr (.inl hBreaks)
  | cast hType =>
      rw [fold]
      exact breaks_bind_iff.mpr (.inr ⟨_, hType, breaks_operand_iff.mpr (.inl hBreaks)⟩)
  | left =>
      rw [fold]
      exact breaks_operand_iff.mpr (.inl hBreaks)
  | right hLeft =>
      rw [fold]
      exact hLeft.breaks_operand fun _ _ => breaks_operand_iff.mpr (.inl hBreaks)
  | condition =>
      rw [fold]
      exact breaks_operand_iff.mpr (.inl hBreaks)
  | whenTrue hCondition =>
      rw [fold]
      exact hCondition.breaks_operand fun _ _ => breaks_operand_iff.mpr (.inl hBreaks)
  | whenFalse hCondition hTrue =>
      rw [fold]
      exact hCondition.breaks_operand fun _ _ => hTrue.breaks_operand fun _ _ =>
        breaks_operand_iff.mpr (.inl hBreaks)

theorem Escapes.breaks (h : Escapes resolve e f) : Breaks (fold resolve e) f := by
  induction h with
  | literal h =>
      rw [fold]
      exact breaks_ofLiteral_iff.mpr h
  | operand hOperand _ ih => exact hOperand.breaks ih
  | cast hType hOperand hValue h =>
      rw [fold]
      refine breaks_bind_iff.mpr (.inr ⟨_, hType, hOperand.breaks_operand ?_⟩)
      rintro v rfl
      exact breaks_bind_iff.mpr (.inl (breaks_castTo_iff.mpr ⟨_, hValue, h⟩))
  | binary hLeft hRight h =>
      rw [fold]
      refine hLeft.breaks_operand ?_
      rintro v rfl
      refine hRight.breaks_operand ?_
      rintro w rfl
      exact breaks_bind_iff.mpr (.inl (breaks_binaryOp_iff.mpr h))
  | conditional hCondition hTrue hFalse hTest hChosen ht hu h =>
      rw [fold]
      obtain ⟨_, hType⟩ := hCondition.2
      refine hCondition.breaks_operand ?_
      rintro x rfl
      refine hTrue.breaks_operand ?_
      rintro y rfl
      refine hFalse.breaks_operand ?_
      rintro z rfl
      exact breaks_bind_iff.mpr
        (.inl ((breaks_choose_iff hType ht hu).mpr ⟨_, _, hTest, hChosen, h⟩))

/-- The folding of an expression ends with a fault that has no reason exactly if it comes to
something that has no value and for which no reason is given. -/
theorem breaks_fold_iff (hResolve : ∀ g ∈ resolve, ∀ name f, ¬ Breaks (g name) f) :
    Breaks (fold resolve e) f ↔ Escapes resolve e f := by
  refine ⟨fun h => ?_, Escapes.breaks⟩
  fun_induction fold resolve e with
  | case1 r tokens => exact .literal (breaks_ofLiteral_iff.mp h)
  | case2 r text => exact absurd h (not_breaks_ofName hResolve text)
  | case3 r e ih => exact .operand .paren (ih h)
  | case4 => exact absurd h not_breaks_ok
  | case5 | case6 | case7 | case12 => exact absurd h (not_breaks_error rfl)
  | case8 r op e hStep hDereference hAddress ih =>
      have hOp : op ∈ valueOperators := by
        cases op with
        | dereference => exact absurd rfl hDereference
        | addressOf => exact absurd rfl hAddress
        | step op => exact absurd rfl (hStep op)
        | _ => decide
      rcases breaks_operand_iff.mp h with h | ⟨v, hv, hType, h⟩
      · exact .operand (.unary hOp) (ih h)
      rcases breaks_bind_iff.mp h with h | ⟨c, -, h⟩
      · exact absurd h not_breaks_unaryOp
      · exact absurd h not_breaks_ok
  | case9 r type e words ih =>
      rcases breaks_bind_iff.mp h with h | ⟨target, hTarget, h⟩
      · exact absurd h not_breaks_ofWords
      rcases breaks_operand_iff.mp h with h | ⟨v, hv, hType, h⟩
      · exact .operand (.cast hTarget) (ih h)
      rcases breaks_bind_iff.mp h with h | ⟨c, -, h⟩
      · obtain ⟨n, hn, h⟩ := breaks_castTo_iff.mp h
        exact .cast hTarget ⟨⟨v, hv, rfl⟩, hType⟩ hn h
      · exact absurd h not_breaks_ok
  | case10 r op left right ihLeft ihRight =>
      rcases breaks_operand_iff.mp h with h | ⟨a, ha, hTypeLeft, h⟩
      · exact .operand .left (ihLeft h)
      rcases breaks_operand_iff.mp h with h | ⟨b, hb, hTypeRight, h⟩
      · exact .operand (.right ⟨⟨a, ha, rfl⟩, hTypeLeft⟩) (ihRight h)
      rcases breaks_bind_iff.mp h with h | ⟨c, -, h⟩
      · exact .binary ⟨⟨a, ha, rfl⟩, hTypeLeft⟩ ⟨⟨b, hb, rfl⟩, hTypeRight⟩
          (breaks_binaryOp_iff.mp h)
      · exact absurd h not_breaks_ok
  | case11 r condition whenTrue whenFalse ihCondition ihTrue ihFalse =>
      rcases breaks_operand_iff.mp h with h | ⟨c, hc, ⟨w, hw⟩, h⟩
      · exact .operand .condition (ihCondition h)
      rcases breaks_operand_iff.mp h with h | ⟨a, ha, ⟨t, ht⟩, h⟩
      · exact .operand (.whenTrue ⟨⟨c, hc, rfl⟩, w, hw⟩) (ihTrue h)
      rcases breaks_operand_iff.mp h with h | ⟨b, hb, ⟨u, hu⟩, h⟩
      · exact .operand (.whenFalse ⟨⟨c, hc, rfl⟩, w, hw⟩ ⟨⟨a, ha, rfl⟩, t, ht⟩) (ihFalse h)
      rcases breaks_bind_iff.mp h with h | ⟨d, -, h⟩
      · obtain ⟨v, n, hv, hn, h⟩ := (breaks_choose_iff hw ht hu).mp h
        exact .conditional ⟨⟨c, hc, rfl⟩, w, hw⟩ ⟨⟨a, ha, rfl⟩, t, ht⟩ ⟨⟨b, hb, rfl⟩, u, hu⟩ hv
          hn ht hu h
      · exact absurd h not_breaks_ok
  | _ => exact absurd h not_breaks_refusal

end

end Constant

end Demacro
