import Demacro.Proofs.Arithmetic
import Demacro.Proofs.Success

/-!
Faults of operators for which no reason is given. A conversion breaks off for a value that the type
has no room for, and an operator for such an operand, for a divisor that vanishes in the type of the
division, and for a shift count that is too long to be written. Nothing else does.
-/

namespace Demacro

namespace Constant

/-- The computation ends with a fault that has no reason. -/
def Breaks {α : Type} (x : Except FoldError α) (f : FoldError) : Prop :=
  x = .error f ∧ f.reason? = none

section

variable {α β : Type} {x : Except FoldError α} {g : α → Except FoldError β} {f : FoldError} {a : α}

theorem not_breaks_ok : ¬ Breaks (.ok a : Except FoldError α) f := by
  rintro ⟨⟨⟩, -⟩

theorem not_breaks_error {e : FoldError} (h : e.reason?.isSome) :
    ¬ Breaks (.error e : Except FoldError α) f := by
  rintro ⟨⟨⟩, hReason⟩
  rw [hReason] at h
  cases h

theorem breaks_error_iff {e : FoldError} :
    Breaks (.error e : Except FoldError α) f ↔ f = e ∧ e.reason? = none := by
  constructor
  · rintro ⟨⟨⟩, hReason⟩
    exact ⟨rfl, hReason⟩
  · rintro ⟨rfl, hReason⟩
    exact ⟨rfl, hReason⟩

theorem breaks_bind_iff : Breaks (x >>= g) f ↔ Breaks x f ∨ ∃ a, x = .ok a ∧ Breaks (g a) f := by
  simp only [Breaks, Except.bind_eq_error_iff]
  constructor
  · rintro ⟨h | ⟨a, ha, h⟩, hReason⟩
    · exact .inl ⟨h, hReason⟩
    · exact .inr ⟨a, ha, h, hReason⟩
  · rintro (⟨h, hReason⟩ | ⟨a, ha, h, hReason⟩)
    · exact ⟨.inl h, hReason⟩
    · exact ⟨.inr ⟨a, ha, h⟩, hReason⟩

theorem breaks_map_iff {g : α → β} : Breaks (x.map g) f ↔ Breaks x f := by
  cases x <;> simp [Breaks, Except.map]

end

/-- Why a value has no counterpart in a type. -/
inductive Inconvertible : Number → ArithmeticType → FoldError → Prop where
  | infinite {x : Float} {t : IntegerType} {negative : Bool} (hType : t ≠ .bool)
      (hView : Binary64.view x = .infinite negative) :
      Inconvertible (.float x) (.integer t) .infinite
  | notANumber {x : Float} {t : IntegerType} (hType : t ≠ .bool) (hView : Binary64.view x = .nan) :
      Inconvertible (.float x) (.integer t) .notANumber
  | tooLarge {n : Int} {t : FloatingType} {negative : Bool}
      (hView : Binary64.view (Binary64.ofInt n) = .infinite negative) :
      Inconvertible (.int n) (.floating t) .integerExceedsFloat

/-- Why an operator has no result for its operands. -/
inductive Undefined (op : BinaryOp) (left right : Constant) : FoldError → Prop where
  | operand {t u : ArithmeticType} {common : FloatingType} {a b : Number} {f : FoldError}
      (hLeft : left.arithmeticType? = some t) (hRight : right.arithmeticType? = some u)
      (hOp : op ∈ [.add, .sub, .mul, .div]) (hCommon : t.common u = .floating common)
      (hDivisor : op = .div → b.truth = true)
      (ha : left.number? = some a) (hb : right.number? = some b)
      (h : Inconvertible a (.floating common) f ∨ Inconvertible b (.floating common) f) :
      Undefined op left right f
  | divisor {t u : IntegerType} {a b : Int} (hLeft : left = .integral t (some a))
      (hRight : right = .integral u (some b)) (hOp : op ∈ [.div, .mod]) (hZero : b ≠ 0)
      (hType : (t.common u).isSigned = false) (hVanishes : ((t.common u).modulus : Int) ∣ b) :
      Undefined op left right .divisorVanishes
  | count {t u : IntegerType} {a b : Int} (hLeft : left = .integral t (some a))
      (hRight : right = .integral u (some b)) (hOp : op ∈ [.shiftLeft, .shiftRight])
      (hLong : Numeral.isShort b = false) : Undefined op left right .tooLongToWrite


section

variable {f : FoldError} {t : IntegerType} {n : Int} {v : Number}

theorem not_breaks_inType : ¬ Breaks (inType t n) f := by
  unfold inType
  split
  · exact not_breaks_ok
  split
  · exact not_breaks_ok
  split
  · exact not_breaks_ok
  · exact not_breaks_error rfl

theorem not_breaks_inType? {v : Option Int} : ¬ Breaks (inType? t v) f := by
  cases v with
  | none => exact not_breaks_ok
  | some n => exact fun h => not_breaks_inType (breaks_map_iff.mp h)

theorem not_breaks_unaryOp {op : UnaryOp} {c : Constant} : ¬ Breaks (unaryOp op c) f := by
  cases c with
  | integral t v =>
      cases op with
      | plus | minus | complement => exact fun h => not_breaks_inType? (breaks_map_iff.mp h)
      | not => exact not_breaks_ok
      | dereference | addressOf | step => exact not_breaks_error rfl
  | floating t v =>
      cases op with
      | not | plus | minus => exact not_breaks_ok
      | complement | dereference | addressOf | step => exact not_breaks_error rfl
  | string | pointer => exact not_breaks_error rfl

theorem not_breaks_needArithmetic {op : String} {c : Folded} :
    ¬ Breaks (needArithmetic op c) f := by
  unfold needArithmetic
  split
  · exact not_breaks_ok
  · exact not_breaks_error rfl

theorem not_breaks_ofWords {words : List Text} :
    ¬ Breaks ((ArithmeticType.ofWords words).mapError .castType) f := by
  cases ArithmeticType.ofWords words with
  | ok t => exact not_breaks_ok
  | error fault => exact not_breaks_error rfl

theorem not_breaks_refusal {α : Type} {e : Expr} :
    ¬ Breaks (.error (refusal e) : Except FoldError α) f := by
  unfold refusal
  split <;> exact not_breaks_error rfl

theorem breaks_toFloat_iff (t : FloatingType) :
    Breaks v.toFloat f ↔ Inconvertible v (.floating t) f := by
  cases v with
  | float x => exact iff_of_false not_breaks_ok (by rintro ⟨⟩)
  | int n =>
      dsimp only [Number.toFloat]
      constructor
      · split
        · rintro ⟨⟨⟩, -⟩
          exact .tooLarge ‹_›
        · exact fun h => absurd h not_breaks_ok
      · rintro (_ | _ | hView)
        rw [hView]
        exact ⟨rfl, rfl⟩

theorem breaks_toInt_iff (ht : t ≠ .bool) : Breaks v.toInt f ↔ Inconvertible v (.integer t) f := by
  cases v with
  | int n => exact iff_of_false not_breaks_ok (by rintro ⟨⟩)
  | float x =>
      dsimp only [Number.toInt]
      constructor
      · split
        · rintro ⟨⟨⟩, -⟩
          exact .infinite ht ‹_›
        · rintro ⟨⟨⟩, -⟩
          exact .notANumber ht ‹_›
        · exact fun h => absurd h not_breaks_ok
      · rintro (⟨-, hView⟩ | ⟨-, hView⟩)
        · rw [hView]
          exact ⟨rfl, rfl⟩
        · rw [hView]
          exact ⟨rfl, rfl⟩

theorem breaks_castTo_iff {target : ArithmeticType} {v : Option Number} :
    Breaks (castTo target v) f ↔ ∃ n, v = some n ∧ Inconvertible n target f := by
  cases v with
  | none => cases target <;> exact iff_of_false not_breaks_ok (by simp)
  | some n =>
      simp only [Option.some.injEq, exists_eq_left']
      cases target with
      | floating t => exact breaks_map_iff.trans (breaks_toFloat_iff t)
      | integer t =>
          dsimp only [castTo]
          split
          · rename_i hBool
            exact iff_of_false not_breaks_ok
              (by rintro (⟨hType, -⟩ | ⟨hType, -⟩) <;> exact hType hBool)
          · rename_i hBool
            exact breaks_map_iff.trans (breaks_toInt_iff hBool)

theorem breaks_choose_iff {condition whenTrue whenFalse : Constant} {t u w : ArithmeticType}
    (hCondition : condition.arithmeticType? = some w) (hTrue : whenTrue.arithmeticType? = some t)
    (hFalse : whenFalse.arithmeticType? = some u) :
    Breaks (choose condition whenTrue whenFalse) f ↔ ∃ v n, condition.number? = some v
      ∧ (if v.truth then whenTrue.number? else whenFalse.number?) = some n
      ∧ Inconvertible n (t.common u) f := by
  unfold choose
  simp only [hCondition, hTrue, hFalse]
  have hChosen : ∀ {P : Number → Prop},
      (∃ n, (condition.number?.bind fun v => if v.truth then whenTrue.number?
        else whenFalse.number?)
        = some n ∧ P n) ↔ ∃ v n, condition.number? = some v
          ∧ (if v.truth then whenTrue.number? else whenFalse.number?) = some n ∧ P n := by
    intro P
    simp only [Option.bind_eq_some_iff]
    grind
  rw [← hChosen]
  generalize (condition.number?.bind _) = chosen
  cases hCommon : t.common u with
  | floating common =>
      cases chosen with
      | none => exact iff_of_false not_breaks_ok (by simp)
      | some n =>
          simp only [Option.some.injEq, exists_eq_left']
          exact breaks_map_iff.trans (breaks_toFloat_iff common)
  | integer common =>
      have hBool : common ≠ .bool := by
        cases t <;> cases u <;> cases hCommon
        exact IntegerType.common_ne_bool _ _
      cases chosen with
      | none => exact iff_of_false not_breaks_ok (by simp)
      | some n =>
          simp only [Option.some.injEq, exists_eq_left', breaks_bind_iff, not_breaks_inType,
            false_or, breaks_toInt_iff hBool, or_iff_left_iff_imp]
          rintro ⟨m, -, k, -, h⟩
          exact absurd h not_breaks_ok

theorem breaks_integerOp_iff {op : BinaryOp} {a b : Int} :
    Breaks (integerOp op t a b) f ↔ op ∈ [.div, .mod] ∧ b = 0 ∧ f = .divisorVanishes := by
  cases op with
  | div | mod =>
      dsimp only [integerOp]
      split
      · rename_i hZero
        constructor
        · rintro ⟨⟨⟩, -⟩
          exact ⟨by simp, hZero, rfl⟩
        · rintro ⟨-, -, rfl⟩
          exact ⟨rfl, rfl⟩
      · rename_i hZero
        exact iff_of_false not_breaks_ok (by simp [hZero])
  | _ => exact iff_of_false not_breaks_ok (by simp)

theorem inType_eq_zero_iff (ht : t ≠ .bool) (hn : n ≠ 0) :
    inType t n = .ok 0 ↔ t.isSigned = false ∧ (t.modulus : Int) ∣ n := by
  unfold inType
  rw [if_neg ht]
  cases hSigned : t.isSigned with
  | false =>
      simp only [Bool.not_false, ↓reduceIte, Except.ok.injEq, true_and]
      exact Int.dvd_iff_emod_eq_zero.symm
  | true =>
      simp only [Bool.not_true, Bool.false_eq_true, ↓reduceIte]
      split <;> simp [hn]

/-- Of two integers only a vanishing divisor lets arithmetic fail without a reason. -/
theorem breaks_integerArithmetic_iff {op : BinaryOp} {a b : Int} :
    Breaks (do
        let n ← integerOp op t (← inType t a) (← inType t b)
        return integral t (some (← inType t n))) f ↔
      op ∈ [.div, .mod] ∧ inType t b = .ok 0 ∧ (∃ n, inType t a = .ok n)
      ∧ f = .divisorVanishes := by
  simp only [breaks_bind_iff, not_breaks_inType, false_or, breaks_integerOp_iff]
  constructor
  · rintro ⟨n, hn, m, hm, ⟨hOp, rfl, hf⟩ | ⟨_, -, _, -, h⟩⟩
    · exact ⟨hOp, hm, ⟨n, hn⟩, hf⟩
    · exact absurd h not_breaks_ok
  · rintro ⟨hOp, hm, ⟨n, hn⟩, hf⟩
    exact ⟨n, hn, 0, hm, .inl ⟨hOp, rfl, hf⟩⟩

/-- Of two floating operands the first one that is too large lets arithmetic fail. -/
theorem breaks_floatingArithmetic_iff {op : BinaryOp} {a b : Number} (t : FloatingType) :
    Breaks (do return floating t (some (floatingOp op (← a.toFloat) (← b.toFloat)))) f ↔
      Inconvertible a (.floating t) f ∨ Inconvertible b (.floating t) f := by
  simp only [breaks_bind_iff, breaks_toFloat_iff t]
  constructor
  · rintro (h | ⟨_, -, h | ⟨_, -, h⟩⟩)
    · exact .inl h
    · exact .inr h
    · exact absurd h not_breaks_ok
  · rintro (h | h)
    · exact .inl h
    · cases ha : a.toFloat with
      | ok x => exact .inr ⟨x, rfl, .inl h⟩
      | error e =>
          -- Both faults are the same.
          have hBreaks : Breaks a.toFloat .integerExceedsFloat := by
            cases a with
            | float x => cases ha
            | int n =>
                dsimp only [Number.toFloat] at ha ⊢
                split at ha
                · exact ⟨rfl, rfl⟩
                · cases ha
          cases h
          exact .inl ((breaks_toFloat_iff t).mp hBreaks)

theorem eq_integral_of_number? {c : Constant} (h : c.number? = some (.int n)) :
    ∃ t, c = .integral t (some n) := by
  cases c with
  | integral t v =>
      cases v with
      | none => cases h
      | some m =>
          cases h
          exact ⟨t, rfl⟩
  | floating t v => cases v <;> cases h
  | string | pointer => cases h

theorem breaks_arithmeticOp_iff {op : BinaryOp} {left right : Constant} {t u : ArithmeticType}
    (hOp : op ∈ [.mul, .div, .mod, .add, .sub, .bitAnd, .bitXor, .bitOr])
    (hLeft : left.arithmeticType? = some t) (hRight : right.arithmeticType? = some u) :
    Breaks (arithmeticOp op t u left.number? right.number?) f ↔ Undefined op left right f := by
  unfold arithmeticOp
  constructor
  · intro h
    split at h
    · rename_i common hCommon
      split at h
      · exact absurd h (not_breaks_error rfl)
      split at h
      · exact absurd h (not_breaks_error rfl)
      rename_i hInteger hDivisor
      split at h
      · rename_i a b ha hb
        refine .operand hLeft hRight ?_ hCommon ?_ ha hb
          ((breaks_floatingArithmetic_iff common).mp h)
        · cases op <;> simp_all [isIntegerOnly]
        · rintro rfl
          simpa [isZero, hb] using hDivisor
      · exact absurd h not_breaks_ok
    · rename_i common hCommon
      split at h
      · exact absurd h (not_breaks_error rfl)
      rename_i hDivisor
      split at h
      · rename_i a b ha hb
        obtain ⟨hDivides, hVanishes, -, rfl⟩ := breaks_integerArithmetic_iff.mp h
        obtain ⟨t, rfl⟩ := eq_integral_of_number? ha
        obtain ⟨u, rfl⟩ := eq_integral_of_number? hb
        cases hLeft
        cases hRight
        cases hCommon
        have hZero : b ≠ 0 := by
          rintro rfl
          exact hDivisor ⟨by simpa using hDivides, rfl⟩
        obtain ⟨hType, hDvd⟩ :=
          (inType_eq_zero_iff (IntegerType.common_ne_bool t u) hZero).mp hVanishes
        exact .divisor rfl rfl hDivides hZero hType hDvd
      · exact absurd h not_breaks_ok
  · intro h
    cases h with
    | @operand _ _ _ _ b _ hLeft' hRight' hOp' hCommon hDivisor ha hb h =>
        cases hLeft'.symm.trans hLeft
        cases hRight'.symm.trans hRight
        rw [hCommon, ha, hb]
        have hInteger : isIntegerOnly op = false := by
          cases op <;> simp_all [isIntegerOnly]
        have hDivides : ¬ (op = .div ∧ isZero (some b) = true) := by
          rintro ⟨hDiv, hZero⟩
          simp [isZero, hDivisor hDiv] at hZero
        dsimp only
        rw [hInteger, if_neg Bool.false_ne_true, if_neg hDivides]
        exact (breaks_floatingArithmetic_iff _).mpr h
    | @divisor t u _ b hLeft' hRight' hOp' hZero hType hVanishes =>
        subst hLeft' hRight'
        cases hLeft
        cases hRight
        have hDivisor : isZero (some (.int b)) = false := by
          simpa [isZero, Number.truth] using hZero
        change Breaks (if _ ∧ _ then _ else _) _
        rw [if_neg (by simp [number?, hDivisor])]
        have hBool := IntegerType.common_ne_bool t u
        refine breaks_integerArithmetic_iff.mpr ⟨hOp', ?_, ?_, rfl⟩
        · exact (inType_eq_zero_iff hBool hZero).mpr ⟨hType, hVanishes⟩
        · exact ⟨_, by rw [inType, if_neg hBool, hType]; rfl⟩
    | count hLeft' hRight' hOp' hLong =>
        simp only [List.mem_cons, List.not_mem_nil, or_false] at hOp'
        rcases hOp' with rfl | rfl <;> simp at hOp

theorem isShort_of_lt {b : Int} (hNonneg : 0 ≤ b) (hLess : b < 64) : Numeral.isShort b = true := by
  have hAll : ∀ k : Fin 64, Numeral.isShort (k.val : Int) = true := by decide
  obtain ⟨k, rfl⟩ := Int.eq_ofNat_of_zero_le hNonneg
  exact hAll ⟨k, by omega⟩

theorem breaks_shift_iff {op : BinaryOp} {a b : Int} :
    Breaks (shift op t a b) f ↔ Numeral.isShort b = false ∧ f = .tooLongToWrite := by
  have hBits : (t.bits : Int) ≤ 64 := by cases t <;> decide
  unfold shift
  split
  · cases hShort : Numeral.isShort b with
    | true => exact iff_of_false (not_breaks_error rfl) (by simp)
    | false =>
        constructor
        · rintro ⟨⟨⟩, -⟩
          exact ⟨rfl, rfl⟩
        · rintro ⟨-, rfl⟩
          exact ⟨rfl, rfl⟩
  · rename_i hRange
    have hShort : Numeral.isShort b = true := isShort_of_lt (by omega) (by omega)
    refine iff_of_false ?_ (by simp [hShort])
    split
    · split
      · exact not_breaks_error rfl
      · dsimp only
        split
        · exact not_breaks_error rfl
        · exact not_breaks_inType
    · exact not_breaks_inType

/-- A shift is undefined only for a count that is too long. -/
theorem Undefined.of_shift {op : BinaryOp} {left right : Constant} (h : Undefined op left right f)
    (hOp : op ∈ [.shiftLeft, .shiftRight]) : ∃ t u a b, left = .integral t (some a)
      ∧ right = .integral u (some b) ∧ Numeral.isShort b = false ∧ f = .tooLongToWrite := by
  simp only [List.mem_cons, List.not_mem_nil, or_false] at hOp
  cases h with
  | operand _ _ hOp' => rcases hOp with rfl | rfl <;> simp at hOp'
  | divisor _ _ hOp' => rcases hOp with rfl | rfl <;> simp at hOp'
  | count hLeft hRight _ hLong => exact ⟨_, _, _, _, hLeft, hRight, hLong, rfl⟩

/-- An operator between two operands fails without a reason exactly if it is undefined for them. -/
theorem breaks_binaryOp_iff {op : BinaryOp} {left right : Constant} :
    Breaks (binaryOp op left right) f ↔ Undefined op left right f := by
  unfold binaryOp
  split
  · rename_i hLeft
    refine iff_of_false (not_breaks_error rfl) ?_
    rintro (⟨hLeft', -⟩ | ⟨rfl, -⟩ | ⟨rfl, -⟩)
    · cases hLeft'.symm.trans hLeft
    · cases hLeft
    · cases hLeft
  · rename_i hRight
    refine iff_of_false (not_breaks_error rfl) ?_
    rintro (⟨-, hRight', -⟩ | ⟨-, rfl, -⟩ | ⟨-, rfl, -⟩)
    · cases hRight'.symm.trans hRight
    · cases hRight
    · cases hRight
  rename_i t u hLeft hRight
  have hOther : (∀ op' ∈ [BinaryOp.add, .sub, .mul, .div, .mod, .shiftLeft, .shiftRight],
    op ≠ op') →
      ¬ Undefined op left right f := by
    rintro h (⟨-, -, hOp, -⟩ | ⟨-, -, hOp, -⟩ | ⟨-, -, hOp, -⟩) <;> simp at hOp <;> simp_all
  cases op with
  | and | or | less | lessEqual | greater | greaterEqual | equal | notEqual =>
      refine iff_of_false ?_ (hOther (by decide))
      dsimp only
      split <;> exact not_breaks_ok
  | threeWay => exact iff_of_false (not_breaks_error rfl) (hOther (by decide))
  | shiftLeft | shiftRight =>
      dsimp only
      split
      · split
        · rename_i a b ha hb
          obtain ⟨t, rfl⟩ := eq_integral_of_number? ha
          obtain ⟨u, rfl⟩ := eq_integral_of_number? hb
          rw [breaks_map_iff, breaks_shift_iff]
          constructor
          · rintro ⟨hLong, rfl⟩
            exact .count rfl rfl (by decide) hLong
          · intro h
            obtain ⟨_, _, _, _, hLeft, hRight, hLong, hf⟩ := h.of_shift (by decide)
            cases hRight
            exact ⟨hLong, hf⟩
        · rename_i hUnknown
          refine iff_of_false not_breaks_ok fun h => ?_
          obtain ⟨_, _, a, b, rfl, rfl, -⟩ := h.of_shift (by decide)
          exact hUnknown a b rfl rfl
      · rename_i hFloating
        refine iff_of_false (not_breaks_error rfl) fun h => ?_
        obtain ⟨t, u, _, _, rfl, rfl, -⟩ := h.of_shift (by decide)
        cases hLeft
        cases hRight
        exact hFloating t u rfl rfl
  | mul | div | mod | add | sub | bitAnd | bitXor | bitOr =>
      exact breaks_arithmeticOp_iff (by decide) hLeft hRight

end

end Constant

end Demacro
