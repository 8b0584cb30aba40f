import Demacro.Proofs.Constant.Meaning
import Demacro.Proofs.Expr.Nodes
import Demacro.Proofs.Success

/-!
Folding of integral constant expressions against their meaning in the language. Folding knows the
operators, but it departs from the language at four kinds of nodes (`Departs`). The main result is
that the type and the value of every node of an expression are those of the language exactly if no
node is of these kinds.
-/

namespace Demacro.Constant

/-- What names mean: the integers that they are resolved to. -/
def meanings (resolve : Option Resolver) : Names := fun text =>
  match resolve with
  | none => none
  | some g =>
    match g text with
    | .ok ⟨.integral t (some n), _, _⟩ => if t.Holds n then some (t, n) else none
    | _ => none

/-- The name is resolved to an integer in the range of its type, if it is resolved. -/
def IsIntegralName (resolve : Option Resolver) (text : String) : Prop :=
  ∀ g ∈ resolve, ∀ f, g text = .ok f → ∃ t n, f.constant = .integral t (some n) ∧ t.Holds n

/-- The expression is made of integers, characters, truth values and names of integers, with
parentheses, operators and casts to integer types. -/
inductive IsIntegral (resolve : Option Resolver) : Expr → Prop where
  | integer {l : Literal.IntegerLiteral} (hKind : token.kind = .number)
      (hLiteral : l.IsWritten token.lexeme) : IsIntegral resolve (.literal r [token])
  | character (hKind : token.kind = .char) (hLiteral : Literal.IsCharacter t code token.lexeme) :
      IsIntegral resolve (.literal r [token])
  | truth (hText : text ∈ ["true", "false"]) : IsIntegral resolve (.name r text)
  | name (hName : IsIntegralName resolve text) : IsIntegral resolve (.name r text)
  | paren (h : IsIntegral resolve e) : IsIntegral resolve (.paren r e)
  | unary (h : IsIntegral resolve e) : IsIntegral resolve (.unary r op e)
  | binary (hLeft : IsIntegral resolve left) (hRight : IsIntegral resolve right) :
      IsIntegral resolve (.binary r op left right)
  | conditional (hCondition : IsIntegral resolve condition) (hTrue : IsIntegral resolve whenTrue)
      (hFalse : IsIntegral resolve whenFalse) :
      IsIntegral resolve (.conditional r condition whenTrue whenFalse)
  | cast (hType : IsTypeName type t) (h : IsIntegral resolve e) :
      IsIntegral resolve (.cast r type e)

/-- Where folding departs from the language: at a character whose value is not the number that is
written, at a comparison that holds of the operands but not of what they are converted to, or the
other way round, at a conditional expression whose alternatives have one type that promotion would
change, and at a remainder whose quotient is out of range. -/
inductive Departs (names : Names) : Expr → Prop where
  | character (hKind : token.kind = .char) (hLiteral : Literal.IsCharacter t code token.lexeme)
      (hValue : ¬ Literal.CharacterValue t code code.number) : Departs names (.literal r [token])
  | comparison (hOp : comparison? op = some holds) (hLeft : HasType names left t)
      (hRight : HasType names right u) (hMeet : t.Meets u s) (ha : HasValue names left a)
      (hb : HasValue names right b) (ha' : s.Converts a a') (hb' : s.Converts b b')
      (hDiffer : holds a b ≠ holds a' b') : Departs names (.binary r op left right)
  | conditional (hTrue : HasType names whenTrue t) (hFalse : HasType names whenFalse t)
      (hPromoted : t.promoted ≠ t) : Departs names (.conditional r condition whenTrue whenFalse)
  | remainder (hLeft : HasType names left t) (hRight : HasType names right u) (hMeet : t.Meets u s)
      (ha : HasValue names left a) (hb : HasValue names right b) (ha' : s.Converts a a')
      (hb' : s.Converts b b') (hQuotient : ¬ s.Holds (a'.tdiv b')) :
      Departs names (.binary r .mod left right)

/-- The expression is folded with full confidence to its type and its value. -/
def Agrees (resolve : Option Resolver) (e : Expr) : Prop :=
  ∃ t n evidence, fold resolve e = .ok ⟨.integral t (some n), .high, evidence⟩
    ∧ HasType (meanings resolve) e t.denoted ∧ HasValue (meanings resolve) e n

section

variable {resolve : Option Resolver} {e left right condition whenTrue whenFalse : Expr}
  {f g : Folded} {c : Constant} {t u s : IntegerType} {a b m n : Int} {op : BinaryOp}
  {fs : List Folded}

theorem inRange_meanings (resolve : Option Resolver) : Names.InRange (meanings resolve) := by
  intro text t n h
  unfold meanings at h
  split at h
  · cases h
  · split at h
    · split at h
      · cases h
        assumption
      · cases h
    · cases h

theorem lower_eq_high_iff {a b : Confidence} : a.lower b = .high ↔ a = .high ∧ b = .high := by
  cases a <;> cases b <;> decide

theorem foldl_withOperand_constant (f : Folded) (fs : List Folded) :
    (fs.foldl Folded.withOperand f).constant = f.constant := by
  induction fs generalizing f with
  | nil => rfl
  | cons g fs ih => exact ih _

theorem foldl_withOperand_eq_high_iff :
    (fs.foldl Folded.withOperand f).confidence = .high ↔ f.confidence = .high
    ∧ ∀ g ∈ fs, g.confidence = .high := by
  induction fs generalizing f with
  | nil => simp
  | cons g fs ih =>
      rw [List.foldl_cons, ih, List.forall_mem_cons, ← and_assoc]
      exact and_congr_left' lower_eq_high_iff

@[simp]
theorem ofOperands_constant (c : Constant) (fs : List Folded) :
    (Folded.ofOperands c fs).constant = c :=
  foldl_withOperand_constant _ fs

theorem ofOperands_eq_high_iff :
    (Folded.ofOperands c fs).confidence = .high ↔ ∀ g ∈ fs, g.confidence = .high := by
  rw [Folded.ofOperands, foldl_withOperand_eq_high_iff]
  exact and_iff_right rfl

/-- Operands are taken as they are, once their kind is known. -/
theorem needArithmetic_bind_eq_ok {symbol : String} {k : Folded → Except FoldError Folded}
    (h : (needArithmetic symbol f >>= k) = .ok g) : k f = .ok g := by
  obtain ⟨f', hNeed, h⟩ := Except.bind_eq_ok_iff.mp h
  unfold needArithmetic at hNeed
  split at hNeed
  · cases hNeed
    exact h
  · cases hNeed

/-- The last step of a node. -/
theorem ofOperands_eq_ok {x : Except FoldError Constant}
    (h : (x >>= fun c => pure (Folded.ofOperands c fs)) = .ok f) :
    ∃ c, x = .ok c ∧ f = .ofOperands c fs := by
  obtain ⟨c, hResult, h⟩ := Except.bind_eq_ok_iff.mp h
  exact ⟨c, hResult, (Except.ok.inj h).symm⟩

theorem fold_unary_eq_ok {op : UnaryOp} (h : fold resolve (.unary r op e) = .ok f) :
    ∃ g c, fold resolve e = .ok g ∧ unaryOp op g.constant = .ok c ∧ f = .ofOperands c [g] := by
  cases op with
  | step | dereference | addressOf => cases h
  | plus | minus | complement | not =>
      obtain ⟨g, hOperand, h⟩ := Except.bind_eq_ok_iff.mp h
      have hRest := needArithmetic_bind_eq_ok h
      obtain ⟨c, hResult, rfl⟩ := ofOperands_eq_ok hRest
      exact ⟨g, c, hOperand, hResult, rfl⟩

theorem fold_cast_eq_ok (hType : IsTypeName type t) (h : fold resolve (.cast r type e) = .ok f) :
    ∃ g c, fold resolve e = .ok g ∧ castTo (.integer t) g.constant.number? = .ok c
      ∧ f = .ofOperands c [g] := by
  unfold fold at h
  dsimp only at h
  rw [hType.ofWords] at h
  obtain ⟨target, hTarget, h⟩ := Except.bind_eq_ok_iff.mp h
  cases hTarget
  obtain ⟨g, hOperand, h⟩ := Except.bind_eq_ok_iff.mp h
  have hRest := needArithmetic_bind_eq_ok h
  obtain ⟨c, hResult, rfl⟩ := ofOperands_eq_ok hRest
  exact ⟨g, c, hOperand, hResult, rfl⟩

theorem fold_binary_eq_ok (h : fold resolve (.binary r op left right) = .ok f) :
    ∃ g g' c, fold resolve left = .ok g ∧ fold resolve right = .ok g'
      ∧ binaryOp op g.constant g'.constant = .ok c ∧ f = .ofOperands c [g, g'] := by
  obtain ⟨g, hLeft, h⟩ := Except.bind_eq_ok_iff.mp h
  obtain ⟨g', hRight, h⟩ := Except.bind_eq_ok_iff.mp (needArithmetic_bind_eq_ok h)
  have hRest := needArithmetic_bind_eq_ok h
  obtain ⟨c, hResult, rfl⟩ := ofOperands_eq_ok hRest
  exact ⟨g, g', c, hLeft, hRight, hResult, rfl⟩

theorem fold_conditional_eq_ok
    (h : fold resolve (.conditional r condition whenTrue whenFalse) = .ok f) :
    ∃ k g g' c, fold resolve condition = .ok k ∧ fold resolve whenTrue = .ok g
      ∧ fold resolve whenFalse = .ok g' ∧ choose k.constant g.constant g'.constant = .ok c
      ∧ f = .ofOperands c [k, g, g'] := by
  obtain ⟨k, hCondition, h⟩ := Except.bind_eq_ok_iff.mp h
  obtain ⟨g, hTrue, h⟩ := Except.bind_eq_ok_iff.mp (needArithmetic_bind_eq_ok h)
  obtain ⟨g', hFalse, h⟩ := Except.bind_eq_ok_iff.mp (needArithmetic_bind_eq_ok h)
  have hRest := needArithmetic_bind_eq_ok h
  obtain ⟨c, hResult, rfl⟩ := ofOperands_eq_ok hRest
  exact ⟨k, g, g', c, hCondition, hTrue, hFalse, hResult, rfl⟩

theorem operates_denoted : Operates t.denoted a b op n ↔ Operates t a b op n := by
  cases t
  case size =>
    constructor <;> intro h <;> cases h <;> constructor <;> assumption
  all_goals exact Iff.rfl

/-- The bits of two values are combined as those of numbers below the modulus. -/
theorem bits_bitwise {p : Nat → Nat → Nat} {q : BitVec t.bits → BitVec t.bits → BitVec t.bits}
    (h : ∀ x y, (q x y).toNat = p x.toNat y.toNat) :
    BitVec.ofInt t.bits (bitwise t p a b) = q (BitVec.ofInt t.bits a) (BitVec.ofInt t.bits b) := by
  have hToNat : ∀ n : Int, (n % t.modulus).toNat = (BitVec.ofInt t.bits n).toNat := by
    intro n
    rw [BitVec.toNat_ofInt, IntegerType.modulus_eq_pow]
    norm_cast
  rw [bitwise, IntegerType.bits_wrap, hToNat, hToNat, ← h, BitVec.ofInt_natCast, BitVec.ofNat_toNat,
    BitVec.setWidth_eq]

/-- Arithmetic that is folded has the value of the language, if its quotient is in range. -/
theorem operates_of_integerOp (ha : t.Holds a) (hOp : op ∈ arithmeticOperators)
    (h : integerOp op t a b = .ok n) (hResult : t.Computes n m)
    (hQuotient : op = .mod → t.Holds (a.tdiv b)) : Operates t a b op m := by
  cases op with
  | shiftLeft | shiftRight | threeWay | less | lessEqual | greater | greaterEqual | equal | notEqual
      | and
  | or => simp [arithmeticOperators] at hOp
  | add =>
      cases h
      exact .add hResult
  | sub =>
      cases h
      exact .sub hResult
  | mul =>
      cases h
      exact .mul hResult
  | div =>
      simp only [integerOp] at h
      split at h
      · cases h
      · cases h
        exact .div ‹_› hResult
  | mod =>
      simp only [integerOp] at h
      split at h
      · cases h
      · cases h
        rw [hResult.unique (holds_tmod ha b).computes]
        exact .mod ‹_› (hQuotient rfl)
  | bitAnd =>
      cases h
      rw [hResult.unique (t.holds_wrap _).computes]
      exact .bitAnd (t.holds_wrap _) (bits_bitwise BitVec.toNat_and)
  | bitOr =>
      cases h
      rw [hResult.unique (t.holds_wrap _).computes]
      exact .bitOr (t.holds_wrap _) (bits_bitwise BitVec.toNat_or)
  | bitXor =>
      cases h
      rw [hResult.unique (t.holds_wrap _).computes]
      exact .bitXor (t.holds_wrap _) (bits_bitwise BitVec.toNat_xor)

/-- Arithmetic converts both operands to the common type and brings the result into it. -/
theorem arithmeticOp_eq_ok
    (h : arithmeticOp op (.integer t) (.integer u) (some (.int a)) (some (.int b)) = .ok c) :
    ∃ a' b' n m, (t.common u).Computes a a' ∧ (t.common u).Computes b b'
      ∧ integerOp op (t.common u) a' b' = .ok n ∧ (t.common u).Computes n m
      ∧ c = .integral (t.common u) (some m) := by
  have hType := IntegerType.common_ne_bool t u
  unfold arithmeticOp at h
  dsimp only [ArithmeticType.common] at h
  split at h
  · cases h
  · obtain ⟨a', ha, h⟩ := Except.bind_eq_ok_iff.mp h
    obtain ⟨b', hb, h⟩ := Except.bind_eq_ok_iff.mp h
    obtain ⟨n, hOperation, h⟩ := Except.bind_eq_ok_iff.mp h
    obtain ⟨m, hResult, h⟩ := Except.bind_eq_ok_iff.mp h
    exact ⟨a', b', n, m, (inType_eq_ok_iff hType).mp ha, (inType_eq_ok_iff hType).mp hb, hOperation,
      (inType_eq_ok_iff hType).mp hResult, (Except.ok.inj h).symm⟩

/-- A comparison that is folded compares the values of the operands as they are. -/
theorem compareBy_eq {holds : Int → Int → Bool} (hOp : comparison? op = some holds) (a b : Int) :
    compareBy op (.int a) (.int b) = some (holds a b) := by
  have hOrder : Number.compare? (.int a) (.int b) = some (compare a b) := rfl
  cases op <;> cases hOp <;> simp only [compareBy, hOrder, Option.some.injEq]
  all_goals
    rw [Bool.eq_iff_iff]
    simp [compare_lt_iff_lt, compare_gt_iff_gt]
    try omega

/-- What a cast names is no other name of a type. -/
theorem IsTypeName.denoted_eq (h : IsTypeName type t) : t.denoted = t := by
  have hDenoted : ∀ x ∈ typeNames, x.2.denoted = x.2 := by
    decide
  obtain ⟨hName, -, -⟩ := h
  exact hDenoted _ hName

/-- A conversion by a cast. -/
theorem castTo_eq_ok (h : castTo (.integer t) (some (.int n)) = .ok c) :
    ∃ m, t.Converts n m ∧ c = .integral t (some m) := by
  simp only [castTo] at h
  split at h
  · rename_i hBool
    cases h
    refine ⟨_, ?_, rfl⟩
    rw [IntegerType.Converts, if_pos hBool]
    by_cases hZero : n = 0 <;> simp [hZero, Number.truth, ofBool]
  · cases h
    exact ⟨_, IntegerType.converts_wrap ‹_› n, rfl⟩

theorem agrees_of_fold (h : fold resolve e = .ok (.ofOperands (.integral t (some n)) fs))
    (hHigh : ∀ g ∈ fs, g.confidence = .high) (hType : HasType (meanings resolve) e t.denoted)
    (hValue : HasValue (meanings resolve) e n) : Agrees resolve e := by
  have hConstant := ofOperands_constant (.integral t (some n)) fs
  have hConfidence := (ofOperands_eq_high_iff (c := .integral t (some n))).mpr hHigh
  generalize Folded.ofOperands (.integral t (some n)) fs = f at h hConstant hConfidence
  obtain ⟨_, _, evidence⟩ := f
  cases hConstant
  cases hConfidence
  exact ⟨t, n, evidence, h, hType, hValue⟩

theorem Agrees.of_fold (hAgrees : Agrees resolve e)
    (h : fold resolve e = .ok (.ofOperands (.integral t (some n)) fs)) :
    HasType (meanings resolve) e t.denoted ∧ HasValue (meanings resolve) e n := by
  obtain ⟨u, m, evidence, hFold, hType, hValue⟩ := hAgrees
  have hSame := Except.ok.inj (h.symm.trans hFold)
  have hConstant := congrArg Folded.constant hSame
  rw [ofOperands_constant] at hConstant
  cases hConstant
  exact ⟨hType, hValue⟩

theorem map_inType?_eq_ok (ht : t ≠ .bool) (h : (inType? t (some n)).map (integral t) = .ok c) :
    ∃ m, t.Computes n m ∧ c = .integral t (some m) := by
  obtain ⟨v, hType, rfl⟩ := Except.map_eq_ok_iff.mp h
  obtain ⟨m, hValue, rfl⟩ := Except.map_eq_ok_iff.mp hType
  exact ⟨m, (inType_eq_ok_iff ht).mp hValue, rfl⟩

theorem Agrees.unary {op : UnaryOp} (hOperand : Agrees resolve e)
    (h : fold resolve (.unary r op e) = .ok f) : Agrees resolve (.unary r op e) := by
  obtain ⟨t, n, evidence, hFold, hType, hValue⟩ := hOperand
  obtain ⟨g, c, hOperand, hResult, rfl⟩ := fold_unary_eq_ok h
  cases hFold.symm.trans hOperand
  have hUnary : ∀ op ∈ [UnaryOp.plus, .minus, .complement],
      HasType (meanings resolve) (.unary r op e) t.promote.denoted := by
    intro op hOp
    rw [← t.promoted_denoted]
    exact .unary hOp hType
  have hComputes : ∀ {k m : Int}, t.promote.Computes k m → t.denoted.promoted.Computes k m := by
    intro k m hComputes
    rwa [t.promoted_denoted, IntegerType.computes_denoted]
  cases op with
  | step | dereference | addressOf => cases h
  | not =>
      cases hResult
      exact agrees_of_fold h (by simp) (.not hType) (.not hValue)
  | plus =>
      obtain ⟨m, hm, rfl⟩ := map_inType?_eq_ok t.promote_ne_bool hResult
      exact agrees_of_fold h (by simp) (hUnary _ (by decide)) (.plus hType hValue (hComputes hm))
  | minus =>
      obtain ⟨m, hm, rfl⟩ := map_inType?_eq_ok t.promote_ne_bool hResult
      exact agrees_of_fold h (by simp) (hUnary _ (by decide)) (.minus hType hValue (hComputes hm))
  | complement =>
      obtain ⟨m, hm, rfl⟩ := map_inType?_eq_ok t.promote_ne_bool hResult
      exact agrees_of_fold h (by simp) (hUnary _ (by decide))
        (.complement hType hValue (hComputes hm))

theorem Agrees.cast (hOperand : Agrees resolve e) (hName : IsTypeName type u)
    (h : fold resolve (.cast r type e) = .ok f) : Agrees resolve (.cast r type e) := by
  obtain ⟨t, n, evidence, hFold, hType, hValue⟩ := hOperand
  obtain ⟨g, c, hOperand, hResult, rfl⟩ := fold_cast_eq_ok hName h
  cases hFold.symm.trans hOperand
  obtain ⟨m, hm, rfl⟩ := castTo_eq_ok hResult
  refine agrees_of_fold h (by simp) ?_ (.cast hName hValue hm)
  rw [hName.denoted_eq]
  exact .cast hName hType

theorem denoted_of_type? {l : Literal.IntegerLiteral} (h : l.type? = some t) : t.denoted = t := by
  have hTypes : ∀ u ∈ l.types, u.denoted = u := by
    unfold Literal.IntegerLiteral.types
    split <;> decide
  exact hTypes t (List.mem_of_find?_eq_some h)

/-- A number is folded to its type and value. -/
theorem agrees_integer {l : Literal.IntegerLiteral} (hKind : token.kind = .number)
    (hLiteral : l.IsWritten token.lexeme) (h : fold resolve (.literal r [token]) = .ok f)
    (hHigh : f.confidence = .high) : Agrees resolve (.literal r [token]) := by
  have hRead : Literal.number token.lexeme = .ok f := by
    unfold fold ofLiteral at h
    dsimp only at h
    rwa [hKind] at h
  obtain ⟨t, hType, hConstant⟩ := hLiteral.number_eq_ok hRead hHigh
  obtain ⟨constant, confidence, evidence⟩ := f
  cases hConstant
  cases hHigh
  refine ⟨t, _, evidence, h, ?_, .integer hKind hLiteral⟩
  rw [denoted_of_type? hType]
  exact .integer hKind hLiteral hType

theorem denoted_of_isCharacter (h : Literal.IsCharacter t code lexeme) : t.denoted = t := by
  have hTypes : ∀ x ∈ Literal.characterTypes, x.2.denoted = x.2 := by
    decide
  obtain ⟨hType, -⟩ := h
  exact hTypes _ hType

theorem HasValue.of_character {names : Names} (hKind : token.kind = .char)
    (hLiteral : Literal.IsCharacter t code token.lexeme)
    (h : HasValue names (.literal r [token]) n) : Literal.CharacterValue t code n := by
  cases h with
  | integer hKind' => simp [hKind] at hKind'
  | character _ hLiteral' hValue =>
      obtain ⟨rfl, rfl⟩ := hLiteral.unique hLiteral'
      exact hValue

/-- A character has its type, and the number that is written in it is taken for its value. -/
theorem agrees_character_iff (hKind : token.kind = .char)
    (hLiteral : Literal.IsCharacter t code token.lexeme) :
    Agrees resolve (.literal r [token]) ↔ ¬ Departs (meanings resolve) (.literal r [token]) := by
  have hFold : fold resolve (.literal r [token]) = .ok ⟨.integral t (some code.number), .high,
      []⟩ := by
    unfold fold ofLiteral
    dsimp only
    rw [hKind]
    exact hLiteral.character_eq
  constructor
  · rintro ⟨u, n, evidence, hOther, -, hValue⟩ hDeparts
    cases hFold.symm.trans hOther
    have hRight := hValue.of_character hKind hLiteral
    cases hDeparts with
    | character _ hLiteral' hWrong =>
        obtain ⟨rfl, rfl⟩ := hLiteral.unique hLiteral'
        exact hWrong hRight
  · intro hDeparts
    refine ⟨t, _, [], hFold, ?_, .character hKind hLiteral ?_⟩
    · rw [denoted_of_isCharacter hLiteral]
      exact .character hKind hLiteral
    · by_contra hValue
      exact hDeparts (.character hKind hLiteral hValue)

/-- A truth value. -/
theorem agrees_truth (hText : text ∈ ["true", "false"]) : Agrees resolve (.name r text) := by
  refine ⟨.bool, ofBool (text == "true"), [], ?_, .truth hText, .truth hText⟩
  unfold fold ofName
  rw [if_pos (by simpa using hText)]

theorem agrees_name (hText : text ∉ ["true", "false"]) (hName : IsIntegralName resolve text)
    (h : fold resolve (.name r text) = .ok f) (hHigh : f.confidence = .high) :
    Agrees resolve (.name r text) := by
  have hFold := h
  unfold fold ofName at h
  rw [if_neg (by simpa using hText)] at h
  split at h
  · cases h
    cases hHigh
  split at h
  · split at h
    · cases h
    · rename_i resolve _
      obtain ⟨t, n, hConstant, hHolds⟩ := hName resolve rfl f h
      obtain ⟨constant, confidence, evidence⟩ := f
      cases hConstant
      cases hHigh
      have hMeaning : meanings (some resolve) text = some (t, n) := by
        simp [meanings, h, hHolds]
      exact ⟨t, n, evidence, hFold, .name hText hMeaning, .name hText hMeaning⟩
  · cases h

theorem Agrees.paren (hInner : Agrees resolve e) : Agrees resolve (.paren r e) := by
  obtain ⟨t, n, evidence, hFold, hType, hValue⟩ := hInner
  refine ⟨t, n, evidence, ?_, .paren hType, .paren hValue⟩
  rwa [fold]

theorem promoted_eq_of_denoted (h : t.denoted = u.denoted) :
    (t.common u).denoted = t.denoted.promoted := by
  have hMeets := t.meets_common u
  rw [← h] at hMeets
  exact hMeets.unique (.inl .same)

/-- The conditional expression is folded in the common type of its alternatives. -/
theorem choose_eq_ok {k : Int} {s : IntegerType}
    (h : choose (.integral s (some k)) (.integral t (some a)) (.integral u (some b)) = .ok c) :
    ∃ m, (t.common u).Computes (if k ≠ 0 then a else b) m
    ∧ c = .integral (t.common u) (some m) := by
  have hChosen : (Number.int k).truth = decide (k ≠ 0) := by
    rw [Bool.eq_iff_iff]
    simp [Number.truth]
  simp only [choose, arithmeticType?, number?, Option.map_some, Option.bind_some,
    ArithmeticType.common, hChosen, decide_eq_true_eq] at h
  split at h
  · rename_i v hNumber
    obtain ⟨n, hInt, h⟩ := Except.bind_eq_ok_iff.mp h
    obtain ⟨m, hm, h⟩ := Except.bind_eq_ok_iff.mp h
    refine ⟨m, ?_, (Except.ok.inj h).symm⟩
    have hn : n = if k ≠ 0 then a else b := by
      split at hNumber <;> cases hNumber <;> cases hInt <;> simp [*]
    rw [← hn]
    exact (inType_eq_ok_iff (IntegerType.common_ne_bool t u)).mp hm
  · rename_i hNumber
    split at hNumber <;> cases hNumber

/-- A conditional expression agrees unless its alternatives have one type that promotion changes. -/
theorem agrees_conditional_iff (hCondition : Agrees resolve condition)
    (hTrue : Agrees resolve whenTrue) (hFalse : Agrees resolve whenFalse)
    (h : fold resolve (.conditional r condition whenTrue whenFalse) = .ok f) :
    Agrees resolve (.conditional r condition whenTrue whenFalse)
      ↔ ¬ Departs (meanings resolve) (.conditional r condition whenTrue whenFalse) := by
  obtain ⟨s, k, evidence, hFold, hType, hValue⟩ := hCondition
  obtain ⟨t, a, evidence', hFold', hTrueType, hTrueValue⟩ := hTrue
  obtain ⟨u, b, evidence'', hFold'', hFalseType, hFalseValue⟩ := hFalse
  obtain ⟨g, g', g'', c, hOperand, hOperand', hOperand'', hResult, rfl⟩ := fold_conditional_eq_ok h
  cases hFold.symm.trans hOperand
  cases hFold'.symm.trans hOperand'
  cases hFold''.symm.trans hOperand''
  obtain ⟨m, hComputes, rfl⟩ := choose_eq_ok hResult
  constructor
  · intro hAgrees hDeparts
    obtain ⟨hConditional, -⟩ := hAgrees.of_fold h
    cases hDeparts with
    | conditional hTrueType' hFalseType' hPromoted =>
        have hSame := hTrueType.unique hTrueType'
        have hSame' := hFalseType.unique hFalseType'
        rw [promoted_eq_of_denoted (hSame.trans hSame'.symm), hSame] at hConditional
        exact hPromoted (hConditional.unique (.same hType hTrueType' hFalseType'))
  · intro hDeparts
    have hConditional : HasType (meanings resolve) (.conditional r condition whenTrue whenFalse)
        (t.common u).denoted := by
      by_cases hSame : t.denoted = u.denoted
      · rw [promoted_eq_of_denoted hSame]
        have hPromoted : t.denoted.promoted = t.denoted := by
          by_contra hPromoted
          exact hDeparts (.conditional hTrueType (hSame ▸ hFalseType) hPromoted)
        rw [hPromoted]
        exact .same hType hTrueType (hSame ▸ hFalseType)
      · exact .different hType hTrueType hFalseType hSame (t.meets_common u)
    refine agrees_of_fold h (by simp) hConditional ?_
    have hConverts : (t.common u).denoted.Converts (if k ≠ 0 then a else b) m := by
      rw [IntegerType.converts_denoted]
      exact hComputes.converts (IntegerType.common_ne_bool t u)
    by_cases hTest : k ≠ 0
    · rw [if_pos hTest] at hConverts
      exact .whenTrue hConditional hValue hTest hTrueValue hConverts
    · rw [if_neg hTest] at hConverts
      rw [not_not.mp hTest] at hValue
      exact .whenFalse hConditional hValue hFalseValue hConverts

/-- A binary node whose operands agree. -/
theorem fold_binary (hLeft : Agrees resolve left) (hRight : Agrees resolve right)
    (h : fold resolve (.binary r op left right) = .ok f) :
    ∃ t a, HasType (meanings resolve) left t.denoted ∧ HasValue (meanings resolve) left a
      ∧ ∃ u b, HasType (meanings resolve) right u.denoted ∧ HasValue (meanings resolve) right b
      ∧ ∃ c fs, binaryOp op (.integral t (some a)) (.integral u (some b)) = .ok c
      ∧ fold resolve (.binary r op left right) = .ok (.ofOperands c fs)
      ∧ ∀ g ∈ fs, g.confidence = .high := by
  obtain ⟨t, a, evidence, hFold, hLeftType, hLeftValue⟩ := hLeft
  obtain ⟨u, b, evidence', hFold', hRightType, hRightValue⟩ := hRight
  obtain ⟨g, g', c, hOperand, hOperand', hResult, rfl⟩ := fold_binary_eq_ok h
  cases hFold.symm.trans hOperand
  cases hFold'.symm.trans hOperand'
  exact ⟨t, a, hLeftType, hLeftValue, u, b, hRightType, hRightValue, c, _, hResult, h, by simp⟩

/-- Arithmetic agrees unless it is a remainder whose quotient is out of range. -/
theorem agrees_arithmetic_iff (hOp : op ∈ arithmeticOperators) (hLeft : Agrees resolve left)
    (hRight : Agrees resolve right) (h : fold resolve (.binary r op left right) = .ok f) :
    Agrees resolve (.binary r op left right)
      ↔ ¬ Departs (meanings resolve) (.binary r op left right) := by
  obtain ⟨t, a, hLeftType, hLeftValue, u, b, hRightType, hRightValue, c, fs, hResult, h, hHigh⟩ :=
    fold_binary hLeft hRight h
  have hArithmetic : arithmeticOp op (.integer t) (.integer u) (some (.int a)) (some (.int b))
      = .ok c := by
    cases op with
    | mul | div | mod | add | sub | bitAnd | bitXor | bitOr => exact hResult
    | shiftLeft | shiftRight | threeWay | less | lessEqual | greater | greaterEqual | equal
        | notEqual | and
    | or => simp [arithmeticOperators] at hOp
  obtain ⟨a', b', n, m, ha, hb, hOperation, hm, rfl⟩ := arithmeticOp_eq_ok hArithmetic
  have hMeet := t.meets_common u
  have hConverts : ∀ {x y : Int}, (t.common u).Computes x y →
      (t.common u).denoted.Converts x y := by
    intro x y hComputes
    rw [IntegerType.converts_denoted]
    exact hComputes.converts (IntegerType.common_ne_bool t u)
  have hType : HasType (meanings resolve) (.binary r op left right) (t.common u).denoted :=
    .arithmetic hOp hLeftType hRightType hMeet
  constructor
  · intro hAgrees hDeparts
    obtain ⟨-, hValue⟩ := hAgrees.of_fold h
    cases hDeparts with
    | comparison hOp' => simp [(of_mem_arithmeticOperators hOp).2.1] at hOp'
    | remainder hLeftType' hRightType' hMeet' hLeftValue' hRightValue' ha' hb' hQuotient =>
        cases hValue with
        | comparison hOp' => cases hOp'
        | arithmetic hLeftType'' hRightType'' hMeet'' hLeftValue'' hRightValue'' ha'' hb''
            hOperates =>
            cases hLeftType'.unique hLeftType''
            cases hRightType'.unique hRightType''
            cases hMeet'.unique hMeet''
            cases hLeftValue'.unique hLeftValue''
            cases hRightValue'.unique hRightValue''
            cases ha'.unique ha''
            cases hb'.unique hb''
            cases hOperates
            exact hQuotient ‹_›
  · intro hDeparts
    have hQuotient : op = .mod → (t.common u).Holds (a'.tdiv b') := by
      rintro rfl
      by_contra hQuotient
      rw [← IntegerType.holds_denoted] at hQuotient
      exact hDeparts (.remainder hLeftType hRightType hMeet hLeftValue hRightValue (hConverts ha)
        (hConverts hb) hQuotient)
    have hOperates := operates_of_integerOp ha.1 hOp hOperation hm hQuotient
    exact agrees_of_fold h hHigh hType
      (.arithmetic hLeftType hRightType hMeet hLeftValue hRightValue
      (hConverts ha) (hConverts hb) (operates_denoted.mpr hOperates))

theorem ofBool_inj {p q : Bool} (h : ofBool p = ofBool q) : p = q := by
  revert h
  cases p <;> cases q <;> decide

/-- A comparison agrees unless conversion of the operands changes its result. -/
theorem agrees_comparison_iff {holds : Int → Int → Bool} (hOp : comparison? op = some holds)
    (hLeft : Agrees resolve left) (hRight : Agrees resolve right)
    (h : fold resolve (.binary r op left right) = .ok f) :
    Agrees resolve (.binary r op left right)
      ↔ ¬ Departs (meanings resolve) (.binary r op left right) := by
  obtain ⟨t, a, hLeftType, hLeftValue, u, b, hRightType, hRightValue, c, fs, hResult, h, hHigh⟩ :=
    fold_binary hLeft hRight h
  have hCompared : c = .integral .bool (some (ofBool (holds a b))) := by
    have hOrder := compareBy_eq hOp a b
    cases op with
    | less | lessEqual | greater | greaterEqual | equal | notEqual =>
        simp only [binaryOp, arithmeticType?, number?, Option.map_some, hOrder] at hResult
        exact (Except.ok.inj hResult).symm
    | mul | div | mod | add | sub | bitAnd | bitXor | bitOr | shiftLeft | shiftRight | threeWay
        | and | or =>
        cases hOp
  subst hCompared
  constructor
  · intro hAgrees hDeparts
    obtain ⟨-, hValue⟩ := hAgrees.of_fold h
    cases hDeparts with
    | comparison hOp' hLeftType' hRightType' hMeet ha hb ha' hb' hDiffer =>
        cases hOp.symm.trans hOp'
        cases hLeftValue.unique ha
        cases hRightValue.unique hb
        exact hDiffer
          (ofBool_inj (hValue.unique (.comparison hOp hLeftType' hRightType' hMeet ha hb ha' hb')))
    | remainder => cases hOp
  · intro hDeparts
    obtain ⟨a', ha'⟩ := (t.common u).denoted.exists_converts a
    obtain ⟨b', hb'⟩ := (t.common u).denoted.exists_converts b
    have hMeet := t.meets_common u
    have hSame : holds a b = holds a' b' := by
      by_contra hDiffer
      exact hDeparts (.comparison hOp hLeftType hRightType hMeet hLeftValue hRightValue ha' hb'
        hDiffer)
    refine agrees_of_fold h hHigh (.comparison hOp hLeftType hRightType) ?_
    rw [hSame]
    exact .comparison hOp hLeftType hRightType hMeet hLeftValue hRightValue ha' hb'

/-- A shift that is folded stays within the bits of the promoted type. -/
theorem shift_eq_ok (h : shift op t a b = .ok n) : 0 ≤ b ∧ b < t.bits ∧
    if op = .shiftLeft then 0 ≤ a ∧ inType t (a * 2 ^ b.toNat) = .ok n
    else inType t (a / 2 ^ b.toNat) = .ok n := by
  unfold shift at h
  split at h
  · cases h
  · rename_i hCount
    rw [not_or, not_lt, not_le] at hCount
    refine ⟨hCount.1, hCount.2, ?_⟩
    split at h
    · rename_i hLeft
      rw [if_pos hLeft]
      split at h
      · cases h
      · dsimp only at h
        split at h
        · cases h
        · rw [Int.shiftLeft_eq] at h
          exact ⟨not_lt.mp ‹_›, h⟩
    · rename_i hRight
      rw [if_neg hRight]
      rwa [Int.shiftRight_eq_div_pow, Nat.cast_pow] at h

theorem Agrees.shift (hOp : op ∈ [.shiftLeft, .shiftRight]) (hLeft : Agrees resolve left)
    (hRight : Agrees resolve right) (h : fold resolve (.binary r op left right) = .ok f) :
    Agrees resolve (.binary r op left right) := by
  obtain ⟨t, a, hLeftType, hLeftValue, u, b, hRightType, hRightValue, c, fs, hResult, h, hHigh⟩ :=
    fold_binary hLeft hRight h
  have hShift : (Constant.shift op t.promote a b).map (fun n => .integral t.promote (some n))
      = .ok c := by
    simp only [List.mem_cons, List.not_mem_nil, or_false] at hOp
    rcases hOp with rfl | rfl <;> exact hResult
  obtain ⟨n, hn, rfl⟩ := Except.map_eq_ok_iff.mp hShift
  obtain ⟨hNonneg, hCount, hn⟩ := shift_eq_ok hn
  have hType : HasType (meanings resolve) (.binary r op left right) t.promote.denoted := by
    rw [← t.promoted_denoted]
    exact .shift hOp hLeftType hRightType
  have hBits : 0 ≤ b ∧ b < t.denoted.promoted.bits := by
    rw [t.promoted_denoted, IntegerType.bits_denoted]
    exact ⟨hNonneg, hCount⟩
  refine agrees_of_fold h hHigh hType ?_
  simp only [List.mem_cons, List.not_mem_nil, or_false] at hOp
  rcases hOp with rfl | rfl
  · rw [if_pos rfl] at hn
    refine .shiftLeft hLeftType hLeftValue hRightValue hBits (fun _ => hn.1) ?_
    rw [t.promoted_denoted, IntegerType.computes_denoted]
    exact (inType_eq_ok_iff t.promote_ne_bool).mp hn.2
  · rw [if_neg (by decide)] at hn
    have hComputes := (inType_eq_ok_iff t.promote_ne_bool).mp hn
    have hHolds := holds_shiftRight (hLeftValue.holds (inRange_meanings resolve) hLeftType).promoted
      b.toNat
    rw [t.promoted_denoted, IntegerType.holds_denoted] at hHolds
    rw [hComputes.unique hHolds.computes]
    exact .shiftRight hLeftType hLeftValue hRightValue hBits

theorem Agrees.logical (hOp : op ∈ [.and, .or]) (hLeft : Agrees resolve left)
    (hRight : Agrees resolve right) (h : fold resolve (.binary r op left right) = .ok f) :
    Agrees resolve (.binary r op left right) := by
  obtain ⟨t, a, hLeftType, hLeftValue, u, b, hRightType, hRightValue, c, fs, hResult, h, hHigh⟩ :=
    fold_binary hLeft hRight h
  have hType : HasType (meanings resolve) (.binary r op left right) IntegerType.bool.denoted :=
    .logical hOp hLeftType hRightType
  simp only [List.mem_cons, List.not_mem_nil, or_false] at hOp
  rcases hOp with rfl | rfl
  · cases hResult
    refine agrees_of_fold h hHigh hType ?_
    by_cases hTest : a = 0
    · subst hTest
      exact .andFalse hLeftValue
    · have hTrue : (Number.int a).truth = true := bne_iff_ne.mpr hTest
      rw [hTrue, Bool.true_and]
      exact .andTrue hLeftValue hTest hRightValue
  · cases hResult
    refine agrees_of_fold h hHigh hType ?_
    by_cases hTest : a = 0
    · subst hTest
      exact .orFalse hLeftValue hRightValue
    · have hTrue : (Number.int a).truth = true := bne_iff_ne.mpr hTest
      rw [hTrue, Bool.true_or]
      exact .orTrue hLeftValue hTest

/-- A binary node agrees exactly if it is no departure, once its operands agree. -/
theorem agrees_binary_iff (hLeft : Agrees resolve left) (hRight : Agrees resolve right)
    (h : fold resolve (.binary r op left right) = .ok f) :
    Agrees resolve (.binary r op left right)
      ↔ ¬ Departs (meanings resolve) (.binary r op left right) := by
  cases op with
  | mul | div | mod | add | sub | bitAnd | bitXor | bitOr =>
      exact agrees_arithmetic_iff (by decide) hLeft hRight h
  | less | lessEqual | greater | greaterEqual | equal | notEqual =>
      exact agrees_comparison_iff rfl hLeft hRight h
  | threeWay =>
      obtain ⟨_, _, _, _, _, _, _, _, _, _, hResult, -⟩ := fold_binary hLeft hRight h
      cases hResult
  | shiftLeft | shiftRight =>
      refine iff_of_true (.shift (by decide) hLeft hRight h) fun hDeparts => ?_
      cases hDeparts with
      | comparison hOp => cases hOp
  | and | or =>
      refine iff_of_true (.logical (by decide) hLeft hRight h) fun hDeparts => ?_
      cases hDeparts with
      | comparison hOp => cases hOp

/-- What is said of all nodes is said of the expression and of the nodes of its operands. -/
theorem forall_mem_nodes_iff {P : Expr → Prop} (e : Expr) :
    (∀ x ∈ e.nodes, P x) ↔ P e ∧ ∀ y ∈ e.children, ∀ x ∈ y.nodes, P x := by
  rw [Expr.nodes_eq, List.forall_mem_cons]
  simp only [Expr.nodesAll, List.mem_flatMap, forall_exists_index, and_imp]
  exact and_congr_right' ⟨fun h y hy x hx => h x y hy hx, fun h x y hy hx => h y hy x hx⟩

/-- The nodes of an expression are settled by those of its operands and by itself, once its operands
agree. -/
theorem agrees_iff_of_children (hChildren : ∀ y ∈ e.children, (∀ x ∈ y.nodes, Agrees resolve x)
      ↔ ∀ x ∈ y.nodes, ¬ Departs (meanings resolve) x)
    (hNode : (∀ y ∈ e.children, Agrees resolve y) →
      (Agrees resolve e ↔ ¬ Departs (meanings resolve) e)) :
    (∀ x ∈ e.nodes, Agrees resolve x) ↔ ∀ x ∈ e.nodes, ¬ Departs (meanings resolve) x := by
  rw [forall_mem_nodes_iff, forall_mem_nodes_iff, forall₂_congr hChildren]
  apply and_congr_left
  intro hNone
  apply hNode
  intro y hy
  exact (hChildren y hy).mpr (hNone y hy) y (Expr.mem_nodes_self y)

/-- An expression that is folded with full confidence agrees with the language at all of its nodes
exactly if none of them departs from it. -/
theorem agrees_iff_not_departs (hIntegral : IsIntegral resolve e) (hFold : fold resolve e = .ok f)
    (hHigh : f.confidence = .high) :
    (∀ x ∈ e.nodes, Agrees resolve x) ↔ ∀ x ∈ e.nodes, ¬ Departs (meanings resolve) x := by
  -- The operands are folded with full confidence too, so that the induction goes through them.
  induction hIntegral generalizing f with
  | integer hKind hLiteral =>
      refine agrees_iff_of_children (by simp [Expr.children]) fun _ => ?_
      refine iff_of_true (agrees_integer hKind hLiteral hFold hHigh) fun hDeparts => ?_
      cases hDeparts with
      | character hKind' => simp [hKind] at hKind'
  | character hKind hLiteral =>
      exact agrees_iff_of_children (by simp [Expr.children]) fun _ =>
        agrees_character_iff hKind hLiteral
  | truth hText =>
      refine agrees_iff_of_children (by simp [Expr.children]) fun _ => ?_
      exact iff_of_true (agrees_truth hText) (by rintro ⟨⟩)
  | @name text r hName =>
      refine agrees_iff_of_children (by simp [Expr.children]) fun _ => ?_
      refine iff_of_true ?_ (by rintro ⟨⟩)
      by_cases hText : text ∈ ["true", "false"]
      · exact agrees_truth hText
      · exact agrees_name hText hName hFold hHigh
  | paren h ih =>
      refine agrees_iff_of_children ?_ fun hOperands => ?_
      · simpa [Expr.children] using ih hFold hHigh
      · exact iff_of_true (.paren (hOperands _ (by simp [Expr.children]))) (by rintro ⟨⟩)
  | unary h ih =>
      obtain ⟨g, c, hOperand, -, rfl⟩ := fold_unary_eq_ok hFold
      rw [ofOperands_eq_high_iff] at hHigh
      refine agrees_iff_of_children ?_ fun hOperands => ?_
      · simpa [Expr.children] using ih hOperand (hHigh g (by simp))
      · exact iff_of_true (.unary (hOperands _ (by simp [Expr.children])) hFold) (by rintro ⟨⟩)
  | cast hType h ih =>
      obtain ⟨g, c, hOperand, -, rfl⟩ := fold_cast_eq_ok hType hFold
      rw [ofOperands_eq_high_iff] at hHigh
      refine agrees_iff_of_children ?_ fun hOperands => ?_
      · simpa [Expr.children] using ih hOperand (hHigh g (by simp))
      · exact iff_of_true (.cast (hOperands _ (by simp [Expr.children])) hType hFold) (by rintro ⟨⟩)
  | binary hLeft hRight ihLeft ihRight =>
      obtain ⟨g, g', c, hOperand, hOperand', -, rfl⟩ := fold_binary_eq_ok hFold
      rw [ofOperands_eq_high_iff] at hHigh
      refine agrees_iff_of_children ?_ fun hOperands => ?_
      · simpa [Expr.children] using ⟨ihLeft hOperand (hHigh g (by simp)),
          ihRight hOperand' (hHigh g' (by simp))⟩
      · exact agrees_binary_iff (hOperands _ (by simp [Expr.children]))
          (hOperands _ (by simp [Expr.children])) hFold
  | conditional hCondition hTrue hFalse ihCondition ihTrue ihFalse =>
      obtain ⟨k, g, g', c, hOperand, hOperand', hOperand'', -, rfl⟩ := fold_conditional_eq_ok hFold
      rw [ofOperands_eq_high_iff] at hHigh
      refine agrees_iff_of_children ?_ fun hOperands => ?_
      · simpa [Expr.children] using ⟨ihCondition hOperand (hHigh k (by simp)),
          ihTrue hOperand' (hHigh g (by simp)), ihFalse hOperand'' (hHigh g' (by simp))⟩
      · exact agrees_conditional_iff (hOperands _ (by simp [Expr.children]))
          (hOperands _ (by simp [Expr.children])) (hOperands _ (by simp [Expr.children])) hFold

open scoped Literal

/-- A decimal number of one digit. -/
private def digit (first : Char) (suffix : Literal.Suffix)
    (hDigit : ∀ c ∈ [first], c ∈ Literal.Radix.decimal.digits) (hStarts : first ≠ '0') :
    Literal.IntegerLiteral :=
  ⟨.decimal, first, [], suffix, hDigit, hStarts⟩

private theorem isWritten_digit {first : Char} {suffix : Literal.Suffix} {letters : List Char}
    {hDigit : ∀ c ∈ [first], c ∈ Literal.Radix.decimal.digits} {hStarts : first ≠ '0'}
    (hLetters : (letters, suffix) ∈ Literal.suffixes) :
    (digit first suffix hDigit hStarts).IsWritten (([] ++ [first] ++ letters).map .char) :=
  .intro (List.mem_singleton_self []) .last hLetters

private theorem isWritten_one : (digit '1' ⟨false, .plain⟩ (by decide) (by decide)).IsWritten "1" :=
  isWritten_digit (by decide)

private theorem isWritten_oneUnsigned :
    (digit '1' ⟨true, .plain⟩ (by decide) (by decide)).IsWritten "1u" :=
  isWritten_digit (show (['u'], _) ∈ _ by decide)

/-- Whether the expression is the product of the name `N` and the number `1u`. -/
private def isProduct : Expr → Bool
  | .binary _ .mul (.name _ text) (.literal _ [token]) =>
    text == "N" && token.kind == .number && token.lexeme == "1u"
  | _ => false

/-- The product of a name and a number of another type. -/
theorem agrees_product :
    let resolve : Option Resolver := some fun _ => .ok ⟨.integral .int (some 3), .high, []⟩
    ∃ tokens, Token.ofText "f.cpp" "N * 1u" = .ok tokens ∧ ∃ e, Expr.parse tokens = .ok e
      ∧ IsIntegral resolve e ∧ ∃ f, fold resolve e = .ok f ∧ f.confidence = .high
      ∧ ∀ x ∈ e.nodes, Agrees resolve x := by
  intro resolve
  refine Except.exists_of_passes (fun tokens => (Expr.parse tokens).passes fun e =>
    isProduct e && (fold resolve e).passes fun f => f.confidence == .high) (by decide +kernel) ?_
  intro tokens _ hTokens
  refine Except.exists_of_passes _ hTokens fun e _ hTest => ?_
  rw [Bool.and_eq_true] at hTest
  obtain ⟨hProduct, hTest⟩ := hTest
  unfold isProduct at hProduct
  split at hProduct
  · rename_i r r' text r'' token _
    simp only [Bool.and_eq_true, beq_iff_eq] at hProduct
    obtain ⟨⟨rfl, hKind⟩, hLexeme⟩ := hProduct
    have hName : IsIntegralName resolve "N" := by
      rintro g hg f h
      obtain rfl := Option.some.inj hg
      cases h
      exact ⟨_, _, rfl, by decide⟩
    have hIntegral : IsIntegral resolve (.binary r .mul (.name r' "N") (.literal r'' [token])) :=
      .binary (.name hName) (.integer hKind (hLexeme ▸ isWritten_oneUnsigned))
    refine ⟨hIntegral, Except.exists_of_passes _ hTest fun f hFold hHigh => ?_⟩
    refine ⟨beq_iff_eq.mp hHigh, ?_⟩
    rw [agrees_iff_not_departs hIntegral hFold (beq_iff_eq.mp hHigh)]
    intro x hx hDeparts
    simp only [Expr.nodes_eq, Expr.children, Expr.nodesAll_cons, Expr.nodesAll_nil, List.append_nil,
      List.mem_cons, List.not_mem_nil, or_false, List.cons_append, List.nil_append] at hx
    rcases hx with rfl | rfl | rfl
    · cases hDeparts with
      | comparison hOp => cases hOp
    · cases hDeparts
    · cases hDeparts with
      | character hKind' => simp [hKind] at hKind'
  · cases hProduct

/-- Whether the expression compares `-1` with `1u`. -/
private def isMixed : Expr → Bool
  | .binary _ .less (.unary _ .minus (.literal _ [a])) (.literal _ [b]) =>
    a.kind == .number && a.lexeme == "1" && b.kind == .number && b.lexeme == "1u"
  | _ => false

/-- Whether the constant is the truth value `true`. -/
private def isYes : Constant → Bool
  | .integral .bool (some n) => n == 1
  | _ => false

/-- A negative number becomes a great one where it is compared with an unsigned number. Folding
takes it for the lesser one. -/
theorem not_agrees_mixed :
    ∃ tokens, Token.ofText "f.cpp" "-1 < 1u" = .ok tokens ∧ ∃ e, Expr.parse tokens = .ok e
      ∧ IsIntegral none e ∧ (∃ f, fold none e = .ok f ∧ f.confidence = .high
      ∧ f.constant = .integral .bool (some 1)) ∧ HasValue (meanings none) e 0
      ∧ ¬ HasValue (meanings none) e 1 := by
  refine Except.exists_of_passes (fun tokens => (Expr.parse tokens).passes fun e => isMixed e
    && (fold none e).passes fun f => f.confidence == .high && isYes f.constant) (by
      decide +kernel) ?_
  intro tokens _ hTokens
  refine Except.exists_of_passes _ hTokens fun e _ hTest => ?_
  rw [Bool.and_eq_true] at hTest
  obtain ⟨hMixed, hTest⟩ := hTest
  unfold isMixed at hMixed
  split at hMixed
  · rename_i r r₁ r₂ a r₃ b _
    simp only [Bool.and_eq_true, beq_iff_eq] at hMixed
    obtain ⟨⟨⟨ha, hOne⟩, hb⟩, hUnsigned⟩ := hMixed
    have hOne : (digit '1' ⟨false, .plain⟩ (by decide) (by decide)).IsWritten a.lexeme :=
      hOne ▸ isWritten_one
    have hUnsigned : (digit '1' ⟨true, .plain⟩ (by decide) (by decide)).IsWritten b.lexeme :=
      hUnsigned ▸ isWritten_oneUnsigned
    have hInner : HasType (meanings none) (.literal r₂ [a]) .int :=
      .integer ha hOne (by decide)
    have hLeft : HasType (meanings none) (.unary r₁ .minus (.literal r₂ [a])) .int :=
      .unary (by decide) hInner
    have hLeftValue : HasValue (meanings none) (.unary r₁ .minus (.literal r₂ [a])) (-1) :=
      .minus hInner (.integer ha hOne) ⟨by decide, by decide⟩
    have hRight : HasType (meanings none) (.literal r₃ [b]) .unsignedInt :=
      .integer hb hUnsigned (by decide)
    have hRightValue : HasValue (meanings none) (.literal r₃ [b]) 1 :=
      .integer hb hUnsigned
    have hMeet : IntegerType.int.Meets .unsignedInt .unsignedInt :=
      .inr (.unsigned rfl rfl (by decide))
    have hGreat : IntegerType.unsignedInt.Converts (-1) 4294967295 :=
      ⟨by decide, by decide⟩
    have hSmall : IntegerType.unsignedInt.Converts 1 1 :=
      ⟨by decide, by decide⟩
    have hLess : comparison? .less = some fun a b => decide (a < b) := rfl
    have hValue : HasValue (meanings none)
        (.binary r .less (.unary r₁ .minus (.literal r₂ [a])) (.literal r₃ [b]))
        (ofBool (decide ((4294967295 : Int) < 1))) :=
      .comparison hLess hLeft hRight hMeet hLeftValue hRightValue hGreat hSmall
    refine ⟨.binary (.unary (.integer ha hOne)) (.integer hb hUnsigned), ?_, hValue,
      fun hOther => ?_⟩
    · refine Except.exists_of_passes _ hTest fun f _ hFolded => ?_
      rw [Bool.and_eq_true, beq_iff_eq] at hFolded
      refine ⟨hFolded.1, ?_⟩
      have hYes := hFolded.2
      unfold isYes at hYes
      split at hYes
      · rw [‹f.constant = _›, beq_iff_eq.mp hYes]
      · cases hYes
    · exact absurd (hValue.unique hOther) (by decide)
  · cases hMixed

end

end Demacro.Constant
