import Demacro.MacroTable
import Demacro.Proofs.Constant.Agreement
import Demacro.Proofs.Classification.Dependencies

/-!
The kinds of constants. What kind of constant an expression comes to can be told from its literals,
its operators and the macros that it names, without computing a value: floating operands make
floating results, except under comparisons, logical operators and casts.
-/

namespace Demacro

namespace Constant

/-- The kinds of constants. -/
inductive Kind where
  | integral
  | floating
  | string
  | pointer
deriving DecidableEq

namespace Kind

/-- The kind of values of an arithmetic type. -/
def ofType : ArithmeticType → Kind
  | .integer _ => integral
  | .floating _ => floating

/-- The kind in which two operands meet. -/
def meet (k l : Kind) : Kind :=
  if k = floating ∨ l = floating then floating else integral

/-- The kind of a literal, by its first token. -/
def ofLiteral : List Token → Kind
  | [] => string
  | t :: _ =>
    match t.kind with
    | .number => if Literal.isFloating t.lexeme then floating else integral
    | .char => integral
    | _ => string

/-- The kind of a name with a fixed meaning: a truth value or the null pointer. -/
def ofFixed (name : String) : Kind :=
  if name = "true" ∨ name = "false" then integral else pointer

/-- The kind of what an operator makes of its operand. -/
def ofUnary (op : UnaryOp) (k : Kind) : Kind :=
  if op = .not then integral else k

/-- The kind of what an operator makes of its operands. -/
def ofBinary (op : BinaryOp) (k l : Kind) : Kind :=
  if op ∈ [.add, .sub, .mul, .div] then k.meet l else integral

end Kind

/-- The kind of a constant. -/
def kind : Constant → Kind
  | integral .. => .integral
  | floating .. => .floating
  | string _ => .string
  | pointer => .pointer

section

variable {α : Type} {c : Constant} {k : Kind} {f : Folded} {t u : ArithmeticType} {lexeme : Text}
  {tokens : List Token}

theorem kind_of_arithmeticType? (h : c.arithmeticType? = some t) : c.kind = .ofType t := by
  cases c with
  | integral | floating =>
      cases h
      rfl
  | string | pointer => cases h

theorem ofType_common : Kind.ofType (t.common u) = (Kind.ofType t).meet (.ofType u) := by
  cases t <;> cases u <;> rfl

theorem kind_of_integer (h : Literal.integer lexeme = .ok f) : f.constant.kind = .integral := by
  unfold Literal.integer at h
  repeat' first
    | split at h
    | dsimp only at h
  all_goals cases h
  all_goals rfl

theorem kind_of_floating (h : Literal.floating lexeme = .ok f) : f.constant.kind = .floating := by
  unfold Literal.floating at h
  repeat' first
    | split at h
    | dsimp only at h
  all_goals cases h
  all_goals rfl

theorem kind_of_character (h : Literal.character lexeme = .ok f) : f.constant.kind = .integral := by
  unfold Literal.character at h
  dsimp only at h
  repeat' split at h
  · cases h
  · cases h
  · cases h
  all_goals
    obtain ⟨n, -, hFolded⟩ := Except.map_eq_ok_iff.mp h
    rw [← hFolded]
    rfl

theorem kind_of_string (h : Literal.string tokens = .ok f) : f.constant.kind = .string := by
  obtain ⟨words, -, h⟩ := Except.bind_eq_ok_iff.mp h
  repeat' split at h
  all_goals cases h
  all_goals rfl

theorem kind_of_literal (h : ofLiteral tokens = .ok f) : f.constant.kind = .ofLiteral tokens := by
  cases tokens with
  | nil => exact kind_of_string h
  | cons first rest =>
      unfold ofLiteral at h
      unfold Kind.ofLiteral
      cases hKind : first.kind with
      | number =>
          simp only [hKind, Literal.number] at h ⊢
          by_cases hFloating : Literal.isFloating first.lexeme = true
          · rw [if_pos hFloating] at h ⊢
            exact kind_of_floating h
          · rw [if_neg hFloating] at h ⊢
            exact kind_of_integer h
      | char =>
          simp only [hKind] at h ⊢
          exact kind_of_character h
      | _ =>
          simp only [hKind] at h ⊢
          exact kind_of_string h

theorem kind_of_fixed {resolve : Option Resolver} {name : String} (hFixed : name ∈ fixedNames)
    (h : ofName resolve name = .ok f) : f.constant.kind = .ofFixed name := by
  simp only [fixedNames, List.mem_cons, List.not_mem_nil, or_false] at hFixed
  unfold ofName at h
  unfold Kind.ofFixed
  split at h
  · rename_i hTruth
    cases h
    rw [if_pos hTruth]
    rfl
  · rename_i hTruth
    rw [if_pos (by tauto)] at h
    cases h
    rw [if_neg hTruth]
    rfl

/-- Whatever a computation gives is of one kind. -/
def Gives (k : Kind) (x : Except FoldError Constant) : Prop :=
  ∀ c, x = .ok c → c.kind = k

theorem gives_ok (h : c.kind = k) : Gives k (.ok c) := by
  rintro _ ⟨⟩
  exact h

theorem gives_error (e : FoldError) : Gives k (.error e) :=
  nofun

theorem gives_map {x : Except FoldError α} {g : α → Constant} (h : ∀ x, (g x).kind = k) :
    Gives k (x.map g) := by
  intro c hc
  obtain ⟨y, -, rfl⟩ := Except.map_eq_ok_iff.mp hc
  exact h y

theorem gives_bind {x : Except FoldError α} {g : α → Except FoldError Constant}
    (h : ∀ x, Gives k (g x)) : Gives k (x >>= g) := by
  intro c hc
  obtain ⟨y, -, hc⟩ := Except.bind_eq_ok_iff.mp hc
  exact h y c hc

theorem gives_unaryOp (op : UnaryOp) (c : Constant) :
    Gives (.ofUnary op c.kind) (unaryOp op c) := by
  unfold unaryOp
  cases c with
  | integral t v =>
      cases op with
      | not => exact gives_ok rfl
      | plus | minus | complement => exact gives_map fun _ => rfl
      | dereference | addressOf | step => exact gives_error _
  | floating t v =>
      cases op with
      | not | plus | minus => exact gives_ok rfl
      | complement | dereference | addressOf | step => exact gives_error _
  | string | pointer => exact gives_error _

theorem gives_castTo (t : ArithmeticType) (v : Option Number) : Gives (.ofType t) (castTo t v) := by
  unfold castTo
  split
  · exact gives_ok rfl
  · exact gives_ok rfl
  · exact gives_map fun _ => rfl
  · split
    · exact gives_ok rfl
    · exact gives_map fun _ => rfl

theorem gives_arithmeticOp (op : BinaryOp) (t u : ArithmeticType) (a b : Option Number) :
    Gives (.ofType (t.common u)) (arithmeticOp op t u a b) := by
  unfold arithmeticOp
  split
  · rename_i s hCommon
    rw [hCommon]
    split
    · exact gives_error _
    split
    · exact gives_error _
    split
    · exact gives_bind fun _ => gives_bind fun _ => gives_ok rfl
    · exact gives_ok rfl
  · rename_i s hCommon
    rw [hCommon]
    split
    · exact gives_error _
    split
    · exact gives_bind fun _ => gives_bind fun _ => gives_bind fun _ => gives_bind fun _ =>
        gives_ok rfl
    · exact gives_ok rfl

theorem gives_binaryOp (op : BinaryOp) (a b : Constant) :
    Gives (.ofBinary op a.kind b.kind) (binaryOp op a b) := by
  unfold binaryOp
  split
  · exact gives_error _
  · exact gives_error _
  rename_i t u hLeft hRight
  rw [kind_of_arithmeticType? hLeft, kind_of_arithmeticType? hRight]
  have hArithmetic := gives_arithmeticOp op t u a.number? b.number?
  cases op with
  | and | or | less | lessEqual | greater | greaterEqual | equal | notEqual =>
      dsimp only
      split <;> exact gives_ok rfl
  | threeWay => exact gives_error _
  | shiftLeft | shiftRight =>
      dsimp only
      split
      · split
        · exact gives_map fun _ => rfl
        · exact gives_ok rfl
      · exact gives_error _
  | add | sub | mul | div =>
      rw [ofType_common] at hArithmetic
      exact hArithmetic
  | mod | bitAnd | bitOr | bitXor =>
      -- These are refused for floating operands.
      cases hCommon : t.common u with
      | integer s =>
          rw [hCommon] at hArithmetic
          exact hArithmetic
      | floating s =>
          dsimp only
          unfold arithmeticOp
          rw [hCommon]
          exact gives_error _

theorem gives_choose (c a b : Constant) : Gives (a.kind.meet b.kind) (choose c a b) := by
  unfold choose
  split
  · rename_i t u hCondition hTrue hFalse
    rw [kind_of_arithmeticType? hTrue, kind_of_arithmeticType? hFalse, ← ofType_common]
    dsimp only
    split
    · rename_i s hCommon
      rw [hCommon]
      split
      · exact gives_map fun _ => rfl
      · exact gives_ok rfl
    · rename_i s hCommon
      rw [hCommon]
      split
      · exact gives_bind fun _ => gives_bind fun _ => gives_ok rfl
      · exact gives_ok rfl
  · exact gives_error _

end

end Constant

/-- The kind of constant that an expression comes to. A name that is no literal comes to what the
first live definition of a macro without arguments replaces it by. -/
inductive HasKind (table : MacroTable) : Expr → Constant.Kind → Prop where
  | literal : HasKind table (.literal r tokens) (.ofLiteral tokens)
  | fixed (hText : text ∈ Constant.fixedNames) : HasKind table (.name r text) (.ofFixed text)
  | named (hText : text ∉ Constant.fixedNames)
      (hFirst : (table.definitions text).find? (·.reachability != .disabled) = some d)
      (hShape : d.definition.shape.isFunction = false)
      (hBody : Expr.parse d.definition.replacement = .ok body)
      (h : HasKind table body k) : HasKind table (.name r text) k
  | paren (h : HasKind table e k) : HasKind table (.paren r e) k
  | measure : HasKind table (.measure r keyword operand) .integral
  | unary (h : HasKind table e k) : HasKind table (.unary r op e) (.ofUnary op k)
  | cast (hType : ArithmeticType.ofWords
      (Unicode.runs (SourceChar.satisfies Unicode.isBlank) type) = .ok t)
      (h : HasKind table e k) : HasKind table (.cast r type e) (.ofType t)
  | binary (hLeft : HasKind table left k) (hRight : HasKind table right l) :
      HasKind table (.binary r op left right) (.ofBinary op k l)
  | conditional (hTrue : HasKind table whenTrue k) (hFalse : HasKind table whenFalse l) :
      HasKind table (.conditional r condition whenTrue whenFalse) (k.meet l)

/-- The expression is a literal for an integer. -/
def Expr.isIntegralLiteral : Expr → Bool
  | literal _ tokens => Constant.Kind.ofLiteral tokens == .integral
  | _ => false

/-- The first live definition of the name replaces it by a constant of the kind. -/
def MacroTable.StandsFor (table : MacroTable) (name : String) (k : Constant.Kind) : Prop :=
  ∃ d body, (table.definitions name).find? (·.reachability != .disabled) = some d
    ∧ d.definition.shape.isFunction = false ∧ Expr.parse d.definition.replacement = .ok body
    ∧ HasKind table body k

namespace HasKind

variable {table : MacroTable} {e : Expr} {k l : Constant.Kind}

theorem of_isIntegralLiteral (h : e.isIntegralLiteral = true) : HasKind table e .integral := by
  cases e with
  | literal r tokens =>
      rw [← beq_iff_eq.mp h]
      exact .literal
  | _ => cases h

/-- An expression comes to one kind of constant. -/
theorem unique (h : HasKind table e k) (h' : HasKind table e l) : k = l := by
  induction h generalizing l with
  | literal =>
      cases h'
      rfl
  | fixed hText =>
      cases h' with
      | fixed => rfl
      | named hOther => exact absurd hText hOther
  | named hText hFirst hShape hBody h ih =>
      cases h' with
      | fixed hOther => exact absurd hOther hText
      | named _ hFirst' _ hBody' h' =>
          cases hFirst.symm.trans hFirst'
          cases hBody.symm.trans hBody'
          exact ih h'
  | paren h ih =>
      cases h' with
      | paren h' => exact ih h'
  | measure =>
      cases h'
      rfl
  | unary h ih =>
      cases h' with
      | unary h' => rw [ih h']
  | cast hType h ih =>
      cases h' with
      | cast hType' h' =>
          cases hType.symm.trans hType'
          rfl
  | binary hLeft hRight ihLeft ihRight =>
      cases h' with
      | binary hLeft' hRight' => rw [ihLeft hLeft', ihRight hRight']
  | conditional hTrue hFalse ihTrue ihFalse =>
      cases h' with
      | conditional hTrue' hFalse' => rw [ihTrue hTrue', ihFalse hFalse']

/-- A constant that an expression is folded to is of its kind, if those that names are resolved to
are. -/
theorem of_fold {resolve : Resolver} {f : Folded}
    (hNames : ∀ name f, resolve name = .ok f → table.StandsFor name f.constant.kind)
    (h : Constant.fold (some resolve) e = .ok f) : HasKind table e f.constant.kind := by
  fun_induction Constant.fold (some resolve) e generalizing f with
  | case1 range tokens =>
      rw [Constant.kind_of_literal h]
      exact .literal
  | case2 range text =>
      by_cases hFixed : text ∈ Constant.fixedNames
      · rw [Constant.kind_of_fixed hFixed h]
        exact .fixed hFixed
      · obtain ⟨d, body, hFirst, hShape, hBody, hKind⟩ :=
          hNames text f (Constant.exists_meaning_of_ofName h hFixed)
        exact .named hFixed hFirst hShape hBody hKind
  | case3 range e ih => exact .paren (ih h)
  | case4 =>
      cases h
      exact .measure
  | case5 | case6 | case7 => cases h
  | case8 range op e hStep hDereference hAddress ih =>
      obtain ⟨g, hOperand, h⟩ := Except.bind_eq_ok_iff.mp h
      obtain ⟨c, hResult, rfl⟩ := Constant.ofOperands_eq_ok (Constant.needArithmetic_bind_eq_ok h)
      rw [Constant.ofOperands_constant, Constant.gives_unaryOp op _ c hResult]
      exact .unary (ih hOperand)
  | case9 range type e words =>
      rename_i ih
      obtain ⟨t, hType, h⟩ := Except.bind_eq_ok_iff.mp h
      obtain ⟨g, hOperand, h⟩ := Except.bind_eq_ok_iff.mp h
      obtain ⟨c, hResult, rfl⟩ := Constant.ofOperands_eq_ok (Constant.needArithmetic_bind_eq_ok h)
      rw [Constant.ofOperands_constant, Constant.gives_castTo t _ c hResult]
      exact .cast (Except.mapError_eq_ok_iff.mp hType) (ih hOperand)
  | case10 range op left right ihLeft ihRight =>
      obtain ⟨g, g', c, hLeft, hRight, hResult, rfl⟩ := Constant.fold_binary_eq_ok (r := range) h
      rw [Constant.ofOperands_constant, Constant.gives_binaryOp op _ _ c hResult]
      exact .binary (ihLeft hLeft) (ihRight hRight)
  | case11 range condition whenTrue whenFalse ihCondition ihTrue ihFalse =>
      obtain ⟨k, g, g', c, -, hTrue, hFalse, hResult, rfl⟩ :=
        Constant.fold_conditional_eq_ok (r := range) h
      rw [Constant.ofOperands_constant, Constant.gives_choose _ _ _ c hResult]
      exact .conditional (ihTrue hTrue) (ihFalse hFalse)
  | _ => cases h

end HasKind

end Demacro
