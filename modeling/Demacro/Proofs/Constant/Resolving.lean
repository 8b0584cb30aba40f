import Demacro.Constant.Folding
import Demacro.Proofs.Success
import Demacro.Proofs.Expr.Nodes

/-!
Names in the folding of an expression. Literals and operators never ask for a name, so a question
for a name is one that the expression itself contains, and an answer that is a fault takes the place
of the question in the result.
-/

namespace Demacro

namespace Constant

/-- The computation does not end with the question for the value of the name. -/
def Independent {α : Type} (name : String) (x : Except FoldError α) : Prop :=
  x ≠ .error (.needs name)

variable {α β : Type} {name : String}

theorem independent_ok (a : α) : Independent name (.ok a) := by
  rintro ⟨⟩

theorem Independent.bind {x : Except FoldError α} {f : α → Except FoldError β}
    (h : Independent name x) (hf : ∀ a, Independent name (f a)) : Independent name (x >>= f) := by
  intro hNeeds
  rcases Except.bind_eq_error_iff.mp hNeeds with hx | ⟨a, -, ha⟩
  · exact h hx
  · exact hf a ha

theorem Independent.map {x : Except FoldError α} {f : α → β} (h : Independent name x) :
    Independent name (x.map f) :=
  h.bind fun a => independent_ok (f a)

theorem independent_mapM {f : α → Except FoldError β} {xs : List α}
    (h : ∀ x ∈ xs, Independent name (f x)) : Independent name (xs.mapM f) := by
  intro hNeeds
  obtain ⟨x, hx, hFault⟩ := Except.exists_of_mapM_eq_error hNeeds
  exact h x hx hFault

theorem independent_literal (tokens : List Token) : Independent name (ofLiteral tokens) := by
  have hNumber : ∀ lexeme, Independent name (Literal.number lexeme) := by
    intro lexeme
    unfold Independent Literal.number Literal.floating Literal.integer
    grind
  have hCharacter : ∀ lexeme, Independent name (Literal.character lexeme) := by
    intro lexeme
    unfold Independent Literal.character
    grind [Except.map]
  have hEncoding : ∀ lexeme, Independent name (Literal.stringEncoding lexeme) := by
    intro lexeme
    unfold Independent Literal.stringEncoding
    grind
  have hString : ∀ tokens, Independent name (Literal.string tokens) := by
    intro tokens
    refine (independent_mapM fun t _ => hEncoding t.lexeme).bind fun words => ?_
    split
    · exact independent_ok _
    · split
      · exact independent_ok _
      · rintro ⟨⟩
  unfold ofLiteral
  split
  · split
    · exact hNumber _
    · exact hCharacter _
    · exact hString _
  · exact hString _

theorem independent_inType (t : IntegerType) (n : Int) : Independent name (inType t n) := by
  unfold Independent inType
  grind

theorem independent_toFloat (v : Number) : Independent name v.toFloat := by
  unfold Independent Number.toFloat
  grind

theorem independent_toInt (v : Number) : Independent name v.toInt := by
  unfold Independent Number.toInt
  grind

theorem independent_castTo (t : ArithmeticType) (v : Option Number) :
    Independent name (castTo t v) := by
  unfold castTo
  split
  · exact independent_ok _
  · exact independent_ok _
  · exact (independent_toFloat _).map
  · split
    · exact independent_ok _
    · exact (independent_toInt _).map

theorem independent_inType? (t : IntegerType) (v : Option Int) :
    Independent name (inType? t v) := by
  cases v with
  | none => exact independent_ok none
  | some n => exact (independent_inType t n).map

theorem independent_unaryOp (op : UnaryOp) (c : Constant) : Independent name (unaryOp op c) := by
  cases c with
  | integral t v =>
      cases op with
      | plus | minus | complement => exact (independent_inType? _ _).map
      | not => exact independent_ok _
      | dereference | addressOf | step => rintro ⟨⟩
  | floating t v => cases op <;> rintro ⟨⟩
  | string | pointer => rintro ⟨⟩

theorem independent_choose (a b c : Constant) : Independent name (choose a b c) := by
  unfold choose
  split
  · dsimp only
    split
    · split
      · exact (independent_toFloat _).map
      · exact independent_ok _
    · split
      · refine (independent_toInt _).bind fun n => ?_
        exact (independent_inType _ n).bind fun m => independent_ok _
      · exact independent_ok _
  · rintro ⟨⟩

theorem independent_integerOp (op : BinaryOp) (t : IntegerType) (a b : Int) :
    Independent name (integerOp op t a b) := by
  unfold Independent integerOp
  grind

theorem independent_shift (op : BinaryOp) (t : IntegerType) (a b : Int) :
    Independent name (shift op t a b) := by
  have hType : ∀ n, Independent name (inType t n) := independent_inType t
  unfold shift
  grind [Independent]

theorem independent_arithmeticOp (op : BinaryOp) (t u : ArithmeticType) (a b : Option Number) :
    Independent name (arithmeticOp op t u a b) := by
  unfold arithmeticOp
  split
  · split
    · rintro ⟨⟩
    · split
      · rintro ⟨⟩
      · split
        · refine (independent_toFloat _).bind fun x => ?_
          exact (independent_toFloat _).bind fun y => independent_ok _
        · exact independent_ok _
  · split
    · rintro ⟨⟩
    · split
      · refine (independent_inType _ _).bind fun x => ?_
        refine (independent_inType _ _).bind fun y => ?_
        refine (independent_integerOp op _ x y).bind fun n => ?_
        exact (independent_inType _ n).bind fun m => independent_ok _
      · exact independent_ok _

theorem independent_binaryOp (op : BinaryOp) (left right : Constant) :
    Independent name (binaryOp op left right) := by
  unfold binaryOp
  split
  · rintro ⟨⟩
  · rintro ⟨⟩
  · rename_i t u hLeft hRight
    cases op with
    | and | or | less | lessEqual | greater | greaterEqual | equal | notEqual =>
        dsimp only
        split <;> exact independent_ok _
    | threeWay => rintro ⟨⟩
    | shiftLeft | shiftRight =>
        dsimp only
        split
        · split
          · exact (independent_shift _ _ _ _).map
          · exact independent_ok _
        · rintro ⟨⟩
    | mul | div | mod | add | sub | bitAnd | bitXor | bitOr =>
        exact independent_arithmeticOp _ t u _ _

theorem independent_needArithmetic (op : String) (f : Folded) :
    Independent name (needArithmetic op f) := by
  unfold Independent needArithmetic
  grind

theorem independent_ofWords (words : List Text) :
    Independent name ((ArithmeticType.ofWords words).mapError .castType) := by
  intro h
  cases hType : ArithmeticType.ofWords words with
  | error fault => simp [hType, Except.mapError] at h
  | ok t => simp [hType, Except.mapError] at h

theorem refusal_ne_needs (e : Expr) (name : String) : refusal e ≠ .needs name := by
  unfold refusal
  split <;> simp

theorem Except.mapError_bind {α β : Type} {g : FoldError → FoldError} (x : Except FoldError α)
    (f : α → Except FoldError β) :
    (x >>= f).mapError g = x.mapError g >>= fun a => (f a).mapError g := by
  cases x <;> rfl

/-- What names are answered with shows in an expression only where a name is asked for: changing the
faults of the names by `g` changes that of the expression by `g`. -/
theorem fold_mapError {g : FoldError → FoldError} (hg : ∀ e, (∀ name, e ≠ .needs name) → g e = e)
    (resolve : Resolver) (e : Expr) :
    fold (some fun name => (resolve name).mapError g) e = (fold (some resolve) e).mapError g := by
  have hSelf : ∀ {α : Type} {x : Except FoldError α}, (∀ name, Independent name x) →
      x.mapError g = x := by
    intro α x hx
    cases x with
    | ok a => rfl
    | error e => exact congrArg Except.error (hg e fun name h => hx name (congrArg Except.error h))
  have hRefusal : ∀ e : Expr, (Except.error (refusal e) : Except FoldError Folded).mapError g
      = .error (refusal e) :=
    fun e => hSelf fun name h => refusal_ne_needs e name (Except.error.inj h)
  fun_induction fold (some resolve) e with
  | case1 range tokens => exact (hSelf fun _ => independent_literal tokens).symm
  | case2 range text =>
      unfold fold ofName
      split
      · rfl
      · split
        · rfl
        · dsimp only
          split
          · exact (hSelf (fun _ => by rintro ⟨⟩)).symm
          · rfl
  | case3 range e ih => exact ih
  | case4 => rfl
  | case5 | case6 | case7 => exact (hSelf (fun _ => by rintro ⟨⟩)).symm
  | case8 range op e hStep hDereference hAddress ih =>
      rw [fold, ih]
      · simp only [Except.mapError_bind, hSelf fun _ => independent_needArithmetic _ _,
          hSelf fun _ => independent_unaryOp _ _]
        rfl
      all_goals assumption
  | case9 range type e words ih =>
      rw [fold, ih]
      simp only [Except.mapError_bind, hSelf fun _ => independent_needArithmetic _ _,
          hSelf fun _ => independent_castTo _ _, hSelf fun _ => independent_ofWords _]
      rfl
  | case10 range op left right ihLeft ihRight =>
      rw [fold, ihLeft, ihRight]
      simp only [Except.mapError_bind, hSelf fun _ => independent_needArithmetic _ _,
          hSelf fun _ => independent_binaryOp _ _ _]
      rfl
  | case11 range condition whenTrue whenFalse ihCondition ihTrue ihFalse =>
      rw [fold, ihCondition, ihTrue, ihFalse]
      simp only [Except.mapError_bind, hSelf fun _ => independent_needArithmetic _ _,
          hSelf fun _ => independent_choose _ _ _]
      rfl
  | case12 => exact (hSelf (fun _ => by rintro ⟨⟩)).symm
  | _ => rw [fold, hRefusal]

/-- An expression ends with the question for a name only where one of its own names does. -/
theorem independent_fold {resolve : Resolver} (e : Expr)
    (h : ∀ range text, Expr.name range text ∈ e.nodes → Independent name (resolve text)) :
    Independent name (fold (some resolve) e) := by
  have hOperand : ∀ {e e' : Expr}, (∀ range text, Expr.name range text ∈ e.nodes →
      Independent name (resolve text)) → e' ∈ e.children →
      ∀ range text, Expr.name range text ∈ e'.nodes → Independent name (resolve text) := by
    intro e e' h hChild range text hMem
    exact h range text (Expr.mem_nodes.mpr (.inr (List.mem_flatMap.mpr ⟨e', hChild, hMem⟩)))
  fun_induction fold (some resolve) e with
  | case1 range tokens => exact independent_literal tokens
  | case2 range text =>
      unfold ofName
      split
      · exact independent_ok _
      · split
        · exact independent_ok _
        · dsimp only
          split
          · rintro ⟨⟩
          · exact h range text (Expr.mem_nodes_self _)
  | case3 range e ih => exact ih (hOperand h (by simp [Expr.children]))
  | case4 => exact independent_ok _
  | case5 | case6 | case7 | case12 => rintro ⟨⟩
  | case8 range op e hStep hDereference hAddress ih =>
      refine (ih (hOperand h (by simp [Expr.children]))).bind fun x => ?_
      refine (independent_needArithmetic _ x).bind fun f => ?_
      exact (independent_unaryOp op _).bind fun c => independent_ok _
  | case9 range type e words ih =>
      refine (independent_ofWords words).bind fun target => ?_
      refine (ih (hOperand h (by simp [Expr.children]))).bind fun x => ?_
      refine (independent_needArithmetic _ x).bind fun f => ?_
      exact (independent_castTo target _).bind fun c => independent_ok _
  | case10 range op left right ihLeft ihRight =>
      refine (ihLeft (hOperand h (by simp [Expr.children]))).bind fun x => ?_
      refine (independent_needArithmetic _ x).bind fun a => ?_
      refine (ihRight (hOperand h (by simp [Expr.children]))).bind fun y => ?_
      refine (independent_needArithmetic _ y).bind fun b => ?_
      exact (independent_binaryOp op _ _).bind fun c => independent_ok _
  | case11 range condition whenTrue whenFalse ihCondition ihTrue ihFalse =>
      refine (ihCondition (hOperand h (by simp [Expr.children]))).bind fun x => ?_
      refine (independent_needArithmetic _ x).bind fun c => ?_
      refine (ihTrue (hOperand h (by simp [Expr.children]))).bind fun y => ?_
      refine (independent_needArithmetic _ y).bind fun a => ?_
      refine (ihFalse (hOperand h (by simp [Expr.children]))).bind fun z => ?_
      refine (independent_needArithmetic _ z).bind fun b => ?_
      exact (independent_choose _ _ _).bind fun v => independent_ok _
  | _ => exact fun h => refusal_ne_needs _ name (Except.error.inj h)

end Constant
end Demacro
