import Demacro.Proofs.Expr.Laying

/-!
What a printed expression starts with, what may follow it, and why no cast is seen where there is
none.
-/

namespace Demacro

theorem BinaryOp.ofSymbol?_symbol (op : BinaryOp) : ofSymbol? op.symbol = some op := by
  cases op <;> decide

theorem UnaryOp.ofSymbol?_symbol (op : UnaryOp) : ofSymbol? op.symbol = some op := by
  cases op with
  | step op => cases op <;> decide
  | _ => decide

theorem UnaryOp.symbol_ne_closing (op : UnaryOp) : op.symbol ≠ ")" := by
  cases op with
  | step op => cases op <;> decide
  | _ => decide

theorem StepOp.ofSymbol?_symbol (op : StepOp) : ofSymbol? op.symbol = some op := by
  cases op <;> decide

theorem AssignOp.ofSymbol?_symbol : ∀ op ∈ AssignOp.all, ofSymbol? op.symbol = some op := by
  decide

namespace Expr

variable {layout : Nat → Token} {op text : String} {s m k : Source} {r : TokenRange} {e : Expr}
  {p q : Nat}

/-- How tightly what stands in front of an operator must hold together to be its operand. -/
def grip (op : String) : Nat :=
  match BinaryOp.ofSymbol? op with
  | some op => op.precedence
  | none =>
    if op = "::" then primaryPrecedence + 1
    else if op ∈ suffixOperators then primaryPrecedence
    else if op = "?" ∨ (AssignOp.ofSymbol? op).isSome then BinaryOp.or.precedence
    else if op = "," then 2
    else 0

theorem grip_binary (op : BinaryOp) : grip op.symbol = op.precedence := by
  rw [grip, BinaryOp.ofSymbol?_symbol]

theorem grip_suffix : ∀ op ∈ suffixOperators, grip op = primaryPrecedence := by
  decide

theorem grip_assign : ∀ op ∈ AssignOp.all, grip op.symbol = BinaryOp.or.precedence := by
  decide

namespace Source

/-- Nothing comes next that takes something away from the end of an expression that holds together
as tightly as the number says. -/
structure Leaves (s : Source) (p : Nat) : Prop where
  noString : ∀ t ∈ s.peek?, t.kind ≠ .string
  weak : ∀ op, s.op? = some op → grip op ≤ p

theorem leaves_end (i p : Nat) : Source.Leaves ⟨i, []⟩ p :=
  ⟨by simp [peek?], by simp [op?, peek?]⟩

theorem IsMark.leaves (h : s.IsMark layout op m) (hGrip : grip op ≤ p) : s.Leaves p := by
  refine ⟨fun t ht => ?_, fun op' hOp' => ?_⟩
  · simp only [peek?, h.tokens, List.head?_cons, Option.mem_def, Option.some.injEq] at ht
    subst ht
    simp [mark, Token.respelled]
  · rw [h.op?_eq, Option.some.injEq] at hOp'
    rwa [← hOp']

namespace Leaves

theorem mono (h : s.Leaves p) (hLe : p ≤ q) : s.Leaves q :=
  ⟨h.noString, fun op hOp => Nat.le_trans (h.weak op hOp) hLe⟩

theorem binaryEnds (h : s.Leaves p) (hLt : p < q) : s.BinaryEnds q := by
  intro op hOp
  obtain ⟨symbol, hSymbol, hOp⟩ := op?_of_bind hOp
  have hWeak := h.weak symbol hSymbol
  simp only [grip, hOp] at hWeak
  exact Nat.lt_of_le_of_lt hWeak hLt

theorem not_isAt (h : s.Leaves p) (hGrip : p < grip op) : s.isAt op = false :=
  Bool.eq_false_iff.mpr fun hNext => Nat.not_le.mpr hGrip (h.weak op (op?_of_isAt hNext))

theorem assignmentEnds (h : s.Leaves 2) : s.AssignmentEnds := by
  refine ⟨⟨h.binaryEnds (by decide), h.not_isAt (by decide)⟩, ?_⟩
  refine Option.eq_none_iff_forall_ne_some.mpr fun op hOp => ?_
  obtain ⟨symbol, hSymbol, hOp⟩ := op?_of_bind hOp
  have hSame : op.symbol = symbol := by simpa using List.find?_some hOp
  have hWeak := h.weak symbol hSymbol
  rw [← hSame, grip_assign op (List.mem_of_find?_eq_some hOp)] at hWeak
  exact absurd hWeak (by decide)

theorem not_suffix (h : s.Leaves p) (hLt : p < primaryPrecedence) :
    ∀ op, s.op? = some op → op ∉ suffixOperators := by
  intro op hOp hSuffix
  have hWeak := h.weak op hOp
  rw [grip_suffix op hSuffix] at hWeak
  omega

end Leaves

/-- What comes next starts an expression that is no `throw` and closes nothing. -/
def Starts (s : Source) : Prop :=
  ∃ t ∈ s.peek?, t.isNamed "throw" = false ∧ operator? t ≠ some ")"

theorem IsMark.starts (h : s.IsMark layout op m) (hOp : op ≠ ")") : s.Starts :=
  ⟨mark layout s.index op, by simp [peek?, h.tokens], rfl, by simpa using hOp⟩

theorem Starts.not_throw (h : s.Starts) : s.isAtName "throw" = false := by
  obtain ⟨t, ht, hNamed, -⟩ := h
  rw [isAtName, Option.mem_def.mp ht, Option.any_some, hNamed]

theorem Starts.not_closed (h : s.Starts) : s.isAt ")" = false := by
  obtain ⟨t, ht, -, hOp⟩ := h
  simpa [isAt, op?, Option.mem_def.mp ht] using hOp

theorem Starts.tokens_ne_nil (h : s.Starts) : s.tokens ≠ [] := by
  obtain ⟨t, ht, -⟩ := h
  rintro hNil
  simp [peek?, hNil] at ht

/-- A literal starts an expression. -/
theorem starts_of_kind {t : Token} (ht : t ∈ s.peek?)
    (hKind : t.kind = .number ∨ t.kind = .char ∨ t.kind = .string) : s.Starts := by
  refine ⟨t, ht, ?_, ?_⟩
  · rcases hKind with hKind | hKind | hKind <;> simp [Token.isNamed, hKind]
  · rcases hKind with hKind | hKind | hKind <;> simp [operator?, hKind]

end Source

theorem operator?_of_name (i : Nat) (hName : text ∉ words) :
    Source.operator? (word layout i text) = none := by
  rw [operator?_word]
  refine List.lookup_eq_none_iff.mpr fun pair hPair => bne_iff_ne.mpr fun hSame => hName ?_
  rw [hSame, words]
  exact List.mem_append_right _ (List.mem_map_of_mem hPair)

theorem isNamed_of_name (i : Nat) (hName : text ∉ words) {other : String} (hOther : other ∈ words) :
    (word layout i text).isNamed other = false := by
  rw [isNamed_word, beq_eq_false_iff_ne]
  rintro rfl
  exact hName hOther

theorem Regular.starts (h : e.Regular) (hs : e.Stands layout s m) : s.Starts := by
  induction h generalizing s m with
  | @constant r t hKind =>
      refine Source.starts_of_kind (t := t) ?_ (by tauto)
      simp [Source.peek?, hs.tokens, print]
  | @strings r tokens hSome hKind =>
      obtain ⟨t, ts, rfl⟩ := List.exists_cons_of_ne_nil hSome
      refine Source.starts_of_kind (t := t) ?_ (.inr (.inr (hKind t List.mem_cons_self)))
      simp [Source.peek?, hs.tokens, print]
  | @name r text hName =>
      refine ⟨word layout s.index text, by simp [Source.peek?, hs.tokens, print], ?_, ?_⟩
      · exact isNamed_of_name _ hName (by decide)
      · rw [operator?_of_name _ hName]
        exact Option.some_ne_none _ |>.symm
  | paren =>
      obtain ⟨k, l, hOpen, -⟩ := hs.paren
      exact hOpen.starts (by decide)
  | @unary r op e =>
      obtain ⟨k, hMark, -⟩ := hs.unary
      exact hMark.starts op.symbol_ne_closing
  | cast =>
      obtain ⟨k, l, hTokens, -⟩ := hs.cast
      exact ⟨_, by rw [Source.peek?, hTokens]; rfl, rfl, by simp⟩
  | binary _ _ _ _ ih =>
      obtain ⟨k, l, hLeft, -⟩ := hs.binary
      exact ih hLeft
  | conditional _ _ _ _ _ ih =>
      obtain ⟨k, l, n, o, hCondition, -⟩ := hs.conditional
      exact ih hCondition
  | assign _ _ _ _ _ ih =>
      obtain ⟨k, l, hTarget, -⟩ := hs.assign
      exact ih hTarget
  | @comma r es hTwo _ _ ih =>
      obtain ⟨e, es, rfl⟩ :=
        List.exists_cons_of_ne_nil (List.ne_nil_of_length_pos (Nat.lt_of_lt_of_le Nat.two_pos hTwo))
      obtain ⟨k, hFirst, -⟩ := hs.comma.cons
      exact ih e List.mem_cons_self hFirst
  | call _ _ _ _ ih =>
      obtain ⟨k, l, n, hCallee, -⟩ := hs.call
      exact ih hCallee
  | subscript _ _ _ ih =>
      obtain ⟨k, l, n, hBase, -⟩ := hs.subscript
      exact ih hBase
  | member _ _ _ ih =>
      obtain ⟨k, hBase, -⟩ := hs.member
      exact ih hBase
  | stepped _ _ ih =>
      obtain ⟨k, hBase, -⟩ := hs.stepped
      exact ih hBase

namespace Source

/-- Looking for the words of a type gets stuck between two places, or gets from one to the other
without a word of an arithmetic type. -/
def Skips (s m : Source) : Prop :=
  ∀ found, typeWords? found s.index s.tokens = none
    ∨ ∃ more, (∀ w ∈ more, w ∉ Keyword.arithmeticTypes)
      ∧ typeWords? found s.index s.tokens = typeWords? (found ++ more) m.index m.tokens

theorem Skips.trans (h : s.Skips k) (h' : k.Skips m) : s.Skips m := by
  intro found
  rcases h found with hNone | ⟨more, hMore, hEq⟩
  · exact .inl hNone
  rcases h' (found ++ more) with hNone | ⟨more', hMore', hEq'⟩
  · exact .inl (hEq.trans hNone)
  refine .inr ⟨more ++ more', fun w hw => ?_, by rw [hEq, hEq', List.append_assoc]⟩
  exact (List.mem_append.mp hw).elim (hMore w) (hMore' w)

/-- At a token that is no part of a type and closes nothing the search gets stuck. -/
theorem skips_of_other {t : Token} (ht : t ∈ s.peek?) (hOther : t.isIdentifier = false)
    (hMark : t.isPunctIn [")", "*", "&"] = false) (m : Source) : s.Skips m := by
  intro found
  obtain ⟨ts, hTokens⟩ := List.head?_eq_some_iff.mp (Option.mem_def.mp ht)
  simp only [Token.isPunctIn, List.any_cons, List.any_nil, Bool.or_false,
    Bool.or_eq_false_iff] at hMark
  refine .inl ?_
  rw [hTokens, typeWords?]
  simp [Token.isPunctIn, hOther, hMark]

theorem skips_of_kind {t : Token} (ht : t ∈ s.peek?) (hKind : t.kind ≠ .identifier)
    (hKind' : t.kind ≠ .punctuator) (m : Source) : s.Skips m := by
  refine skips_of_other ht ?_ ?_ m
  · simpa [Token.isIdentifier] using hKind
  · simp [Token.isPunctIn, Token.isPunct, hKind']

theorem IsMark.blocks (h : s.IsMark layout op k) (hOp : op ∉ [")", "*", "&"]) (m : Source) :
    s.Skips m := by
  refine skips_of_other (t := mark layout s.index op) (by simp [peek?, h.tokens]) rfl ?_ m
  simp only [List.mem_cons, List.not_mem_nil, or_false, not_or] at hOp
  simp [Token.isPunctIn, hOp]

theorem IsMark.skips (h : s.IsMark layout op m) (hOp : op ≠ ")") : s.Skips m := by
  by_cases hType : op = "*" ∨ op = "&"
  · refine fun found => .inr ⟨[op], ?_, ?_⟩
    · rcases hType with rfl | rfl <;> decide
    · rw [h.tokens, typeWords?, h.index]
      rcases hType with rfl | rfl <;> simp [Token.isPunctIn]
  · exact h.blocks (by simpa [hOp] using hType) m

/-- A name is no word of an arithmetic type. -/
theorem skips_of_name (hTokens : s.tokens = word layout s.index text :: m.tokens)
    (hIndex : m.index = s.index + 1) (hName : text ∉ words) : s.Skips m := by
  have hType : text ∉ Keyword.arithmeticTypes := fun hType => hName (by simp [words, hType])
  intro found
  rw [hTokens, typeWords?, hIndex]
  by_cases hQualifier : text ∈ Keyword.typeQualifiers
  · exact .inr ⟨[text], by simpa using hType, by simp [Token.isPunctIn, hQualifier]⟩
  · exact .inl (by simp [Token.isPunctIn, hType, hQualifier])

end Source

/-- No type is spelled by a printed expression. -/
theorem Regular.skips (h : e.Regular) (hs : e.Stands layout s m) : s.Skips m := by
  induction h generalizing s m with
  | @constant r t hKind =>
      refine Source.skips_of_kind (t := t) (by simp [Source.peek?, hs.tokens, print]) ?_ ?_ m <;>
        rcases hKind with hKind | hKind <;> simp [hKind]
  | @strings r tokens hSome hKind =>
      obtain ⟨t, ts, rfl⟩ := List.exists_cons_of_ne_nil hSome
      have hString := hKind t List.mem_cons_self
      exact Source.skips_of_kind (t := t) (by simp [Source.peek?, hs.tokens, print])
        (by simp [hString]) (by simp [hString]) m
  | name hName => exact Source.skips_of_name hs.tokens hs.index hName
  | paren =>
      obtain ⟨k, l, hOpen, -⟩ := hs.paren
      exact hOpen.blocks (by decide) m
  | @unary r op e _ _ ih =>
      obtain ⟨k, hMark, hOperand⟩ := hs.unary
      exact (hMark.skips op.symbol_ne_closing).trans (ih hOperand)
  | cast =>
      obtain ⟨k, l, hTokens, -⟩ := hs.cast
      refine Source.skips_of_other (t := mark layout s.index "(") ?_ rfl
        (by simp [Token.isPunctIn]) m
      rw [Source.peek?, hTokens]
      rfl
  | @binary r op a b _ _ _ _ ihLeft ihRight =>
      obtain ⟨k, l, hLeft, hMark, hRight⟩ := hs.binary
      exact (ihLeft hLeft).trans ((hMark.skips (by cases op <;> decide)).trans (ihRight hRight))
  | conditional _ _ _ _ _ ih =>
      obtain ⟨k, l, n, o, hCondition, hMark, -⟩ := hs.conditional
      exact (ih hCondition).trans (hMark.blocks (by decide) m)
  | @assign r op a b hOp _ _ _ _ ihTarget ihValue =>
      obtain ⟨k, l, hTarget, hMark, hValue⟩ := hs.assign
      have hOther : ∀ op ∈ AssignOp.all, op.symbol ≠ ")" := by decide
      exact (ihTarget hTarget).trans ((hMark.skips (hOther op hOp)).trans (ihValue hValue))
  | @comma r es hTwo _ _ ih =>
      obtain ⟨e, es, rfl⟩ :=
        List.exists_cons_of_ne_nil (List.ne_nil_of_length_pos (Nat.lt_of_lt_of_le Nat.two_pos hTwo))
      obtain ⟨k, hFirst, hItems⟩ := hs.comma.cons
      obtain ⟨e', es, rfl⟩ :=
        List.exists_cons_of_ne_nil (List.ne_nil_of_length_pos (Nat.le_of_succ_le_succ hTwo))
      obtain ⟨l, n, hComma, -⟩ := hItems.cons
      exact (ih e List.mem_cons_self hFirst).trans (hComma.blocks (by decide) m)
  | call _ _ _ _ ih =>
      obtain ⟨k, l, n, hCallee, hOpen, -⟩ := hs.call
      exact (ih hCallee).trans (hOpen.blocks (by decide) m)
  | subscript _ _ _ ih =>
      obtain ⟨k, l, n, hBase, hOpen, -⟩ := hs.subscript
      exact (ih hBase).trans (hOpen.blocks (by decide) m)
  | member hOp _ _ ih =>
      obtain ⟨k, hBase, hTokens, -⟩ := hs.member
      refine (ih hBase).trans (Source.skips_of_other (by rw [Source.peek?, hTokens]; rfl) rfl ?_ m)
      rcases hOp with rfl | rfl <;> simp [Token.isPunctIn]
  | @stepped r op e _ _ ih =>
      obtain ⟨k, hBase, hMark⟩ := hs.stepped
      exact (ih hBase).trans (hMark.skips (by cases op <;> decide))

/-- A printed expression in parentheses is no cast. -/
theorem Regular.castType?_eq_none (h : e.Regular) {l : Source} (hOpen : s.IsMark layout "(" k)
    (hs : e.Stands layout k l) (hClose : l.IsMark layout ")" m) : s.castType? = none := by
  have hTokens : s.tokens.drop 1 = k.tokens := by rw [hOpen.tokens, List.drop_one, List.tail_cons]
  rw [Source.castType?, hTokens, ← hOpen.index]
  rcases h.skips hs [] with hNone | ⟨more, hMore, hEq⟩
  · rw [hNone]
  · have hAny : more.any Keyword.arithmeticTypes.contains = false := by simpa using hMore
    rw [hEq, hClose.tokens, List.nil_append, Source.typeWords?]
    simp only [isPunct_mark, beq_self_eq_true, if_true, hAny, Bool.false_and, Bool.false_eq_true,
      if_false]

/-- The words of a type are found again where they are printed. -/
theorem typeWords?_printWords {parts found : List String} (hParts : ∀ w ∈ parts, w ∈ typeWords)
    {i j : Nat} {ts : List Token} :
    Source.typeWords? found i (printWords layout i parts ++ mark layout j ")" :: ts)
      = some (found ++ parts, ⟨i + parts.length + 1, ts⟩) := by
  induction parts generalizing i found with
  | nil => simp [printWords, Source.typeWords?]
  | cons w parts ih =>
      have hWord := hParts w List.mem_cons_self
      have hRest : Source.typeWords? (found ++ [w]) (i + 1)
        (printWords layout (i + 1) parts ++ mark layout j ")" :: ts)
          = some (found ++ w :: parts, ⟨i + (parts.length + 1) + 1, ts⟩) := by
        rw [ih fun w hw => hParts w (List.mem_cons_of_mem _ hw), List.append_assoc,
          List.singleton_append,
          show i + 1 + parts.length = i + (parts.length + 1) by omega]
      rw [printWords, List.cons_append, Source.typeWords?, List.length_cons, ← hRest]
      split
      · rename_i hMark
        rcases hMark with rfl | rfl <;> simp [Token.isPunctIn]
      · rename_i hMark
        simp only [not_or] at hMark
        have hOther : w ∈ Keyword.arithmeticTypes ∨ w ∈ Keyword.typeQualifiers := by
          simpa [typeWords, hMark, or_assoc] using hWord
        simp [hOther]

end Expr

end Demacro
