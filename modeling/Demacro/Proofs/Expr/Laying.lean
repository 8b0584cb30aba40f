import Demacro.Proofs.Expr.Printing

/-!
Printed expressions in a source. The tokens of an expression are those of its operands with the
marks between them, so between two places of a source there are places for its operands.
-/

namespace Demacro.Expr

variable {layout : Nat → Token} {i : Nat} {op text : String} {s m : Source} {r : TokenRange}
  {e a b c : Expr} {es : List Expr}

section

variable (layout i op text)

@[simp]
theorem operator?_mark : Source.operator? (mark layout i op) = some op := by
  simp [mark, Token.respelled, Source.operator?, Token.spelling]

@[simp]
theorem isPunct_mark (s : String) : (mark layout i op).isPunct s = (op == s) := by
  simp [mark, Token.respelled, Token.isPunct, Text.ofString_inj, Bool.beq_eq_decide_eq]

@[simp]
theorem isIdentifier_mark : (mark layout i op).isIdentifier = false := rfl

@[simp]
theorem isNamed_mark (s : String) : (mark layout i op).isNamed s = false := rfl

@[simp]
theorem spelling_mark : (mark layout i op).spelling = op :=
  Text.display_ofString op

@[simp]
theorem operator?_word :
    Source.operator? (word layout i text) = Keyword.operatorWords.lookup text := by
  simp [word, Token.respelled, Source.operator?, Token.spelling]

@[simp]
theorem isPunct_word (s : String) : (word layout i text).isPunct s = false := rfl

@[simp]
theorem isIdentifier_word : (word layout i text).isIdentifier = true := rfl

@[simp]
theorem isNamed_word (s : String) : (word layout i text).isNamed s = (text == s) := by
  simp [word, Token.respelled, Token.isNamed, Text.ofString_inj, Bool.beq_eq_decide_eq]

@[simp]
theorem spelling_word : (word layout i text).spelling = text :=
  Text.display_ofString text

end

/-- The next token of a source is a mark, and what is behind it. -/
structure Source.IsMark (layout : Nat → Token) (s : Source) (op : String) (m : Source) : Prop where
  tokens : s.tokens = mark layout s.index op :: m.tokens
  index : m.index = s.index + 1

namespace Source.IsMark

theorem op?_eq (h : s.IsMark layout op m) : s.op? = some op := by
  simp [op?, peek?, h.tokens]

theorem isAt (h : s.IsMark layout op m) : s.isAt op = true := by
  simp [Source.isAt, h.op?_eq]

theorem eq_cons (h : s.IsMark layout op m) : s = ⟨s.index, mark layout s.index op :: m.tokens⟩ := by
  rw [← h.tokens]

theorem next_eq (h : s.IsMark layout op m) : s.next = m := by
  rw [next, h.tokens, ← h.index]
  rfl

theorem expect (h : s.IsMark layout op m) : s.expect op = .ok m := by
  rw [Source.expect, h.tokens]
  simp [← h.index]

end Source.IsMark

/-- The tokens of an expression stand between two places of a source. -/
structure Stands (layout : Nat → Token) (e : Expr) (s m : Source) : Prop where
  tokens : s.tokens = e.print layout s.index ++ m.tokens
  index : m.index = s.index + e.size

/-- The tokens of expressions with commas between them stand between two places. -/
structure AllStand (layout : Nat → Token) (es : List Expr) (s m : Source) : Prop where
  tokens : s.tokens = printAll layout s.index es ++ m.tokens
  index : m.index = s.index + sizeAll es

/-- The tokens of expressions with a comma before each stand between two places. -/
structure ItemsStand (layout : Nat → Token) (es : List Expr) (s m : Source) : Prop where
  tokens : s.tokens = printItems layout s.index es ++ m.tokens
  index : m.index = s.index + sizeItems es

namespace Stands

/-- An expression takes the tokens between its places. -/
theorem range_eq (h : e.Stands layout s m) :
    (⟨s.index, s.index + e.size⟩ : TokenRange) = ⟨s.index, m.index⟩ := by
  rw [h.index]

/-- Behind the tokens of an expression the source goes on. -/
theorem exists_next {tail : List Token} (h : s.tokens = e.print layout s.index ++ tail) :
    ∃ k : Source, e.Stands layout s k ∧ k.tokens = tail ∧ k.index = s.index + e.size :=
  ⟨⟨s.index + e.size, tail⟩, ⟨h, rfl⟩, rfl, rfl⟩

theorem exists_mark {tail : List Token} (h : s.tokens = mark layout s.index op :: tail) :
    ∃ k : Source, s.IsMark layout op k ∧ k.tokens = tail ∧ k.index = s.index + 1 :=
  ⟨⟨s.index + 1, tail⟩, ⟨h, rfl⟩, rfl, rfl⟩

theorem paren (h : (Expr.paren r e).Stands layout s m) :
    ∃ k l, s.IsMark layout "(" k ∧ e.Stands layout k l ∧ l.IsMark layout ")" m := by
  obtain ⟨hTokens, hIndex⟩ := h
  rw [print, List.cons_append, List.append_assoc] at hTokens
  rw [size] at hIndex
  obtain ⟨k, hOpen, hTokens, hk⟩ := exists_mark hTokens
  rw [← hk] at hTokens
  obtain ⟨l, hInner, hTokens, hl⟩ := exists_next hTokens
  exact ⟨k, l, hOpen, hInner, by rw [hTokens, hl]; rfl, by omega⟩

theorem unary {op : UnaryOp} (h : (Expr.unary r op e).Stands layout s m) :
    ∃ k, s.IsMark layout op.symbol k ∧ e.Stands layout k m := by
  obtain ⟨hTokens, hIndex⟩ := h
  rw [print, List.cons_append] at hTokens
  rw [size] at hIndex
  obtain ⟨k, hMark, hTokens, hk⟩ := exists_mark hTokens
  exact ⟨k, hMark, by rw [hTokens, hk], by omega⟩

theorem stepped {op : StepOp} (h : (Expr.stepped r op e).Stands layout s m) :
    ∃ k, e.Stands layout s k ∧ k.IsMark layout op.symbol m := by
  obtain ⟨hTokens, hIndex⟩ := h
  rw [print, List.append_assoc] at hTokens
  rw [size] at hIndex
  obtain ⟨k, hBase, hTokens, hk⟩ := exists_next hTokens
  exact ⟨k, hBase, by rw [hTokens, hk]; rfl, by omega⟩

theorem member {part : String} (h : (Expr.member r op e part).Stands layout s m) :
    ∃ k, e.Stands layout s k ∧ k.tokens = mark layout k.index op :: word layout (k.index + 1) part
    :: m.tokens
      ∧ m.index = k.index + 2 := by
  obtain ⟨hTokens, hIndex⟩ := h
  rw [print, List.append_assoc] at hTokens
  rw [size] at hIndex
  obtain ⟨k, hBase, hTokens, hk⟩ := exists_next hTokens
  exact ⟨k, hBase, by rw [hTokens, hk]; rfl, by omega⟩

/-- Two operands with a mark between them. -/
theorem exists_operands
    (hTokens : s.tokens = a.print layout s.index ++ mark layout (s.index + a.size) op
      :: b.print layout (s.index + a.size + 1) ++ m.tokens)
    (hIndex : m.index = s.index + (a.size + 1 + b.size)) :
    ∃ k l, a.Stands layout s k ∧ k.IsMark layout op l ∧ b.Stands layout l m := by
  rw [List.append_assoc, List.cons_append] at hTokens
  obtain ⟨k, hLeft, hTokens, hk⟩ := exists_next hTokens
  rw [← hk] at hTokens
  obtain ⟨l, hMark, hTokens, hl⟩ := exists_mark hTokens
  exact ⟨k, l, hLeft, hMark, by rw [hTokens, hl], by omega⟩

theorem binary {op : BinaryOp} (h : (Expr.binary r op a b).Stands layout s m) :
    ∃ k l, a.Stands layout s k ∧ k.IsMark layout op.symbol l ∧ b.Stands layout l m :=
  exists_operands (h.tokens.trans (by rw [print])) (h.index.trans (by rw [size]))

theorem assign {op : AssignOp} (h : (Expr.assign r op a b).Stands layout s m) :
    ∃ k l, a.Stands layout s k ∧ k.IsMark layout op.symbol l ∧ b.Stands layout l m :=
  exists_operands (h.tokens.trans (by rw [print])) (h.index.trans (by rw [size]))

theorem conditional (h : (Expr.conditional r a b c).Stands layout s m) :
    ∃ k l n o, a.Stands layout s k ∧ k.IsMark layout "?" l ∧ b.Stands layout l n
    ∧ n.IsMark layout ":" o
      ∧ c.Stands layout o m := by
  obtain ⟨hTokens, hIndex⟩ := h
  rw [print, List.append_assoc, List.cons_append, List.append_assoc, List.cons_append] at hTokens
  rw [size] at hIndex
  obtain ⟨k, hCondition, hTokens, hk⟩ := exists_next hTokens
  rw [← hk] at hTokens
  obtain ⟨l, hMark, hTokens, hl⟩ := exists_mark hTokens
  rw [← hl] at hTokens
  obtain ⟨n, hTrue, hTokens, hn⟩ := exists_next hTokens
  rw [← hn] at hTokens
  obtain ⟨o, hColon, hTokens, ho⟩ := exists_mark hTokens
  exact ⟨k, l, n, o, hCondition, hMark, hTrue, hColon, by rw [hTokens, ho], by omega⟩

theorem subscript (h : (Expr.subscript r a b).Stands layout s m) :
    ∃ k l n, a.Stands layout s k ∧ k.IsMark layout "[" l ∧ b.Stands layout l n
    ∧ n.IsMark layout "]" m := by
  obtain ⟨hTokens, hIndex⟩ := h
  rw [print, List.append_assoc, List.cons_append, List.append_assoc] at hTokens
  rw [size] at hIndex
  obtain ⟨k, hBase, hTokens, hk⟩ := exists_next hTokens
  rw [← hk] at hTokens
  obtain ⟨l, hOpen, hTokens, hl⟩ := exists_mark hTokens
  rw [← hl] at hTokens
  obtain ⟨n, hInner, hTokens, hn⟩ := exists_next hTokens
  exact ⟨k, l, n, hBase, hOpen, hInner, by rw [hTokens, hn]; rfl, by omega⟩

theorem call (h : (Expr.call r e es).Stands layout s m) :
    ∃ k l n, e.Stands layout s k ∧ k.IsMark layout "(" l ∧ AllStand layout es l n
    ∧ n.IsMark layout ")" m := by
  obtain ⟨hTokens, hIndex⟩ := h
  rw [print, List.append_assoc, List.cons_append, List.append_assoc] at hTokens
  rw [size] at hIndex
  obtain ⟨k, hCallee, hTokens, hk⟩ := exists_next hTokens
  rw [← hk] at hTokens
  obtain ⟨l, hOpen, hTokens, hl⟩ := exists_mark hTokens
  rw [← hl] at hTokens
  exact ⟨k, l, ⟨l.index + sizeAll es, mark layout (l.index + sizeAll es) ")" :: m.tokens⟩,
    hCallee, hOpen, ⟨hTokens, rfl⟩, rfl, by dsimp only; omega⟩

theorem comma (h : (Expr.comma r es).Stands layout s m) : AllStand layout es s m :=
  ⟨h.tokens.trans (by rw [print]), h.index.trans (by rw [size])⟩

theorem cast {type : Text} (h : (Expr.cast r type e).Stands layout s m) :
    ∃ k l : Source, s.tokens = mark layout s.index "("
    :: (printWords layout (s.index + 1) (castWords type) ++ k.tokens)
      ∧ k.index = s.index + 1 + (castWords type).length ∧ k.IsMark layout ")" l
      ∧ e.Stands layout l m := by
  obtain ⟨hTokens, hIndex⟩ := h
  rw [print, List.cons_append, List.append_assoc, List.cons_append] at hTokens
  rw [size] at hIndex
  refine ⟨⟨_, _⟩, ⟨_, _⟩, hTokens, rfl, ⟨rfl, rfl⟩, rfl, ?_⟩
  dsimp only
  omega

end Stands

theorem AllStand.cons (h : AllStand layout (e :: es) s m) :
    ∃ k, e.Stands layout s k ∧ ItemsStand layout es k m := by
  obtain ⟨hTokens, hIndex⟩ := h
  rw [printAll, List.append_assoc] at hTokens
  rw [sizeAll] at hIndex
  obtain ⟨k, hFirst, hTokens, hk⟩ := Stands.exists_next hTokens
  exact ⟨k, hFirst, by rw [hTokens, hk], by omega⟩

theorem ItemsStand.cons (h : ItemsStand layout (e :: es) s m) :
    ∃ k l, s.IsMark layout "," k ∧ e.Stands layout k l ∧ ItemsStand layout es l m := by
  obtain ⟨hTokens, hIndex⟩ := h
  rw [printItems, List.cons_append, List.append_assoc] at hTokens
  rw [sizeItems] at hIndex
  obtain ⟨k, hComma, hTokens, hk⟩ := Stands.exists_mark hTokens
  rw [← hk] at hTokens
  obtain ⟨l, hFirst, hTokens, hl⟩ := Stands.exists_next hTokens
  exact ⟨k, l, hComma, hFirst, by rw [hTokens, hl], by omega⟩

/-- Nothing stands for no expression. -/
theorem AllStand.nil (h : AllStand layout [] s m) : s = m := by
  obtain ⟨i, ts⟩ := s
  obtain ⟨j, us⟩ := m
  obtain ⟨hTokens, hIndex⟩ := h
  rw [printAll, List.nil_append] at hTokens
  rw [sizeAll, Nat.add_zero] at hIndex
  dsimp only at hTokens hIndex
  rw [hTokens, hIndex]

theorem ItemsStand.nil (h : ItemsStand layout [] s m) : s = m := by
  obtain ⟨i, ts⟩ := s
  obtain ⟨j, us⟩ := m
  obtain ⟨hTokens, hIndex⟩ := h
  rw [printItems, List.nil_append] at hTokens
  rw [sizeItems, Nat.add_zero] at hIndex
  dsimp only at hTokens hIndex
  rw [hTokens, hIndex]

end Demacro.Expr
