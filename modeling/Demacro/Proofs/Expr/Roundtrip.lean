import Demacro.Proofs.Expr.Following
import Demacro.Proofs.Expr.Grouping
import Demacro.Proofs.Expr.Parsing

/-!
Printed expressions are read as what they are. What stands behind an expression must leave it alone;
then it is read for every level of the grammar that it keeps to.
-/

namespace Demacro.Expr

variable {layout : Nat → Token} {op text : String} {s m k : Source} {r : TokenRange}
  {e a b c : Expr} {es : List Expr}

/-- What is printed for an expression is read as the expression, for each level of the grammar that
it keeps to. For suffixes and operators the reading may go on with it. -/
structure ReadsBack (layout : Nat → Token) (e : Expr) : Prop where
  suffixed : e.precedence = primaryPrecedence → ∀ {s m rest x}, e.Stands layout s m →
    m.Leaves primaryPrecedence →
    Parses (.suffixes s.index (e.place s.index)) m [x] rest → Parses .unary s [x] rest
  unary : unaryPrecedence ≤ e.precedence → ∀ {s m}, e.Stands layout s m → m.Leaves unaryPrecedence →
    Parses .unary s [e.place s.index] m
  binary : ∀ {least}, least ≤ e.precedence → BinaryOp.or.precedence ≤ e.precedence → ∀ {s m rest x},
    e.Stands layout s m → m.Leaves (min e.precedence unaryPrecedence) →
    Parses (.operands least s.index (e.place s.index)) m [x] rest →
    Parses (.binary least) s [x] rest
  assignment : 2 ≤ e.precedence → ∀ {s m}, e.Stands layout s m → m.Leaves 2 →
    Parses .assignment s [e.place s.index] m
  expression : ∀ {s m}, e.Stands layout s m → m.Leaves 1 → Parses .expression s [e.place s.index] m

namespace ReadsBack

theorem unary_of_suffixed (hSuffixed : ∀ {s m rest x}, e.Stands layout s m →
    m.Leaves primaryPrecedence →
      Parses (.suffixes s.index (e.place s.index)) m [x] rest → Parses .unary s [x] rest)
    (hs : e.Stands layout s m) (hm : m.Leaves unaryPrecedence) :
    Parses .unary s [e.place s.index] m :=
  hSuffixed hs (hm.mono (by decide)) (.lastSuffix (hm.not_suffix (by decide)))

/-- An expression that is read as the operands of binary operators is read for the levels above
them. -/
theorem of_binary (hRegular : e.Regular) (hLevel : BinaryOp.or.precedence ≤ e.precedence)
    (hSuffixed : e.precedence = primaryPrecedence → ∀ {s m rest x}, e.Stands layout s m →
      m.Leaves primaryPrecedence → Parses (.suffixes s.index (e.place s.index)) m [x] rest →
      Parses .unary s [x] rest)
    (hUnary : unaryPrecedence ≤ e.precedence → ∀ {s m}, e.Stands layout s m →
      m.Leaves unaryPrecedence → Parses .unary s [e.place s.index] m)
    (hBinary : ∀ {least}, least ≤ e.precedence → ∀ {s m rest x}, e.Stands layout s m →
      m.Leaves (min e.precedence unaryPrecedence) →
      Parses (.operands least s.index (e.place s.index)) m [x] rest →
      Parses (.binary least) s [x] rest) :
    ReadsBack layout e := by
  have hTwo : 2 ≤ min e.precedence unaryPrecedence := by
    rw [show BinaryOp.or.precedence = 3 from rfl] at hLevel
    rw [show unaryPrecedence = 14 from rfl]
    omega
  have hAssignment : ∀ {s m}, e.Stands layout s m → m.Leaves 2 →
      Parses .assignment s [e.place s.index] m := by
    intro s m hs hm
    have hEnds := hm.assignmentEnds
    exact .unassigned (hRegular.starts hs).not_throw
      (.unconditional (hBinary hLevel hs (hm.mono hTwo) (.lastOperand hEnds.1.1)) hEnds.1.2) hEnds.2
  exact ⟨hSuffixed, hUnary, fun hLeast _ => hBinary hLeast, fun _ => hAssignment,
    fun hs hm => .expression (hAssignment hs (hm.mono (by decide)))
      (.noItem (hm.not_isAt (by decide)))⟩

/-- An expression that starts with an operator or a cast is an operand. -/
theorem of_unary (hRegular : e.Regular) (hLevel : e.precedence = unaryPrecedence)
    (hUnary : ∀ {s m}, e.Stands layout s m → m.Leaves unaryPrecedence →
      Parses .unary s [e.place s.index] m) :
    ReadsBack layout e := by
  refine of_binary hRegular (by rw [hLevel]; decide) ?_ (fun _ => hUnary) ?_
  · intro hPrimary
    rw [hLevel] at hPrimary
    exact absurd hPrimary (by decide)
  · intro least hLeast s m rest x hs hm hOperands
    exact .binary (hUnary hs (hm.mono (Nat.min_le_right _ _))) hOperands

/-- An expression behind which suffixes can stand is an operand. -/
theorem of_suffixed (hRegular : e.Regular) (hLevel : e.precedence = primaryPrecedence)
    (hSuffixed : ∀ {s m rest x}, e.Stands layout s m → m.Leaves primaryPrecedence →
      Parses (.suffixes s.index (e.place s.index)) m [x] rest → Parses .unary s [x] rest) :
      ReadsBack layout e := by
  refine of_binary hRegular (by rw [hLevel]; decide) (fun _ => hSuffixed)
    (fun _ => unary_of_suffixed hSuffixed) ?_
  intro least hLeast s m rest x hs hm hOperands
  exact .binary (unary_of_suffixed hSuffixed hs (hm.mono (Nat.min_le_right _ _))) hOperands

/-- An expression that is read where no suffix was looked for yet. -/
theorem of_primary (hRegular : e.Regular) (hLevel : e.precedence = primaryPrecedence)
    (hPrimary : ∀ {s m}, e.Stands layout s m → m.Leaves primaryPrecedence →
      s.IsPlain ∧ Parses .primary s [e.place s.index] m) : ReadsBack layout e :=
  of_suffixed hRegular hLevel fun hs hm hSuffixes =>
    .simple (hPrimary hs hm).1 (hPrimary hs hm).2 hSuffixes

/-- An expression that is no operand. -/
theorem of_low (hLevel : e.precedence ≤ 2)
    (hAssignment : 2 ≤ e.precedence → ∀ {s m}, e.Stands layout s m → m.Leaves 2 →
      Parses .assignment s [e.place s.index] m)
    (hExpression : ∀ {s m}, e.Stands layout s m → m.Leaves 1 →
      Parses .expression s [e.place s.index] m) :
    ReadsBack layout e := by
  have hOr : BinaryOp.or.precedence = 3 := rfl
  have hUnary : unaryPrecedence = 14 := rfl
  have hPrimary : primaryPrecedence = 16 := rfl
  exact ⟨fun _ => by omega, fun _ => by omega, fun _ _ => by omega, hAssignment, hExpression⟩

/-- Assignments and conditional expressions. -/
theorem of_assignment (hLevel : e.precedence = 2)
    (hAssignment : ∀ {s m}, e.Stands layout s m → m.Leaves 2 →
      Parses .assignment s [e.place s.index] m) :
    ReadsBack layout e :=
  of_low (Nat.le_of_eq hLevel) (fun _ => hAssignment)
    fun hs hm => .expression (hAssignment hs (hm.mono (by decide)))
      (.noItem (hm.not_isAt (by decide)))

theorem items {es : List Expr} (hEach : ∀ e ∈ es, ReadsBack layout e)
    (hLevel : ∀ e ∈ es, 2 ≤ e.precedence) (hs : ItemsStand layout es s m) (hm : m.Leaves 1) :
    Parses .items s (placeAll (s.index + 1) es) m ∧ s.Leaves 2 := by
  induction es generalizing s with
  | nil =>
      obtain rfl := hs.nil
      exact ⟨.noItem (hm.not_isAt (by decide)), hm.mono (by decide)⟩
  | cons e es ih =>
      obtain ⟨k, l, hComma, hFirst, hItems⟩ := hs.cons
      obtain ⟨hRest, hLeaves⟩ := ih (fun e he => hEach e (List.mem_cons_of_mem _ he))
        (fun e he => hLevel e (List.mem_cons_of_mem _ he)) hItems
      have hAssignment :=
        (hEach e List.mem_cons_self).assignment (hLevel e List.mem_cons_self) hFirst hLeaves
      refine ⟨?_, hComma.leaves (by decide)⟩
      rw [placeAll, ← hComma.index, ← hFirst.index]
      exact .item hComma.isAt (hComma.next_eq ▸ hAssignment) hRest

/-- Arguments are read up to what closes them. -/
theorem arguments {es : List Expr} (hEach : ∀ e ∈ es, ReadsBack layout e)
    (hLevel : ∀ e ∈ es, 2 ≤ e.precedence) (hRegular : ∀ e ∈ es, e.Regular)
    (hs : AllStand layout es s m) (hm : m.IsMark layout ")" k) :
    Parses .arguments s (placeAll s.index es) m := by
  cases es with
  | nil =>
      obtain rfl := hs.nil
      exact .noArguments hm.isAt
  | cons e es =>
      obtain ⟨l, hFirst, hItems⟩ := hs.cons
      obtain ⟨hRest, hLeaves⟩ := items (fun e he => hEach e (List.mem_cons_of_mem _ he))
        (fun e he => hLevel e (List.mem_cons_of_mem _ he)) hItems (hm.leaves (by decide))
      rw [placeAll, ← hFirst.index]
      exact .arguments ((hRegular e List.mem_cons_self).starts hFirst).not_closed
        ((hEach e List.mem_cons_self).assignment (hLevel e List.mem_cons_self) hFirst hLeaves) hRest

/-- A literal is no operator and no word. -/
theorem isPlain_of_kind {t : Token} (ht : t ∈ s.peek?)
    (hKind : t.kind = .number ∨ t.kind = .char ∨ t.kind = .string) : s.IsPlain := by
  have hHead : Head.of t = .other ∧ t.isPunct "(" = false := by
    rcases hKind with hKind | hKind | hKind <;>
      simp [Head.of, Source.operator?, Token.isNamed, Token.isPunct, hKind]
  refine ⟨t, ht, hHead.1, fun hParen => ?_⟩
  rw [hHead.2] at hParen
  cases hParen

theorem constant {t : Token} (hKind : t.kind = .number ∨ t.kind = .char) :
    ReadsBack layout (.literal r [t]) := by
  refine of_primary (.constant hKind) rfl fun {s m} hs _ => ?_
  obtain ⟨i, ts⟩ := s
  obtain ⟨j, us⟩ := m
  obtain ⟨hTokens, hIndex⟩ := hs
  simp only [print, List.singleton_append] at hTokens
  simp only [size, List.length_singleton] at hIndex
  subst hTokens hIndex
  exact ⟨isPlain_of_kind (t := t) rfl (by tauto), .atom (.constant hKind)⟩

/-- Adjacent strings are taken together. -/
theorem strings_append {tokens tail : List Token} {i : Nat} (hKind : ∀ t ∈ tokens, t.kind = .string)
    (hTail : ∀ t ∈ tail.head?, t.kind ≠ .string) :
    Source.strings i (tokens ++ tail) = (tokens, ⟨i + tokens.length, tail⟩) := by
  induction tokens generalizing i with
  | nil => exact Source.strings_of_head? hTail
  | cons t tokens ih =>
      rw [List.cons_append, Source.strings, if_pos (hKind t List.mem_cons_self),
        ih fun t ht => hKind t (List.mem_cons_of_mem _ ht), List.length_cons,
        show i + 1 + tokens.length = i + (tokens.length + 1) by omega]

theorem strings {tokens : List Token} (hSome : tokens ≠ [])
    (hKind : ∀ t ∈ tokens, t.kind = .string) : ReadsBack layout (.literal r tokens) := by
  refine of_primary (.strings hSome hKind) rfl fun {s m} hs hm => ?_
  have hFound := strings_append (i := s.index) hKind hm.noString
  obtain ⟨t, ts, rfl⟩ := List.exists_cons_of_ne_nil hSome
  obtain ⟨i, us⟩ := s
  obtain ⟨j, vs⟩ := m
  obtain ⟨hTokens, hIndex⟩ := hs
  simp only [print] at hTokens
  simp only [size] at hIndex
  subst hTokens hIndex
  have hString := hKind t List.mem_cons_self
  exact ⟨isPlain_of_kind (t := t) rfl (.inr (.inr hString)), .atom (.strings hString hFound)⟩

theorem name (hName : text ∉ words) : ReadsBack layout (.name r text) := by
  refine of_primary (.name hName) rfl fun {s m} hs hm => ?_
  have hScope : ∀ t ∈ m.tokens.head?, Source.operator? t ≠ some "::" := by
    intro t ht hScope
    have hNext : m.isAt "::" = true := by
      simp [Source.isAt, Source.op?, Source.peek?, Option.mem_def.mp ht, hScope]
    rw [hm.not_isAt (by decide)] at hNext
    cases hNext
  obtain ⟨i, us⟩ := s
  obtain ⟨j, vs⟩ := m
  obtain ⟨hTokens, hIndex⟩ := hs
  simp only [print, List.singleton_append] at hTokens
  simp only [size] at hIndex
  subst hTokens hIndex
  constructor
  · refine ⟨word layout i text, rfl, ?_, fun hParen => by cases hParen⟩
    have hNot : ∀ other ∈ words, (word layout i text).isNamed other = false :=
      fun other => isNamed_of_name i hName
    rw [Head.of, operator?_of_name i hName, Option.bind_none]
    simp only [hNot "sizeof" (by decide), hNot "alignof" (by decide), hNot "new" (by decide),
      hNot "delete" (by decide), Bool.or_self, Bool.false_eq_true, if_false]
  · have hCast : Keyword.namedCasts.contains (word layout i text).spelling = false := by
      rw [spelling_word]
      refine Bool.eq_false_iff.mpr fun hCast => hName ?_
      simp only [List.contains_iff_mem] at hCast
      simp [words, hCast]
    have hParts : Source.nameParts (word layout i text).spelling (i + 1) vs
        = .ok ((word layout i text).spelling, ⟨i + 1, vs⟩) := Source.nameParts_of_head? hScope
    have hAtom := Parses.atom (.name (i := i) rfl hCast hParts)
    rwa [spelling_word] at hAtom

/-- A mark at which an operand starts. -/
theorem head_mark (i : Nat) (op : UnaryOp) : Head.of (mark layout i op.symbol) = .operator op := by
  rw [Head.of, operator?_mark, Option.bind_some, UnaryOp.ofSymbol?_symbol]

theorem head_paren (i : Nat) : Head.of (mark layout i "(") = .other := by
  have hNone : UnaryOp.ofSymbol? "(" = none := by decide
  rw [Head.of, operator?_mark, Option.bind_some, hNone]
  rfl

theorem paren (h : e.Regular) (hInner : ReadsBack layout e) : ReadsBack layout (.paren r e) := by
  refine of_primary (.paren h) rfl fun {s m} hs _ => ?_
  obtain ⟨k, l, hOpen, hInside, hClose⟩ := hs.paren
  have hCast := h.castType?_eq_none hOpen hInside hClose
  constructor
  · exact ⟨mark layout s.index "(",
      by simp [Source.peek?, hOpen.tokens], head_paren _, fun _ => hCast⟩
  · have hOpening : Opening s .paren k := by
      rw [hOpen.eq_cons, show k = ⟨s.index + 1, k.tokens⟩ by rw [← hOpen.index]]
      exact .paren (by simp)
    rw [place, hs.range_eq, ← hOpen.index]
    exact .enclosed hOpening (hInner.expression hInside (hClose.leaves (by decide))) hClose.expect

theorem of_operator {op : UnaryOp} (h : (Expr.unary r op e).Regular)
    (hLevel : unaryPrecedence ≤ e.precedence) (hOperand : ReadsBack layout e) :
    ReadsBack layout (.unary r op e) := by
  refine of_unary h rfl fun {s m} hs hm => ?_
  obtain ⟨k, hMark, hInside⟩ := hs.unary
  have hPrefix : Prefix .unary s (.unary · op) k := by
    rw [hMark.eq_cons, show k = ⟨s.index + 1, k.tokens⟩ by rw [← hMark.index]]
    exact .operator (head_mark _ op)
  rw [place, hs.range_eq, ← hMark.index]
  exact .prefixed hPrefix (hOperand.unary hLevel hInside hm)

theorem map_intercalate {α β : Type} (f : α → β) (separator : List α) (parts : List (List α)) :
    (separator.intercalate parts).map f = (separator.map f).intercalate
    (parts.map (List.map f)) := by
  induction parts with
  | nil => rfl
  | cons x parts ih =>
      cases parts with
      | nil => simp [List.intercalate]
      | cons y parts =>
          simp only [List.intercalate, List.map_cons, List.intersperse_cons_cons, List.flatten_cons,
            List.map_append] at ih ⊢
          rw [ih]

/-- The parts of a type have no blank in them, so they are found again in its text. -/
theorem castWords_intercalate {parts : List String} (hParts : ∀ w ∈ parts, w ∈ typeWords)
    (hSome : parts ≠ []) : castWords (" ".intercalate parts) = parts := by
  have hBlank : ∀ w ∈ typeWords, ' ' ∉ w.toList := by decide
  have hText : Text.ofString (" ".intercalate parts) = [SourceChar.char ' '].intercalate
      (parts.map Text.ofString) := by
    rw [Text.ofString, String.toList_intercalate, map_intercalate, List.map_map]
    rfl
  rw [castWords, hText, List.splitOn_intercalate]
  · simp [Function.comp_def]
  · intro w hw
    obtain ⟨part, hPart, rfl⟩ := List.mem_map.mp hw
    have hNot := hBlank part (hParts part hPart)
    simpa [Text.ofString] using hNot
  · simpa using hSome

theorem cast {parts : List String} (h : (Expr.cast r (" ".intercalate parts) e).Regular)
    (hParts : ∀ w ∈ parts, w ∈ typeWords) (hType : ∃ w ∈ parts, w ∈ Keyword.arithmeticTypes)
    (hRegular : e.Regular) (hLevel : unaryPrecedence ≤ e.precedence)
    (hOperand : ReadsBack layout e) : ReadsBack layout (.cast r (" ".intercalate parts) e) := by
  refine of_unary h rfl fun {s m} hs hm => ?_
  obtain ⟨w, hw, hArithmetic⟩ := hType
  obtain ⟨k, l, hTokens, hIndex, hClose, hInside⟩ := hs.cast
  have hWords := castWords_intercalate hParts (List.ne_nil_of_mem hw)
  rw [hWords] at hTokens hIndex
  have hPrefix : Prefix .unary s (.cast · (" ".intercalate parts)) l := by
    have hFound : s.castType? = some (Text.ofString (" ".intercalate parts), l) := by
      have hAny : parts.any Keyword.arithmeticTypes.contains = true := by
        simpa using ⟨w, hw, hArithmetic⟩
      have hRest : l.tokens.isEmpty = false := by
        simpa using (hRegular.starts hInside).tokens_ne_nil
      rw [Source.castType?, hTokens, List.drop_one, List.tail_cons, hClose.tokens,
        typeWords?_printWords hParts]
      simp only [List.nil_append, hAny, hRest, Bool.not_false, Bool.and_self, if_true]
      rw [← hIndex, ← hClose.index]
    have hCons :
        s = ⟨s.index, mark layout s.index "(" :: (printWords layout (s.index + 1) parts
          ++ k.tokens)⟩ := by
      rw [← hTokens]
    rw [hCons] at hFound ⊢
    exact .cast (by simp) hFound
  rw [place, hs.range_eq, hWords, ← hIndex, ← hClose.index]
  exact .prefixed hPrefix (hOperand.unary hLevel hInside hm)

theorem of_operands {op : BinaryOp} (h : (Expr.binary r op a b).Regular)
    (hLevel : op.precedence ≤ a.precedence) (hLevel' : op.precedence < b.precedence)
    (hLeft : ReadsBack layout a) (hRight : ReadsBack layout b) :
    ReadsBack layout (.binary r op a b) := by
  have hOp : 3 ≤ op.precedence ∧ op.precedence < 14 := by cases op <;> decide
  have hPrecedence : (Expr.binary r op a b).precedence = op.precedence := rfl
  have hOr : BinaryOp.or.precedence = 3 := rfl
  have hUnary : unaryPrecedence = 14 := rfl
  refine of_binary h (by omega) (fun hNot => ?_) (fun hNot => ?_) ?_
  · rw [hPrecedence, show primaryPrecedence = 16 from rfl] at hNot
    omega
  · omega
  · intro least hLeast s m rest x hs hm hOperands
    rw [hPrecedence] at hLeast hm
    obtain ⟨k, l, hFirst, hMark, hSecond⟩ := hs.binary
    have hNext : k.op?.bind BinaryOp.ofSymbol? = some op := by
      rw [hMark.op?_eq, Option.bind_some, BinaryOp.ofSymbol?_symbol]
    have hSecond' : Parses (.binary (op.precedence + 1)) k.next [b.place l.index] m := by
      rw [hMark.next_eq]
      exact hRight.binary hLevel' (by omega) hSecond (hm.mono (by omega))
        (.lastOperand (hm.binaryEnds (by omega)))
    refine hLeft.binary (by omega) (by omega) hFirst (hMark.leaves (by rw [grip_binary]; omega)) ?_
    refine .operand hNext hLeast hSecond' ?_
    rwa [place, hs.range_eq, ← hFirst.index, ← hMark.index] at hOperands

theorem conditional (h : (Expr.conditional r a b c).Regular)
    (hLevel : BinaryOp.or.precedence ≤ a.precedence) (hLevel' : 2 ≤ c.precedence)
    (hCondition : ReadsBack layout a) (hTrue : ReadsBack layout b) (hFalse : ReadsBack layout c) :
    ReadsBack layout (.conditional r a b c) := by
  refine of_assignment rfl fun {s m} hs hm => ?_
  obtain ⟨k, l, n, o, hFirst, hMark, hSecond, hColon, hThird⟩ := hs.conditional
  have hEnds := hm.assignmentEnds
  have hOr : BinaryOp.or.precedence = 3 := rfl
  have hUnary : unaryPrecedence = 14 := rfl
  have hGrip : grip "?" = 3 := by decide
  have hRead : Parses (.binary BinaryOp.or.precedence) s [a.place s.index] k := by
    refine hCondition.binary hLevel hLevel hFirst (hMark.leaves (by omega))
      (.lastOperand fun op hOp => ?_)
    rw [hMark.op?_eq] at hOp
    exact absurd hOp (by decide +revert)
  have hRead' : Parses .expression k.next [b.place l.index] n := by
    rw [hMark.next_eq]
    exact hTrue.expression hSecond (hColon.leaves (by decide))
  have hRead'' := hFalse.assignment hLevel' hThird hm
  rw [place, hs.range_eq, ← hFirst.index, ← hMark.index, ← hSecond.index, ← hColon.index]
  exact .unassigned (h.starts hs).not_throw
    (.conditional hRead hMark.isAt hRead' hColon.expect hRead'') hEnds.2

theorem assign {op : AssignOp} (h : (Expr.assign r op a b).Regular) (hOp : op ∈ AssignOp.all)
    (hLevel : BinaryOp.or.precedence ≤ a.precedence) (hLevel' : 2 ≤ b.precedence)
    (hTarget : ReadsBack layout a) (hValue : ReadsBack layout b) :
    ReadsBack layout (.assign r op a b) := by
  refine of_assignment rfl fun {s m} hs hm => ?_
  obtain ⟨k, l, hFirst, hMark, hSecond⟩ := hs.assign
  have hUnary : unaryPrecedence = 14 := rfl
  have hOr : BinaryOp.or.precedence = 3 := rfl
  have hGrip := grip_assign op hOp
  have hOther : BinaryOp.ofSymbol? op.symbol = none ∧ op.symbol ≠ "?" := by
    have hAll : ∀ op ∈ AssignOp.all, BinaryOp.ofSymbol? op.symbol = none ∧ op.symbol ≠ "?" := by
      decide
    exact hAll op hOp
  have hNext : k.op?.bind AssignOp.ofSymbol? = some op := by
    rw [hMark.op?_eq, Option.bind_some, AssignOp.ofSymbol?_symbol op hOp]
  have hRead : Parses .conditional s [a.place s.index] k := by
    refine .unconditional (hTarget.binary hLevel hLevel hFirst (hMark.leaves (by omega))
      (.lastOperand fun op' hOp' => ?_)) ?_
    · rw [hMark.op?_eq, Option.bind_some, hOther.1] at hOp'
      cases hOp'
    · simpa [Source.isAt, hMark.op?_eq] using hOther.2
  have hRead' : Parses .assignment k.next [b.place l.index] m := by
    rw [hMark.next_eq]
    exact hValue.assignment hLevel' hSecond hm
  rw [place, hs.range_eq, ← hFirst.index, ← hMark.index]
  exact .assign (h.starts hs).not_throw hRead hNext hRead'

theorem comma {es : List Expr} (hTwo : 2 ≤ es.length) (hLevel : ∀ e ∈ es, 2 ≤ e.precedence)
    (hEach : ∀ e ∈ es, ReadsBack layout e) : ReadsBack layout (.comma r es) := by
  have hOne : (Expr.comma r es).precedence = 1 := rfl
  refine of_low (by omega) (fun _ => by omega) fun {s m} hs hm => ?_
  have hRange := hs.range_eq
  obtain ⟨e, es, rfl⟩ :=
    List.exists_cons_of_ne_nil (List.ne_nil_of_length_pos (Nat.lt_of_lt_of_le Nat.two_pos hTwo))
  obtain ⟨k, hFirst, hItems⟩ := hs.comma.cons
  obtain ⟨hRest, hLeaves⟩ := items (fun e he => hEach e (List.mem_cons_of_mem _ he))
    (fun e he => hLevel e (List.mem_cons_of_mem _ he)) hItems hm
  have hHead := (hEach e List.mem_cons_self).assignment (hLevel e List.mem_cons_self) hFirst hLeaves
  have hRead := Parses.expression hHead hRest
  obtain ⟨e', es, rfl⟩ :=
    List.exists_cons_of_ne_nil (List.ne_nil_of_length_pos (Nat.le_of_succ_le_succ hTwo))
  rw [place, hRange, placeAll, ← hFirst.index]
  exact hRead

theorem call {es : List Expr} (h : (Expr.call r e es).Regular)
    (hLevel : e.precedence = primaryPrecedence) (hLevel' : ∀ e ∈ es, 2 ≤ e.precedence)
    (hRegular : ∀ e ∈ es, e.Regular) (hCallee : ReadsBack layout e)
    (hEach : ∀ e ∈ es, ReadsBack layout e) : ReadsBack layout (.call r e es) := by
  refine of_suffixed h rfl fun {s m rest x} hs hm hSuffixes => ?_
  obtain ⟨k, l, n, hBase, hOpen, hInside, hClose⟩ := hs.call
  have hArguments : Parses .arguments k.next (placeAll l.index es) n := by
    rw [hOpen.next_eq]
    exact arguments hEach hLevel' hRegular hInside hClose
  refine hCallee.suffixed hLevel hBase (hOpen.leaves (by decide)) ?_
  rw [place, hs.range_eq, ← hBase.index, ← hOpen.index] at hSuffixes
  exact .bracket .call hOpen.isAt hArguments hClose.expect hSuffixes

theorem subscript (h : (Expr.subscript r a b).Regular) (hLevel : a.precedence = primaryPrecedence)
    (hBase : ReadsBack layout a) (hIndex : ReadsBack layout b) :
    ReadsBack layout (.subscript r a b) := by
  refine of_suffixed h rfl fun {s m rest x} hs hm hSuffixes => ?_
  obtain ⟨k, l, n, hFirst, hOpen, hInside, hClose⟩ := hs.subscript
  have hRead : Parses .expression k.next [b.place l.index] n := by
    rw [hOpen.next_eq]
    exact hIndex.expression hInside (hClose.leaves (by decide))
  refine hBase.suffixed hLevel hFirst (hOpen.leaves (by decide)) ?_
  rw [place, hs.range_eq, ← hFirst.index, ← hOpen.index] at hSuffixes
  exact .bracket .subscript hOpen.isAt hRead hClose.expect hSuffixes

theorem member {op part : String} (h : (Expr.member r op e part).Regular)
    (hOp : op = "." ∨ op = "->") (hLevel : e.precedence = primaryPrecedence)
    (hBase : ReadsBack layout e) : ReadsBack layout (.member r op e part) := by
  refine of_suffixed h rfl fun {s m rest x} hs hm hSuffixes => ?_
  obtain ⟨k, hFirst, hTokens, hIndex⟩ := hs.member
  have hMark : k.IsMark layout op ⟨k.index + 1, word layout (k.index + 1) part :: m.tokens⟩ :=
    ⟨hTokens, rfl⟩
  have hSuffix : Suffix k (fun r e => .member r op e part) m := by
    rw [hMark.eq_cons, show m = ⟨k.index + 2, m.tokens⟩ by rw [← hIndex]]
    have hSuffix :
      Suffix ⟨k.index, mark layout k.index op :: word layout (k.index + 1) part :: m.tokens⟩
        (fun r e => .member r op e (word layout (k.index + 1) part).spelling)
        ⟨k.index + 2, m.tokens⟩ :=
      .member (operator?_mark layout k.index op) hOp (isIdentifier_word layout (k.index + 1) part)
    rwa [spelling_word] at hSuffix
  refine hBase.suffixed hLevel hFirst (hMark.leaves ?_) ?_
  · rcases hOp with rfl | rfl <;> decide
  · rw [place, hs.range_eq] at hSuffixes
    exact .suffix hSuffix hSuffixes

theorem stepped {op : StepOp} (h : (Expr.stepped r op e).Regular)
    (hLevel : e.precedence = primaryPrecedence) (hBase : ReadsBack layout e) :
    ReadsBack layout (.stepped r op e) := by
  refine of_suffixed h rfl fun {s m rest x} hs hm hSuffixes => ?_
  obtain ⟨k, hFirst, hMark⟩ := hs.stepped
  have hSuffix : Suffix k (.stepped · op) m := by
    rw [hMark.eq_cons, show m = ⟨k.index + 1, m.tokens⟩ by rw [← hMark.index]]
    exact .step (operator?_mark layout k.index op.symbol) op.ofSymbol?_symbol
  refine hBase.suffixed hLevel hFirst (hMark.leaves (by cases op <;> decide)) ?_
  rw [place, hs.range_eq] at hSuffixes
  exact .suffix hSuffix hSuffixes

end ReadsBack

/-- Each expression that keeps to the levels of the grammar is read as itself. -/
theorem Regular.readsBack (h : e.Regular) (layout : Nat → Token) : ReadsBack layout e := by
  induction h with
  | constant hKind => exact .constant hKind
  | strings hSome hKind => exact .strings hSome hKind
  | name hName => exact .name hName
  | paren hInner ih => exact .paren hInner ih
  | unary hOperand hLevel ih => exact .of_operator (.unary hOperand hLevel) hLevel ih
  | cast hParts hType hOperand hLevel ih =>
      exact .cast (.cast hParts hType hOperand hLevel) hParts hType hOperand hLevel ih
  | binary hLeft hRight hLevel hLevel' ihLeft ihRight =>
      exact .of_operands (.binary hLeft hRight hLevel hLevel') hLevel hLevel' ihLeft ihRight
  | conditional hCondition hTrue hFalse hLevel hLevel' ihCondition ihTrue ihFalse =>
      exact .conditional (.conditional hCondition hTrue hFalse hLevel hLevel') hLevel hLevel'
        ihCondition ihTrue ihFalse
  | assign hOp hTarget hValue hLevel hLevel' ihTarget ihValue =>
      exact .assign (.assign hOp hTarget hValue hLevel hLevel') hOp hLevel hLevel' ihTarget ihValue
  | comma hTwo hItems hLevel ih => exact .comma hTwo hLevel ih
  | call hCallee hArguments hLevel hLevel' ihCallee ihArguments =>
      exact .call (.call hCallee hArguments hLevel hLevel') hLevel hLevel' hArguments ihCallee
        ihArguments
  | subscript hBase hIndex hLevel ihBase ihIndex =>
      exact .subscript (.subscript hBase hIndex hLevel) hLevel ihBase ihIndex
  | member hOp hBase hLevel ih => exact .member (.member hOp hBase hLevel) hOp hLevel ih
  | stepped hBase hLevel ih => exact .stepped (.stepped hBase hLevel) hLevel ih

/-- Parsing undoes printing. -/
theorem Regular.parse_print (h : e.Regular) (layout : Nat → Token) :
    parse (e.print layout 0) = .ok (e.place 0) := by
  have hStands : e.Stands layout ⟨0, e.print layout 0⟩ ⟨0 + e.size, []⟩ :=
    ⟨(List.append_nil _).symm, rfl⟩
  have hParses := (h.readsBack layout).expression hStands (Source.leaves_end _ _)
  obtain ⟨used, hTokens, hIndex⟩ := hParses.leads
  simp only [List.append_nil] at hTokens
  rw [parse_eq_ok_iff, hTokens]
  simp only [Nat.zero_add] at hIndex
  rw [← hIndex, ← hTokens]
  simpa using hParses

/-- **Parsing and printing.** An expression that keeps to the levels of the grammar is read from the
tokens that it is spelled with, however these are laid out. Whatever is read covers all tokens, and
each node of it is well grouped. -/
theorem parse_print_and_wellGrouped :
    (∀ (layout : Nat → Token) (e : Expr), e.Regular → parse (e.print layout 0) = .ok (e.place 0))
      ∧ ∀ (tokens : List Token) (e : Expr), parse tokens = .ok e →
        e.range = ⟨0, tokens.length⟩ ∧ ∀ X ∈ e.nodes, X.WellGrouped := by
  refine ⟨fun layout e h => h.parse_print layout, fun tokens e h => ?_⟩
  have hParses := parse_eq_ok_iff.mp h
  exact ⟨hParses.covers.range_eq, by simpa using hParses.wellGrouped trivial⟩

/-- `a - (b - c), (unsigned int) - x`, where the nodes cover no tokens yet. -/
def unplaced : Expr :=
  .comma ⟨0, 0⟩ [.binary ⟨0, 0⟩ .sub (.name ⟨0, 0⟩ "a")
      (.paren ⟨0, 0⟩ (.binary ⟨0, 0⟩ .sub (.name ⟨0, 0⟩ "b") (.name ⟨0, 0⟩ "c"))),
    .cast ⟨0, 0⟩ (" ".intercalate ["unsigned", "int"]) (.unary ⟨0, 0⟩ .minus (.name ⟨0, 0⟩ "x"))]

theorem regular_unplaced : unplaced.Regular := by
  have hName : ∀ text ∉ words, (Expr.name ⟨0, 0⟩ text).Regular := fun _ => .name
  refine .comma (by decide) ?_ ?_
  · refine List.forall_mem_cons.mpr ⟨?_, List.forall_mem_singleton.mpr ?_⟩
    · exact .binary (hName "a" (by decide))
        (.paren (.binary (hName "b" (by decide)) (hName "c" (by decide)) (by decide) (by decide)))
        (by decide) (by decide)
    · exact .cast (by decide) ⟨"int", by decide, by decide⟩
        (.unary (hName "x" (by decide)) (by decide)) (by decide)
  · decide

/-- The tokens of a text of one line in which one blank stands in front of each token. -/
def spacedLine (i : Nat) : Token :=
  ⟨.other, [], ⟨"", 2 * i, 2 * i + 1, 1, 2 * i + 1⟩, i == 0, true⟩

theorem parse_print_unplaced : unplaced.Regular
    ∧ parse (unplaced.print spacedLine 0) = .ok (unplaced.place 0)
    ∧ (unplaced.place 0).range = ⟨0, 14⟩ ∧ ∀ X ∈ (unplaced.place 0).nodes, X.WellGrouped := by
  have hParse := parse_print_and_wellGrouped.1 spacedLine unplaced regular_unplaced
  obtain ⟨hRange, hGrouped⟩ := parse_print_and_wellGrouped.2 _ _ hParse
  exact ⟨regular_unplaced, hParse, by rw [hRange]; rfl, hGrouped⟩

end Demacro.Expr
