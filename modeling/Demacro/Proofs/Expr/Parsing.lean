import Demacro.Proofs.Expr.Locality

/-!
The parser reads what the grammar says. Whatever it reads within some steps is read by the rules,
and what the rules read takes it no more steps than the tokens allow.
-/

namespace Demacro.Expr

/-- The parser for a goal. -/
def Goal.run (fuel : Nat) (s : Source) : Goal → Except SyntaxFault (List Expr × Source)
  | .expression => (parseExpression fuel s).map fun (e, rest) => ([e], rest)
  | .items => parseItems fuel s
  | .assignment => (parseAssignment fuel s).map fun (e, rest) => ([e], rest)
  | .conditional => (parseConditional fuel s).map fun (e, rest) => ([e], rest)
  | .binary least => (parseBinary fuel least s).map fun (e, rest) => ([e], rest)
  | .operands least start left =>
      (parseOperands fuel least start left s).map fun (e, rest) => ([e], rest)
  | .unary => (parseUnary fuel s).map fun (e, rest) => ([e], rest)
  | .suffixes start base => (parseSuffixes fuel start base s).map fun (e, rest) => ([e], rest)
  | .arguments => parseArguments fuel s
  | .primary => (parsePrimary fuel s).map fun (e, rest) => ([e], rest)

theorem map_single_eq_ok_iff {x : Parsed} {es : List Expr} {rest : Source} :
    (x.map fun (e, rest) => ([e], rest)) = .ok (es, rest) ↔ ∃ e, es = [e] ∧ x = .ok (e, rest) := by
  rw [Except.map_eq_ok_iff]
  constructor
  · rintro ⟨⟨e, rest⟩, hx, h⟩
    cases h
    exact ⟨e, rfl, hx⟩
  · rintro ⟨e, rfl, hx⟩
    exact ⟨(e, rest), hx, rfl⟩

/-- How an operand is read that starts with a given token. -/
theorem parseUnary_cons (fuel i : Nat) (t : Token) (ts : List Token) :
    parseUnary (fuel + 1) ⟨i, t :: ts⟩ =
      (match Head.of t with
      | .operator op => do
        let (e, rest) ← parseUnary fuel ⟨i + 1, ts⟩
        return (.unary ⟨i, rest.index⟩ op e, rest)
      | .measure =>
        if (Source.mk (i + 1) ts).isAt "(" then do
          let rest ← (Source.mk (i + 1) ts).skipGroup "(" ")"
          return (.measure ⟨i, rest.index⟩ t.spelling none, rest)
        else do
          let (e, rest) ← parseUnary fuel ⟨i + 1, ts⟩
          return (.measure ⟨i, rest.index⟩ t.spelling (some e), rest)
      | .allocate => do
        let rest ← (Source.mk (i + 1) ts).skipAllocation
        return (.allocate ⟨i, rest.index⟩, rest)
      | .free =>
        (if (Source.mk (i + 1) ts).isAt "[" then (Source.mk (i + 1) ts).next.expect "]"
          else .ok ⟨i + 1, ts⟩) >>= fun rest => do
            let (e, rest) ← parseUnary fuel rest
            return (.free ⟨i, rest.index⟩ e, rest)
      | .other =>
        match if t.isPunct "(" then (Source.mk i (t :: ts)).castType? else none with
        | some (type, rest) => do
          let (e, rest) ← parseUnary fuel rest
          return (.cast ⟨i, rest.index⟩ type e, rest)
        | none => do
          let (e, rest) ← parsePrimary fuel ⟨i, t :: ts⟩
          parseSuffixes fuel i e rest) := by
  rw [parseUnary, Head.of]
  dsimp only [Source.peek?, List.head?_cons]
  cases hOp : (Source.operator? t).bind UnaryOp.ofSymbol? with
  | some op => rfl
  | none =>
      dsimp only
      split
      · rfl
      split
      · rfl
      split
      · dsimp only
        split
        · rename_i hOpen
          rw [if_pos (show (Source.mk (i + 1) ts).isAt "[" = true from hOpen)]
          rfl
        · rename_i hOpen
          rw [if_neg (show ¬ (Source.mk (i + 1) ts).isAt "[" = true from hOpen)]
          rfl
      · rfl

/-- The rules for all goals within some steps. -/
def Reads (fuel : Nat) : Prop :=
  ∀ {g : Goal} {s rest : Source} {es : List Expr}, g.run fuel s = .ok (es, rest) →
    Parses g s es rest

namespace Reads

variable {fuel : Nat} {s rest : Source} {e : Expr} {es : List Expr}

theorem single {g : Goal} (hReads : Reads fuel) {x : Parsed}
    (hRun : g.run fuel s = x.map fun (e, rest) => ([e], rest)) (h : x = .ok (e, rest)) :
    Parses g s [e] rest :=
  hReads (hRun.trans (map_single_eq_ok_iff.mpr ⟨e, rfl, h⟩))

theorem expression (hReads : Reads fuel) (h : parseExpression (fuel + 1) s = .ok (e, rest)) :
    Parses .expression s [e] rest := by
  unfold parseExpression at h
  obtain ⟨⟨first, m⟩, hFirst, h⟩ := Except.bind_eq_ok_iff.mp h
  obtain ⟨⟨items, k⟩, hItems, h⟩ := Except.bind_eq_ok_iff.mp h
  cases h
  exact .expression (hReads.single rfl hFirst) (hReads (g := .items) hItems)

theorem items (hReads : Reads fuel) (h : parseItems (fuel + 1) s = .ok (es, rest)) :
    Parses .items s es rest := by
  unfold parseItems at h
  split at h
  · rename_i hNext
    obtain ⟨⟨first, m⟩, hFirst, h⟩ := Except.bind_eq_ok_iff.mp h
    obtain ⟨⟨items, k⟩, hItems, h⟩ := Except.bind_eq_ok_iff.mp h
    cases h
    exact .item hNext (hReads.single rfl hFirst) (hReads (g := .items) hItems)
  · rename_i hNext
    cases h
    exact .noItem (by simpa using hNext)

theorem assignment (hReads : Reads fuel) (h : parseAssignment (fuel + 1) s = .ok (e, rest)) :
    Parses .assignment s [e] rest := by
  unfold parseAssignment at h
  split at h
  · rename_i hHead
    obtain ⟨i, ts⟩ := s
    cases ts with
    | nil => cases hHead
    | cons t ts =>
        have hThrow : t.isNamed "throw" = true := hHead
        split at h
        · rename_i hEnd
          cases h
          exact .atom (.raise hThrow hEnd)
        · rename_i hEnd
          obtain ⟨⟨operand, m⟩, hOperand, h⟩ := Except.bind_eq_ok_iff.mp h
          cases h
          exact .prefixed (.throw hThrow (Bool.eq_false_iff.mpr hEnd)) (hReads.single rfl hOperand)
  · rename_i hHead
    obtain ⟨⟨target, m⟩, hTarget, h⟩ := Except.bind_eq_ok_iff.mp h
    have hHead : s.isAtName "throw" = false := by simpa using hHead
    dsimp only at h
    split at h
    · rename_i op hOp
      obtain ⟨⟨value, k⟩, hValue, h⟩ := Except.bind_eq_ok_iff.mp h
      cases h
      exact .assign hHead (hReads.single rfl hTarget) hOp (hReads.single rfl hValue)
    · rename_i hOp
      cases h
      exact .unassigned hHead (hReads.single rfl hTarget) hOp

theorem conditional (hReads : Reads fuel) (h : parseConditional (fuel + 1) s = .ok (e, rest)) :
    Parses .conditional s [e] rest := by
  unfold parseConditional at h
  obtain ⟨⟨condition, m⟩, hCondition, h⟩ := Except.bind_eq_ok_iff.mp h
  dsimp only at h
  split at h
  · rename_i hMark
    obtain ⟨⟨whenTrue, k⟩, hTrue, h⟩ := Except.bind_eq_ok_iff.mp h
    obtain ⟨l, hColon, h⟩ := Except.bind_eq_ok_iff.mp h
    obtain ⟨⟨whenFalse, n⟩, hFalse, h⟩ := Except.bind_eq_ok_iff.mp h
    cases h
    exact .conditional (hReads.single rfl hCondition) hMark (hReads.single rfl hTrue) hColon
      (hReads.single rfl hFalse)
  · rename_i hMark
    cases h
    exact .unconditional (hReads.single rfl hCondition) (by simpa using hMark)

theorem binary {least : Nat} (hReads : Reads fuel)
    (h : parseBinary (fuel + 1) least s = .ok (e, rest)) : Parses (.binary least) s [e] rest := by
  unfold parseBinary at h
  obtain ⟨⟨left, m⟩, hLeft, h⟩ := Except.bind_eq_ok_iff.mp h
  exact .binary (hReads.single rfl hLeft) (hReads.single rfl h)

theorem operands {least start : Nat} {left : Expr} (hReads : Reads fuel)
    (h : parseOperands (fuel + 1) least start left s = .ok (e, rest)) :
    Parses (.operands least start left) s [e] rest := by
  unfold parseOperands at h
  split at h
  · rename_i op hOp
    split at h
    · rename_i hLeast
      cases h
      refine .lastOperand fun other hOther => ?_
      rw [hOp, Option.some.injEq] at hOther
      exact hOther ▸ hLeast
    · rename_i hLeast
      obtain ⟨⟨right, m⟩, hRight, h⟩ := Except.bind_eq_ok_iff.mp h
      exact .operand hOp (Nat.le_of_not_lt hLeast) (hReads.single rfl hRight) (hReads.single rfl h)
  · rename_i hOp
    cases h
    exact .lastOperand fun other hOther => by simp [hOp] at hOther

/-- The empty brackets behind a `delete`. -/
theorem brackets {i : Nat} {ts : List Token} {m : Source}
    (hOpen : (Source.mk (i + 1) ts).isAt "[" = true)
    (hClose : (Source.mk (i + 1) ts).next.expect "]" = .ok m) :
    ∃ opening closing rest, ts = opening :: closing :: rest
      ∧ Source.operator? opening = some "[" ∧ closing.isPunct "]" = true ∧ m = ⟨i + 3, rest⟩ := by
  cases ts with
  | nil => cases hOpen
  | cons opening ts =>
      cases ts with
      | nil => cases hClose
      | cons closing ts =>
          have hOperator : Source.operator? opening = some "[" := by
            simpa [Source.isAt, Source.op?, Source.peek?, Source.next] using hOpen
          simp only [Source.expect, Source.next, List.drop_one, List.tail_cons] at hClose
          split at hClose
          · rename_i hPunct
            cases hClose
            exact ⟨opening, closing, ts, rfl, hOperator, hPunct, rfl⟩
          · cases hClose

theorem unary (hReads : Reads fuel) (h : parseUnary (fuel + 1) s = .ok (e, rest)) :
    Parses .unary s [e] rest := by
  obtain ⟨i, ts⟩ := s
  cases ts with
  | nil =>
      unfold parseUnary at h
      cases h
  | cons t ts =>
  rw [parseUnary_cons] at h
  split at h
  · rename_i op hHead
    obtain ⟨⟨operand, m⟩, hOperand, h⟩ := Except.bind_eq_ok_iff.mp h
    cases h
    exact .prefixed (.operator hHead) (hReads.single rfl hOperand)
  · rename_i hHead
    split at h
    · rename_i hOpen
      obtain ⟨m, hGroup, h⟩ := Except.bind_eq_ok_iff.mp h
      cases h
      exact .atom (.measure hHead hOpen hGroup)
    · rename_i hOpen
      obtain ⟨⟨operand, m⟩, hOperand, h⟩ := Except.bind_eq_ok_iff.mp h
      cases h
      exact .prefixed (.measure hHead (Bool.eq_false_iff.mpr hOpen)) (hReads.single rfl hOperand)
  · rename_i hHead
    obtain ⟨m, hRest, h⟩ := Except.bind_eq_ok_iff.mp h
    cases h
    exact .atom (.allocate hHead hRest)
  · rename_i hHead
    obtain ⟨m, hRest, h⟩ := Except.bind_eq_ok_iff.mp h
    obtain ⟨⟨operand, k⟩, hOperand, h⟩ := Except.bind_eq_ok_iff.mp h
    cases h
    split at hRest
    · rename_i hOpen
      obtain ⟨opening, closing, ts, rfl, hOpening, hClosing, rfl⟩ := brackets hOpen hRest
      exact .prefixed (.freeAll hHead hOpening hClosing) (hReads.single rfl hOperand)
    · rename_i hOpen
      cases hRest
      exact .prefixed (.free hHead (Bool.eq_false_iff.mpr hOpen)) (hReads.single rfl hOperand)
  · rename_i hHead
    split at h
    · rename_i type m hCast
      obtain ⟨⟨operand, k⟩, hOperand, h⟩ := Except.bind_eq_ok_iff.mp h
      cases h
      split at hCast
      · rename_i hParen
        exact .prefixed (.cast hParen hCast) (hReads.single rfl hOperand)
      · cases hCast
    · rename_i hCast
      obtain ⟨⟨base, m⟩, hBase, h⟩ := Except.bind_eq_ok_iff.mp h
      refine .simple ⟨t, rfl, hHead, fun hParen => ?_⟩ (hReads.single rfl hBase)
        (hReads.single rfl h)
      rwa [if_pos hParen] at hCast

theorem suffixes {start : Nat} {base : Expr} (hReads : Reads fuel)
    (h : parseSuffixes (fuel + 1) start base s = .ok (e, rest)) :
    Parses (.suffixes start base) s [e] rest := by
  unfold parseSuffixes at h
  split at h
  · rename_i hNone
    cases h
    exact .lastSuffix fun op hOp => by simp [hNone] at hOp
  rename_i op hOp
  split at h
  · rename_i hCall
    subst hCall
    obtain ⟨⟨es, m⟩, hInner, h⟩ := Except.bind_eq_ok_iff.mp h
    obtain ⟨k, hClose, h⟩ := Except.bind_eq_ok_iff.mp h
    exact .bracket .call (by simp [Source.isAt, hOp]) (hReads (g := .arguments) hInner) hClose
      (hReads.single rfl h)
  rename_i hCall
  split at h
  · rename_i hSubscript
    subst hSubscript
    obtain ⟨⟨index, m⟩, hInner, h⟩ := Except.bind_eq_ok_iff.mp h
    obtain ⟨k, hClose, h⟩ := Except.bind_eq_ok_iff.mp h
    exact .bracket .subscript (by simp [Source.isAt, hOp])
      (hReads.single (g := .expression) rfl hInner) hClose (hReads.single rfl h)
  rename_i hSubscript
  obtain ⟨i, ts⟩ := s
  cases ts with
  | nil => cases hOp
  | cons t ts =>
  have hHead : Source.operator? t = some op := hOp
  split at h
  · rename_i hMember
    obtain ⟨⟨part, m⟩, hPart, h⟩ := Except.bind_eq_ok_iff.mp h
    dsimp only at h
    split at h
    · rename_i hIdentifier
      cases ts with
      | nil => cases hPart
      | cons other ts =>
          cases hPart
          exact .suffix (.member hHead hMember hIdentifier) (hReads.single rfl h)
    · cases h
  · rename_i hMember
    split at h
    · rename_i step hStep
      exact .suffix (.step hHead hStep) (hReads.single rfl h)
    · rename_i hStep
      cases h
      refine .lastSuffix fun other hOther => ?_
      rw [hOp, Option.some.injEq] at hOther
      subst hOther
      simp only [StepOp.ofSymbol?] at hStep
      simp only [suffixOperators, List.mem_cons, List.not_mem_nil, or_false, not_or]
      simp only [not_or] at hMember
      split at hStep
      · cases hStep
      · rename_i hIncrement
        split at hStep
        · cases hStep
        · rename_i hDecrement
          exact ⟨hCall, hSubscript, hMember.1, hMember.2, hIncrement, hDecrement⟩

theorem arguments (hReads : Reads fuel) (h : parseArguments (fuel + 1) s = .ok (es, rest)) :
    Parses .arguments s es rest := by
  unfold parseArguments at h
  split at h
  · rename_i hNext
    cases h
    exact .noArguments hNext
  · rename_i hNext
    obtain ⟨⟨first, m⟩, hFirst, h⟩ := Except.bind_eq_ok_iff.mp h
    obtain ⟨⟨items, k⟩, hItems, h⟩ := Except.bind_eq_ok_iff.mp h
    cases h
    exact .arguments (Bool.eq_false_iff.mpr hNext) (hReads.single rfl hFirst)
      (hReads (g := .items) hItems)

theorem primary (hReads : Reads fuel) (h : parsePrimary (fuel + 1) s = .ok (e, rest)) :
    Parses .primary s [e] rest := by
  unfold parsePrimary at h
  obtain ⟨⟨t, next⟩, hFirst, h⟩ := Except.bind_eq_ok_iff.mp h
  obtain ⟨i, ts⟩ := s
  cases ts with
  | nil => cases hFirst
  | cons t ts =>
  cases hFirst
  dsimp only at h
  split at h
  · rename_i hKind
    cases h
    exact .atom (.constant hKind)
  split at h
  · rename_i hKind
    cases h
    exact .atom (.strings hKind rfl)
  split at h
  · rename_i hParen
    obtain ⟨⟨inner, m⟩, hInner, h⟩ := Except.bind_eq_ok_iff.mp h
    obtain ⟨k, hClose, h⟩ := Except.bind_eq_ok_iff.mp h
    cases h
    exact .enclosed (.paren hParen) (hReads.single rfl hInner) hClose
  split at h
  · rename_i hCast
    obtain ⟨hIdentifier, hWord⟩ := Bool.and_eq_true_iff.mp hCast
    obtain ⟨angle, hAngle, h⟩ := Except.bind_eq_ok_iff.mp h
    obtain ⟨⟨words, closed⟩, hWords, h⟩ := Except.bind_eq_ok_iff.mp h
    obtain ⟨m, hOpen, h⟩ := Except.bind_eq_ok_iff.mp h
    obtain ⟨⟨inner, k⟩, hInner, h⟩ := Except.bind_eq_ok_iff.mp h
    obtain ⟨l, hClose, h⟩ := Except.bind_eq_ok_iff.mp h
    cases h
    exact .enclosed (.cast hIdentifier hWord hAngle hWords hOpen) (hReads.single rfl hInner) hClose
  rename_i hCast
  split at h
  · rename_i hIdentifier
    obtain ⟨⟨text, m⟩, hParts, h⟩ := Except.bind_eq_ok_iff.mp h
    cases h
    refine .atom (.name hIdentifier ?_ hParts)
    simpa [hIdentifier] using hCast
  split at h
  · rename_i hScope
    obtain ⟨⟨part, m⟩, hPart, h⟩ := Except.bind_eq_ok_iff.mp h
    dsimp only at h
    split at h
    · rename_i hIdentifier
      cases ts with
      | nil => cases hPart
      | cons other ts =>
          cases hPart
          obtain ⟨⟨text, k⟩, hParts, h⟩ := Except.bind_eq_ok_iff.mp h
          cases h
          exact .atom (.qualified hScope hIdentifier hParts)
    · cases h
  · cases h

end Reads

/-- What the parser reads is read by the rules. -/
theorem reads (fuel : Nat) : Reads fuel := by
  induction fuel with
  | zero =>
      intro g s rest es h
      cases g <;> simp [Goal.run, parseExpression, parseItems, parseAssignment, parseConditional,
        parseBinary, parseOperands, parseUnary, parseSuffixes, parseArguments, parsePrimary,
        Except.map] at h
  | succ fuel ih =>
      intro g s rest es h
      cases g with
      | items => exact ih.items h
      | arguments => exact ih.arguments h
      | expression =>
          obtain ⟨e, rfl, hRun⟩ := map_single_eq_ok_iff.mp h
          exact ih.expression hRun
      | assignment =>
          obtain ⟨e, rfl, hRun⟩ := map_single_eq_ok_iff.mp h
          exact ih.assignment hRun
      | conditional =>
          obtain ⟨e, rfl, hRun⟩ := map_single_eq_ok_iff.mp h
          exact ih.conditional hRun
      | binary =>
          obtain ⟨e, rfl, hRun⟩ := map_single_eq_ok_iff.mp h
          exact ih.binary hRun
      | operands =>
          obtain ⟨e, rfl, hRun⟩ := map_single_eq_ok_iff.mp h
          exact ih.operands hRun
      | unary =>
          obtain ⟨e, rfl, hRun⟩ := map_single_eq_ok_iff.mp h
          exact ih.unary hRun
      | suffixes =>
          obtain ⟨e, rfl, hRun⟩ := map_single_eq_ok_iff.mp h
          exact ih.suffixes hRun
      | primary =>
          obtain ⟨e, rfl, hRun⟩ := map_single_eq_ok_iff.mp h
          exact ih.primary hRun

/-- How many steps the parser may go down before it takes a token. -/
def Goal.depth : Goal → Nat
  | .expression | .arguments => 6
  | .assignment => 5
  | .conditional => 4
  | .binary _ => 3
  | .unary => 2
  | .primary | .operands .. | .suffixes .. | .items => 1

theorem Goal.depth_pos (g : Goal) : 0 < g.depth := by
  cases g <;> exact Nat.succ_pos _

/-- A parenthesis starts neither an operator nor anything else with a word. -/
theorem Head.of_paren {t : Token} (h : t.isPunct "(" = true) : Head.of t = .other := by
  simp only [Token.isPunct, Bool.and_eq_true, beq_iff_eq] at h
  obtain ⟨hKind, hLexeme⟩ := h
  have hOp : (Source.operator? t).bind UnaryOp.ofSymbol? = none := by
    have hSpelling : t.spelling = "(" := by
      rw [Token.spelling, hLexeme]
      decide
    simp only [Source.operator?, hKind, hSpelling]
    decide
  have hNamed : ∀ word, t.isNamed word = false := fun word => by simp [Token.isNamed, hKind]
  simp [Head.of, hOp, hNamed]

namespace Parses

open Source

variable {g : Goal} {s m rest : Source} {e : Expr} {es : List Expr} {fuel : Nat}

/-- The steps that are left for a part of what is read. -/
theorem ok_of_single {x : Parsed} (h : (x.map fun (e, rest) => ([e], rest)) = .ok ([e], rest)) :
    x = .ok (e, rest) := by
  obtain ⟨e', h, hx⟩ := map_single_eq_ok_iff.mp h
  cases h
  exact hx

theorem single_of_ok {x : Parsed} (h : x = .ok (e, rest)) :
    (x.map fun (e, rest) => ([e], rest)) = .ok ([e], rest) :=
  map_single_eq_ok_iff.mpr ⟨e, rfl, h⟩

theorem run_atom {build : TokenRange → Expr} (h : Atom g s build rest) :
    g.run (fuel + 1) s = .ok ([build ⟨s.index, rest.index⟩], rest) := by
  cases h with
  | @raise i t ts hHead hEnd =>
      refine single_of_ok ?_
      unfold parseAssignment
      rw [if_pos (show (Source.mk i (t :: ts)).isAtName "throw" = true from hHead)]
      exact if_pos hEnd
  | @measure i t ts rest hHead hOpen hGroup =>
      refine single_of_ok ?_
      simp only [parseUnary_cons, hHead, if_pos hOpen]
      exact Except.bind_eq_ok_iff.mpr ⟨rest, hGroup, rfl⟩
  | @allocate i t ts rest hHead hRest =>
      refine single_of_ok ?_
      simp only [parseUnary_cons, hHead]
      exact Except.bind_eq_ok_iff.mpr ⟨rest, hRest, rfl⟩
  | constant hKind =>
      refine single_of_ok ?_
      unfold parsePrimary
      refine Except.bind_eq_ok_iff.mpr ⟨_, rfl, ?_⟩
      exact if_pos hKind
  | strings hKind hFound =>
      refine single_of_ok ?_
      unfold parsePrimary
      refine Except.bind_eq_ok_iff.mpr ⟨_, rfl, ?_⟩
      simp only [hKind, reduceCtorEq, or_self, if_false, if_true, hFound]
      rfl
  | @name i t ts text rest hHead hCast hParts =>
      have hKind : t.kind = .identifier := by simpa [Token.isIdentifier] using hHead
      have hPunct : ∀ op, t.isPunct op = false := fun op => by simp [Token.isPunct, hKind]
      refine single_of_ok ?_
      unfold parsePrimary
      refine Except.bind_eq_ok_iff.mpr ⟨_, rfl, ?_⟩
      simp only [hKind, reduceCtorEq, or_self, if_false, hPunct, Bool.false_eq_true, hHead, hCast,
        Bool.and_false, if_true]
      exact Except.bind_eq_ok_iff.mpr ⟨_, hParts, rfl⟩
  | @qualified i t part ts text rest hHead hPart hParts =>
      obtain ⟨hKind, hLexeme⟩ : t.kind = .punctuator ∧ t.lexeme = Text.ofString "::" := by
        simpa [Token.isPunct] using hHead
      have hParen : t.isPunct "(" = false := by
        simp only [Token.isPunct, hKind, hLexeme]
        decide
      have hWord : t.isIdentifier = false := by simp [Token.isIdentifier, hKind]
      refine single_of_ok ?_
      unfold parsePrimary
      refine Except.bind_eq_ok_iff.mpr ⟨_, rfl, ?_⟩
      simp only [hKind, reduceCtorEq, or_self, if_false, hParen, Bool.false_eq_true, hWord,
        Bool.false_and, hHead, if_true]
      refine Except.bind_eq_ok_iff.mpr ⟨_, rfl, ?_⟩
      simp only [hPart, if_true]
      exact Except.bind_eq_ok_iff.mpr ⟨_, hParts, rfl⟩

theorem run_prefixed {build : TokenRange → Expr → Expr} (h : Prefix g s build m)
    (hOperand : g.run fuel m = .ok ([e], rest)) :
    g.run (fuel + 1) s = .ok ([build ⟨s.index, rest.index⟩ e], rest) := by
  cases h with
  | @throw i t ts hHead hEnd =>
      refine single_of_ok ?_
      unfold parseAssignment
      rw [if_pos (show (Source.mk i (t :: ts)).isAtName "throw" = true from hHead),
        if_neg (show ¬ (Source.mk i (t :: ts)).next.isAtEnd = true from Bool.eq_false_iff.mp hEnd)]
      exact Except.bind_eq_ok_iff.mpr ⟨_, ok_of_single hOperand, rfl⟩
  | operator hHead =>
      refine single_of_ok ?_
      simp only [parseUnary_cons, hHead]
      exact Except.bind_eq_ok_iff.mpr ⟨_, ok_of_single hOperand, rfl⟩
  | measure hHead hOpen =>
      refine single_of_ok ?_
      simp only [parseUnary_cons, hHead, if_neg (Bool.eq_false_iff.mp hOpen)]
      exact Except.bind_eq_ok_iff.mpr ⟨_, ok_of_single hOperand, rfl⟩
  | free hHead hOpen =>
      refine single_of_ok ?_
      simp only [parseUnary_cons, hHead, if_neg (Bool.eq_false_iff.mp hOpen)]
      refine Except.bind_eq_ok_iff.mpr ⟨_, rfl, ?_⟩
      exact Except.bind_eq_ok_iff.mpr ⟨_, ok_of_single hOperand, rfl⟩
  | @freeAll i t opening closing ts hHead hOpen hClose =>
      have hBracket : (Source.mk (i + 1) (opening :: closing :: ts)).isAt "[" = true := by
        simp [isAt, op?, peek?, hOpen]
      refine single_of_ok ?_
      simp only [parseUnary_cons, hHead, if_pos hBracket]
      refine Except.bind_eq_ok_iff.mpr ⟨⟨i + 3, ts⟩, if_pos hClose, ?_⟩
      exact Except.bind_eq_ok_iff.mpr ⟨_, ok_of_single hOperand, rfl⟩
  | cast hHead hType =>
      refine single_of_ok ?_
      simp only [parseUnary_cons, Head.of_paren hHead, if_pos hHead, hType]
      exact Except.bind_eq_ok_iff.mpr ⟨_, ok_of_single hOperand, rfl⟩

theorem run_enclosed {build : TokenRange → Expr → Expr} {k : Source} (h : Opening s build m)
    (hInner : parseExpression fuel m = .ok (e, k)) (hClose : k.expect ")" = .ok rest) :
    parsePrimary (fuel + 1) s = .ok (build ⟨s.index, rest.index⟩ e, rest) := by
  cases h with
  | @paren i t ts hHead =>
      obtain ⟨hKind, -⟩ : t.kind = .punctuator ∧ t.lexeme = Text.ofString "(" := by
        simpa [Token.isPunct] using hHead
      unfold parsePrimary
      refine Except.bind_eq_ok_iff.mpr ⟨_, rfl, ?_⟩
      simp only [hKind, reduceCtorEq, or_self, if_false, hHead, if_true]
      refine Except.bind_eq_ok_iff.mpr ⟨_, hInner, ?_⟩
      exact Except.bind_eq_ok_iff.mpr ⟨_, hClose, rfl⟩
  | @cast i t ts words angle closed rest hHead hCast hAngle hWords hOpen =>
      have hKind : t.kind = .identifier := by simpa [Token.isIdentifier] using hHead
      have hPunct : ∀ op, t.isPunct op = false := fun op => by simp [Token.isPunct, hKind]
      unfold parsePrimary
      refine Except.bind_eq_ok_iff.mpr ⟨_, rfl, ?_⟩
      simp only [hKind, reduceCtorEq, or_self, if_false, hPunct, Bool.false_eq_true, hHead, hCast,
        Bool.and_self, if_true]
      refine Except.bind_eq_ok_iff.mpr ⟨_, hAngle, ?_⟩
      refine Except.bind_eq_ok_iff.mpr ⟨_, hWords, ?_⟩
      refine Except.bind_eq_ok_iff.mpr ⟨_, hOpen, ?_⟩
      refine Except.bind_eq_ok_iff.mpr ⟨_, hInner, ?_⟩
      exact Except.bind_eq_ok_iff.mpr ⟨_, hClose, rfl⟩

theorem run_suffix {build : TokenRange → Expr → Expr} {start : Nat} {base : Expr}
    (h : Suffix s build m)
    (hSuffixes : parseSuffixes fuel start (build ⟨start, m.index⟩ base) m = .ok (e, rest)) :
    parseSuffixes (fuel + 1) start base s = .ok (e, rest) := by
  cases h with
  | @member i t part ts op hHead hMember hPart =>
      have hOther : op ≠ "(" ∧ op ≠ "[" := by
        rcases hMember with rfl | rfl <;> decide
      unfold parseSuffixes
      rw [show (Source.mk i (t :: part :: ts)).op? = some op from hHead]
      simp only [hOther, if_false, hMember, if_true]
      refine Except.bind_eq_ok_iff.mpr ⟨_, rfl, ?_⟩
      simp only [hPart, if_true]
      exact hSuffixes
  | @step i t ts op step hHead hStep =>
      have hOther : op ≠ "(" ∧ op ≠ "[" ∧ ¬ (op = "." ∨ op = "->") := by
        simp only [StepOp.ofSymbol?] at hStep
        split at hStep
        · rename_i hIncrement
          subst hIncrement
          decide
        · split at hStep
          · rename_i hDecrement
            subst hDecrement
            decide
          · cases hStep
      unfold parseSuffixes
      rw [show (Source.mk i (t :: ts)).op? = some op from hHead]
      simp only [hOther, if_false, hStep]
      exact hSuffixes

theorem run_lastSuffix {start : Nat} {base : Expr}
    (h : ∀ op, s.op? = some op → op ∉ suffixOperators) :
    parseSuffixes (fuel + 1) start base s = .ok (base, s) := by
  unfold parseSuffixes
  cases hOp : s.op? with
  | none => rfl
  | some op =>
      have hNot := h op hOp
      simp only [suffixOperators, List.mem_cons, List.not_mem_nil, or_false, not_or] at hNot
      obtain ⟨hCall, hSubscript, hDot, hArrow, hIncrement, hDecrement⟩ := hNot
      have hStep : StepOp.ofSymbol? op = none := by
        rw [StepOp.ofSymbol?, if_neg hIncrement, if_neg hDecrement]
      simp only [hCall, hSubscript, hDot, hArrow, or_self, if_false, hStep]

theorem run_bracket {opener closer : String} {build : TokenRange → Expr → List Expr → Expr}
    {start : Nat} {base : Expr} {k : Source} (h : Bracket opener g closer build)
    (hOpen : s.isAt opener = true) (hInner : g.run fuel s.next = .ok (es, m))
    (hClose : m.expect closer = .ok k)
    (hSuffixes : parseSuffixes fuel start (build ⟨start, k.index⟩ base es) k = .ok (e, rest)) :
    parseSuffixes (fuel + 1) start base s = .ok (e, rest) := by
  unfold parseSuffixes
  rw [op?_of_isAt hOpen]
  cases h with
  | call =>
      refine Except.bind_eq_ok_iff.mpr ⟨_, hInner, ?_⟩
      exact Except.bind_eq_ok_iff.mpr ⟨_, hClose, hSuffixes⟩
  | subscript =>
      obtain ⟨index, rfl, hIndex⟩ := map_single_eq_ok_iff.mp hInner
      refine Except.bind_eq_ok_iff.mpr ⟨_, hIndex, ?_⟩
      exact Except.bind_eq_ok_iff.mpr ⟨_, hClose, hSuffixes⟩

/-- What the rules read, the parser reads within as many steps as the tokens allow. -/
theorem run (h : Parses g s es rest) :
    ∀ fuel, g.depth + 10 * (rest.index - s.index) ≤ fuel → g.run fuel s = .ok (es, rest) := by
  induction h with
  | @expression e es s m rest hFirst hItems ihFirst ihItems =>
      intro fuel hFuel
      have hLe := hFirst.leads.index_le
      have hLe' := hItems.leads.index_le
      simp only [Goal.depth] at hFuel ihFirst ihItems
      obtain ⟨fuel, rfl⟩ : ∃ n, fuel = n + 1 := ⟨fuel - 1, by omega⟩
      refine single_of_ok ?_
      unfold parseExpression
      refine Except.bind_eq_ok_iff.mpr ⟨_, ok_of_single (ihFirst fuel (by omega)), ?_⟩
      exact Except.bind_eq_ok_iff.mpr ⟨_, ihItems fuel (by omega), rfl⟩
  | noItem hNext =>
      intro fuel hFuel
      simp only [Goal.depth] at hFuel
      obtain ⟨fuel, rfl⟩ : ∃ n, fuel = n + 1 := ⟨fuel - 1, by omega⟩
      unfold Goal.run parseItems
      exact if_neg (Bool.eq_false_iff.mp hNext)
  | @item e es s m rest hNext hFirst hItems ihFirst ihItems =>
      intro fuel hFuel
      have hStep := (leads_next (op?_of_isAt hNext)).index_le
      have hLe := hFirst.leads.index_le
      have hLe' := hItems.leads.index_le
      have hIndex : s.next.index = s.index + 1 := rfl
      simp only [Goal.depth] at hFuel ihFirst ihItems
      obtain ⟨fuel, rfl⟩ : ∃ n, fuel = n + 1 := ⟨fuel - 1, by omega⟩
      unfold Goal.run parseItems
      rw [if_pos hNext]
      refine Except.bind_eq_ok_iff.mpr ⟨_, ok_of_single (ihFirst fuel (by omega)), ?_⟩
      exact Except.bind_eq_ok_iff.mpr ⟨_, ihItems fuel (by omega), rfl⟩
  | @atom g s rest build hAtom =>
      intro fuel hFuel
      obtain ⟨fuel, rfl⟩ : ∃ n, fuel = n + 1 := ⟨fuel - 1, by have := Goal.depth_pos g; omega⟩
      exact run_atom hAtom
  | prefixed hPrefix hOperand ih =>
      intro fuel hFuel
      have hLt := hPrefix.index_lt
      have hLe := hOperand.leads.index_le
      obtain ⟨fuel, rfl⟩ : ∃ n, fuel = n + 1 := ⟨fuel - 1, by omega⟩
      exact run_prefixed hPrefix (ih fuel (by omega))
  | @assign s m rest op target value hHead hTarget hOp hValue ihTarget ihValue =>
      intro fuel hFuel
      have hLe := hTarget.leads.index_le
      have hLe' := hValue.leads.index_le
      have hIndex : m.next.index = m.index + 1 := rfl
      simp only [Goal.depth] at hFuel ihTarget ihValue
      obtain ⟨fuel, rfl⟩ : ∃ n, fuel = n + 1 := ⟨fuel - 1, by omega⟩
      refine single_of_ok ?_
      unfold parseAssignment
      rw [if_neg (Bool.eq_false_iff.mp hHead)]
      refine Except.bind_eq_ok_iff.mpr ⟨_, ok_of_single (ihTarget fuel (by omega)), ?_⟩
      simp only [hOp]
      exact Except.bind_eq_ok_iff.mpr ⟨_, ok_of_single (ihValue fuel (by omega)), rfl⟩
  | unassigned hHead hOperand hOp ih =>
      intro fuel hFuel
      simp only [Goal.depth] at hFuel ih
      obtain ⟨fuel, rfl⟩ : ∃ n, fuel = n + 1 := ⟨fuel - 1, by omega⟩
      refine single_of_ok ?_
      unfold parseAssignment
      rw [if_neg (Bool.eq_false_iff.mp hHead)]
      refine Except.bind_eq_ok_iff.mpr ⟨_, ok_of_single (ih fuel (by omega)), ?_⟩
      simp only [hOp]
      rfl
  | @conditional s m k l rest condition whenTrue whenFalse hCondition hMark hTrue hColon hFalse
      ihCondition ihTrue ihFalse =>
      intro fuel hFuel
      have hLe := hCondition.leads.index_le
      have hLe' := hTrue.leads.index_le
      have hLe'' := hFalse.leads.index_le
      have hIndex : m.next.index = m.index + 1 := rfl
      have hColonIndex := (leads_expect hColon).2
      simp only [Goal.depth] at hFuel ihCondition ihTrue ihFalse
      obtain ⟨fuel, rfl⟩ : ∃ n, fuel = n + 1 := ⟨fuel - 1, by omega⟩
      refine single_of_ok ?_
      unfold parseConditional
      refine Except.bind_eq_ok_iff.mpr ⟨_, ok_of_single (ihCondition fuel (by omega)), ?_⟩
      dsimp only
      rw [if_pos hMark]
      refine Except.bind_eq_ok_iff.mpr ⟨_, ok_of_single (ihTrue fuel (by omega)), ?_⟩
      refine Except.bind_eq_ok_iff.mpr ⟨_, hColon, ?_⟩
      exact Except.bind_eq_ok_iff.mpr ⟨_, ok_of_single (ihFalse fuel (by omega)), rfl⟩
  | unconditional hOperand hMark ih =>
      intro fuel hFuel
      simp only [Goal.depth] at hFuel ih
      obtain ⟨fuel, rfl⟩ : ∃ n, fuel = n + 1 := ⟨fuel - 1, by omega⟩
      refine single_of_ok ?_
      unfold parseConditional
      refine Except.bind_eq_ok_iff.mpr ⟨_, ok_of_single (ih fuel (by omega)), ?_⟩
      exact if_neg (Bool.eq_false_iff.mp hMark)
  | binary hLeft hOperands ihLeft ihOperands =>
      intro fuel hFuel
      have hLe := hLeft.leads.index_le
      have hLe' := hOperands.leads.index_le
      simp only [Goal.depth] at hFuel ihLeft ihOperands
      obtain ⟨fuel, rfl⟩ : ∃ n, fuel = n + 1 := ⟨fuel - 1, by omega⟩
      refine single_of_ok ?_
      unfold parseBinary
      refine Except.bind_eq_ok_iff.mpr ⟨_, ok_of_single (ihLeft fuel (by omega)), ?_⟩
      exact ok_of_single (ihOperands fuel (by omega))
  | @lastOperand least start left s hNext =>
      intro fuel hFuel
      simp only [Goal.depth] at hFuel
      obtain ⟨fuel, rfl⟩ : ∃ n, fuel = n + 1 := ⟨fuel - 1, by omega⟩
      refine single_of_ok ?_
      unfold parseOperands
      cases hOp : s.op?.bind BinaryOp.ofSymbol? with
      | none => rfl
      | some op => exact if_pos (hNext op hOp)
  | @operand least start left right e op s m rest hOp hLeast hRight hOperands ihRight ihOperands =>
      intro fuel hFuel
      have hLe := hRight.leads.index_le
      have hLe' := hOperands.leads.index_le
      have hIndex : s.next.index = s.index + 1 := rfl
      simp only [Goal.depth] at hFuel ihRight ihOperands
      obtain ⟨fuel, rfl⟩ : ∃ n, fuel = n + 1 := ⟨fuel - 1, by omega⟩
      refine single_of_ok ?_
      unfold parseOperands
      simp only [hOp, if_neg (Nat.not_lt.mpr hLeast)]
      refine Except.bind_eq_ok_iff.mpr ⟨_, ok_of_single (ihRight fuel (by omega)), ?_⟩
      exact ok_of_single (ihOperands fuel (by omega))
  | @simple s m rest base e hPlain hBase hSuffixes ihBase ihSuffixes =>
      intro fuel hFuel
      have hLe := hBase.leads.index_le
      have hLe' := hSuffixes.leads.index_le
      simp only [Goal.depth] at hFuel ihBase ihSuffixes
      obtain ⟨fuel, rfl⟩ : ∃ n, fuel = n + 1 := ⟨fuel - 1, by omega⟩
      obtain ⟨t, hPeek, hHead, hCast⟩ := hPlain
      obtain ⟨i, ts⟩ := s
      obtain ⟨ts, rfl⟩ := List.head?_eq_some_iff.mp hPeek
      have hNoCast : (if t.isPunct "(" then (Source.mk i (t :: ts)).castType? else none)
          = none := by
        split
        · exact hCast ‹_›
        · rfl
      refine single_of_ok ?_
      simp only [parseUnary_cons, hHead, hNoCast]
      refine Except.bind_eq_ok_iff.mpr ⟨_, ok_of_single (ihBase fuel (by omega)), ?_⟩
      exact ok_of_single (ihSuffixes fuel (by omega))
  | @lastSuffix start base s hNext =>
      intro fuel hFuel
      simp only [Goal.depth] at hFuel
      obtain ⟨fuel, rfl⟩ : ∃ n, fuel = n + 1 := ⟨fuel - 1, by omega⟩
      exact single_of_ok (run_lastSuffix hNext)
  | suffix hSuffix hSuffixes ih =>
      intro fuel hFuel
      have hLt := hSuffix.index_lt
      have hLe := hSuffixes.leads.index_le
      simp only [Goal.depth] at hFuel ih
      obtain ⟨fuel, rfl⟩ : ∃ n, fuel = n + 1 := ⟨fuel - 1, by omega⟩
      exact single_of_ok (run_suffix hSuffix (ok_of_single (ih fuel (by omega))))
  | @bracket start base e es s m k rest g opener closer build hBracket hOpen hInner hClose hSuffixes
      ihInner ihSuffixes =>
      intro fuel hFuel
      have hLe := hInner.leads.index_le
      have hLe' := hSuffixes.leads.index_le
      have hIndex : s.next.index = s.index + 1 := rfl
      have hCloseIndex := (leads_expect hClose).2
      have hDepth : g.depth = 6 := by cases hBracket <;> rfl
      simp only [Goal.depth] at hFuel ihSuffixes
      obtain ⟨fuel, rfl⟩ : ∃ n, fuel = n + 1 := ⟨fuel - 1, by omega⟩
      exact single_of_ok (run_bracket hBracket hOpen (ihInner fuel (by omega)) hClose
        (ok_of_single (ihSuffixes fuel (by omega))))
  | noArguments hNext =>
      intro fuel hFuel
      simp only [Goal.depth] at hFuel
      obtain ⟨fuel, rfl⟩ : ∃ n, fuel = n + 1 := ⟨fuel - 1, by omega⟩
      unfold Goal.run parseArguments
      exact if_pos hNext
  | arguments hNext hFirst hItems ihFirst ihItems =>
      intro fuel hFuel
      have hLe := hFirst.leads.index_le
      have hLe' := hItems.leads.index_le
      simp only [Goal.depth] at hFuel ihFirst ihItems
      obtain ⟨fuel, rfl⟩ : ∃ n, fuel = n + 1 := ⟨fuel - 1, by omega⟩
      unfold Goal.run parseArguments
      rw [if_neg (Bool.eq_false_iff.mp hNext)]
      refine Except.bind_eq_ok_iff.mpr ⟨_, ok_of_single (ihFirst fuel (by omega)), ?_⟩
      exact Except.bind_eq_ok_iff.mpr ⟨_, ihItems fuel (by omega), rfl⟩
  | enclosed hOpening hInner hClose ih =>
      intro fuel hFuel
      have hLt := hOpening.index_lt
      have hLe := hInner.leads.index_le
      have hCloseIndex := (leads_expect hClose).2
      simp only [Goal.depth] at hFuel ih
      obtain ⟨fuel, rfl⟩ : ∃ n, fuel = n + 1 := ⟨fuel - 1, by omega⟩
      exact single_of_ok (run_enclosed hOpening (ok_of_single (ih fuel (by omega))) hClose)

/-- What the rules read from a source is determined by it. -/
theorem unique {es' : List Expr} {rest' : Source} (h : Parses g s es rest)
    (h' : Parses g s es' rest') : es = es' ∧ rest = rest' := by
  have hRun := h.run (g.depth + 10 * (rest.index - s.index) + 10 * (rest'.index - s.index))
    (by omega)
  have hRun' := h'.run (g.depth + 10 * (rest.index - s.index) + 10 * (rest'.index - s.index))
    (by omega)
  simpa using hRun.symm.trans hRun'

end Parses

/-- The parser makes an expression of tokens if and only if the rules read it from all of them. -/
theorem parse_eq_ok_iff {tokens : List Token} {e : Expr} :
    parse tokens = .ok e ↔ Parses .expression ⟨0, tokens⟩ [e] ⟨tokens.length, []⟩ := by
  constructor
  · intro h
    unfold parse at h
    split at h
    · cases h
    · obtain ⟨⟨e', n, ts⟩, hRun, h⟩ := Except.bind_eq_ok_iff.mp h
      dsimp only at h
      split at h
      · cases h
      · cases h
        have hParses : Parses .expression ⟨0, tokens⟩ [e] ⟨n, []⟩ := Reads.single (reads _) rfl hRun
        obtain ⟨used, hTokens, hIndex⟩ := hParses.leads
        simp only [List.append_nil] at hTokens
        simp only [← hTokens, Nat.zero_add] at hIndex
        exact hIndex ▸ hParses
  · intro h
    have hRun := Parses.ok_of_single
      (h.run (10 * tokens.length + 10) (by simp only [Goal.depth]; omega))
    unfold parse
    cases tokens with
    | nil =>
        have hError : parseExpression 10 ⟨0, []⟩ = .error .unexpectedEnd := by
          simp [parseExpression, parseAssignment, parseConditional, parseBinary, parseUnary,
            Source.isAtName, Source.peek?, bind, Except.bind]
        cases hError.symm.trans hRun
    | cons t ts => exact Except.bind_eq_ok_iff.mpr ⟨_, hRun, rfl⟩

end Demacro.Expr
