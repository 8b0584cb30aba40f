import Demacro.Proofs.Expr.Scanning

/-!
What the rules of the grammar read depends only on those tokens and on the next one. Behind an
expression stands no operator that goes on with what was read, and where the reading goes on
elsewhere, what comes next belongs to no operand.
-/

namespace Demacro.Expr

open Source

variable {g : Goal} {s m rest : Source} {i : Nat} {ts tail : List Token}

theorem isLocal_atom (g : Goal) (build : TokenRange → Expr) :
    IsLocal fun s rest => Atom g s build rest := by
  intro s rest h
  cases h with
  | raise hHead hEnd =>
      exact .one fun j tail hTail => .raise hHead (by rwa [isAtEnd_congr (m := ⟨_, _⟩) hTail])
  | measure hHead hOpen hGroup =>
      refine .cons (isLocal_skipGroup _ _ hGroup) fun j xs y hHead' hGroup' =>
        .measure hHead ?_ hGroup'
      rwa [isAt_congr (m := ⟨_, _⟩) hHead']
  | allocate hHead hRest =>
      exact .cons (isLocal_skipAllocation hRest) fun j xs y _ hRest' => .allocate hHead hRest'
  | constant hKind => exact .one fun j tail _ => .constant hKind
  | strings hKind hFound =>
      simp only [Source.strings, if_pos hKind, Prod.mk.injEq] at hFound
      obtain ⟨rfl, hRest⟩ := hFound
      refine .cons (isLocal_strings _ (Prod.ext rfl hRest)) fun j xs y _ hFound' =>
        .strings hKind ?_
      simp only [Source.strings, if_pos hKind, hFound']
  | name hHead hCast hParts =>
      exact .cons (isLocal_nameParts _ _ hParts) fun j xs y _ hParts' => .name hHead hCast hParts'
  | @qualified i t part ts text rest hHead hPart hParts =>
      refine .cons (Q := fun s rest => s.tokens.head? = some part
        ∧ Source.nameParts ("::" ++ part.spelling) (s.index + 1) s.tokens.tail = .ok (text, rest))
        (.cons (isLocal_nameParts _ _ hParts) fun j xs y _ hRest => ⟨rfl, hRest⟩)
        fun j xs y _ hRest => ?_
      obtain ⟨hPartHead, hRest⟩ := hRest
      obtain ⟨ys, rfl⟩ := List.head?_eq_some_iff.mp hPartHead
      exact .qualified hHead hPart hRest

theorem isLocal_prefixed (g : Goal) (build : TokenRange → Expr → Expr) :
    IsLocal fun s rest => Prefix g s build rest := by
  intro s rest h
  cases h with
  | throw hHead hEnd =>
      exact .one fun j tail hTail => .throw hHead (by rwa [isAtEnd_congr (m := ⟨_, _⟩) hTail])
  | operator hHead => exact .one fun j tail _ => .operator hHead
  | measure hHead hOpen =>
      exact .one fun j tail hTail => .measure hHead (by rwa [isAt_congr (m := ⟨_, _⟩) hTail])
  | free hHead hOpen =>
      exact .one fun j tail hTail => .free hHead (by rwa [isAt_congr (m := ⟨_, _⟩) hTail])
  | @freeAll i t opening closing ts hHead hOpen hClose =>
      exact ⟨[t, opening, closing], rfl, rfl, fun j tail _ => .freeAll hHead hOpen hClose⟩
  | cast hHead hType =>
      refine (isLocal_castType? _ hType).mono fun {a b} hHead' hType' => ?_
      obtain ⟨j, xs⟩ := a
      obtain ⟨ys, rfl⟩ := List.head?_eq_some_iff.mp hHead'
      exact .cast hHead hType'

/-- Nothing behind an opening parenthesis belongs to it. -/
theorem passes_opening {build : TokenRange → Expr → Expr} (h : Opening s build rest) :
    Passes (fun _ => True) (fun s rest => Opening s build rest) s rest := by
  cases h with
  | @paren i t ts hHead => exact ⟨[t], rfl, rfl, fun j tail _ => .paren hHead⟩
  | @cast i t ts words angle closed rest hHead hCast hAngle hWords hOpen =>
      obtain ⟨used, hTokens, hIndex, hMove⟩ := (isLocal_expect _ hAngle).trans
        (isLocal_angleWords _ _ _ hWords) (P := fun s closed => ∃ angle, s.expect "<" = .ok angle
          ∧ angleWords [] 1 angle.index angle.tokens = .ok (words, closed))
        fun hAngle hWords => ⟨_, hAngle, hWords⟩
      obtain ⟨last, hTokens', hIndex', hMove'⟩ := passes_expect hOpen
      dsimp only at hTokens hIndex
      have hLast : last ≠ [] := by
        rintro rfl
        have hFound := hMove' 0 [] trivial
        cases hFound
      refine ⟨t :: (used ++ last), ?_, ?_, fun j tail _ => ?_⟩
      · rw [hTokens, hTokens', List.cons_append, List.append_assoc]
      · rw [hIndex', hIndex, List.length_cons, List.length_append]
        dsimp only
        omega
      · have hHead' : (last ++ tail).head? = closed.tokens.head? := by
          rw [hTokens', List.head?_append_of_ne_nil _ hLast, List.head?_append_of_ne_nil _ hLast]
        obtain ⟨angle', hAngle', hWords'⟩ := hMove (j + 1) (last ++ tail) hHead'
        have hOpen' := hMove' (j + 1 + used.length) tail trivial
        rw [← List.append_assoc] at hAngle'
        have hIndex'' : j + 1 + used.length + last.length = j + (t :: (used ++ last)).length := by
          rw [List.length_cons, List.length_append]
          omega
        rw [hIndex''] at hOpen'
        exact .cast hHead hCast hAngle' hWords' hOpen'

/-- What is behind a suffix does not belong to it. -/
theorem passes_suffix {build : TokenRange → Expr → Expr} (h : Suffix s build rest) :
    Passes (fun _ => True) (fun s rest => Suffix s build rest) s rest := by
  cases h with
  | @member i t part ts op hHead hMember hPart =>
      exact ⟨[t, part], rfl, rfl, fun j tail _ => .member hHead hMember hPart⟩
  | @step i t ts op step hHead hStep => exact ⟨[t], rfl, rfl, fun j tail _ => .step hHead hStep⟩

theorem isLocal_suffix (build : TokenRange → Expr → Expr) :
    IsLocal fun s rest => Suffix s build rest :=
  fun h => (passes_suffix h).moves

theorem Atom.index_lt {build : TokenRange → Expr} (h : Atom g s build rest) :
    s.index < rest.index := by
  cases h with
  | raise | constant => exact Nat.lt_succ_self _
  | measure _ _ hGroup => exact (isLocal_skipGroup _ _ hGroup).index_le
  | allocate _ hRest => exact (isLocal_skipAllocation hRest).index_le
  | @strings i t ts found rest hKind hFound =>
      simp only [Source.strings, if_pos hKind, Prod.mk.injEq] at hFound
      have hRest : Source.strings (i + 1) ts = ((Source.strings (i + 1) ts).1, rest) :=
        Prod.ext rfl hFound.2
      exact (isLocal_strings _ (s := ⟨_, _⟩) hRest).index_le
  | name _ _ hParts => exact (isLocal_nameParts _ _ (s := ⟨_, _⟩) hParts).index_le
  | qualified _ _ hParts =>
      exact Nat.lt_of_succ_lt (isLocal_nameParts _ _ (s := ⟨_, _⟩) hParts).index_le

theorem Prefix.index_lt {build : TokenRange → Expr → Expr} (h : Prefix g s build m) :
    s.index < m.index := by
  cases h with
  | cast hHead hType =>
      obtain ⟨used, -, hIndex, hUsed, -⟩ := castType?_append hType
      have hLength := List.length_pos_of_ne_nil hUsed
      omega
  | _ => dsimp only; omega

/-- The operator that a suffix starts with. It opens no bracket. -/
theorem Suffix.op? {build : TokenRange → Expr → Expr} (h : Suffix s build m) :
    ∃ op, s.op? = some op ∧ op ∈ [".", "->", "++", "--"] := by
  cases h with
  | member hHead hMember => exact ⟨_, hHead, by rcases hMember with rfl | rfl <;> decide⟩
  | @step i t ts op step hHead hStep =>
      refine ⟨op, hHead, ?_⟩
      simp only [StepOp.ofSymbol?] at hStep
      split at hStep
      · simp_all
      · split at hStep
        · simp_all
        · cases hStep

theorem Opening.index_lt {build : TokenRange → Expr → Expr} (h : Opening s build m) :
    s.index < m.index := by
  cases h with
  | paren => exact Nat.lt_succ_self _
  | cast _ _ hAngle hWords hOpen =>
      have hFirst := (isLocal_expect _ hAngle).index_le
      have hSecond := (isLocal_angleWords _ _ _ hWords).index_le
      have hThird := (isLocal_expect _ hOpen).index_le
      dsimp only at hFirst ⊢
      omega

theorem Suffix.index_lt {build : TokenRange → Expr → Expr} (h : Suffix s build m) :
    s.index < m.index := by
  cases h <;> dsimp only <;> omega

namespace Source

/-- One source is what is left behind some tokens of another. -/
def Leads (s rest : Source) : Prop :=
  ∃ used, s.tokens = used ++ rest.tokens ∧ rest.index = s.index + used.length

theorem Leads.refl (s : Source) : s.Leads s :=
  ⟨[], rfl, rfl⟩

theorem Leads.trans (h : s.Leads m) (h' : m.Leads rest) : s.Leads rest := by
  obtain ⟨used, hTokens, hIndex⟩ := h
  obtain ⟨used', hTokens', hIndex'⟩ := h'
  refine ⟨used ++ used', by rw [hTokens, hTokens', List.append_assoc], ?_⟩
  rw [hIndex', hIndex, List.length_append, Nat.add_assoc]

theorem Leads.index_le (h : s.Leads rest) : s.index ≤ rest.index := by
  obtain ⟨used, -, hIndex⟩ := h
  omega

/-- What is left of all tokens. -/
theorem Leads.drop {all : List Token} (h : s.Leads m) (hs : s.tokens = all.drop s.index) :
    m.tokens = all.drop m.index := by
  obtain ⟨used, hTokens, hIndex⟩ := h
  rw [hIndex, ← List.drop_drop, ← hs, hTokens, List.drop_left]

theorem Leads.tokens_ne_nil (h : s.Leads m) (hm : m.tokens ≠ []) : s.tokens ≠ [] := by
  obtain ⟨used, hTokens, -⟩ := h
  rw [hTokens]
  exact List.append_ne_nil_of_right_ne_nil _ hm

theorem Leads.tokens_eq_nil (h : s.Leads m) (hs : s.tokens = []) : m.tokens = [] := by
  obtain ⟨used, hTokens, -⟩ := h
  exact (List.append_eq_nil_iff.mp (hTokens.symm.trans hs)).2

theorem Moves.leads {R : Source → Source → Prop} (h : Moves R s rest) : s.Leads rest := by
  obtain ⟨used, hTokens, hIndex, -⟩ := h
  exact ⟨used, hTokens, hIndex⟩

theorem leads_next {op : String} (h : s.op? = some op) : s.Leads s.next := by
  obtain ⟨i, ts⟩ := s
  cases ts with
  | nil => cases h
  | cons t ts => exact ⟨[t], rfl, rfl⟩

theorem op?_of_isAt {op : String} (h : s.isAt op = true) : s.op? = some op := by
  simpa [isAt] using h

theorem eq_next_of_expect {wanted : String} (h : s.expect wanted = .ok rest) : rest = s.next := by
  obtain ⟨i, ts⟩ := s
  cases ts with
  | nil => cases h
  | cons t ts =>
      simp only [expect] at h
      split at h
      · cases h
        rfl
      · cases h

theorem leads_expect {wanted : String} (h : s.expect wanted = .ok rest) :
    s.Leads rest ∧ s.index < rest.index := by
  refine ⟨(passes_expect h).moves.leads, ?_⟩
  rw [eq_next_of_expect h]
  exact Nat.lt_succ_self _

end Source

theorem op?_of_bind {α : Type} {f : String → Option α} {a : α} (h : s.op?.bind f = some a) :
    ∃ op, s.op? = some op ∧ f op = some a :=
  Option.bind_eq_some_iff.mp h

/-- What is read stands at the front of the source. -/
theorem Parses.leads {es : List Expr} (h : Parses g s es rest) : s.Leads rest := by
  induction h with
  | expression _ _ ihFirst ihItems => exact ihFirst.trans ihItems
  | noItem | lastOperand | lastSuffix | noArguments => exact .refl _
  | item hNext _ _ ihFirst ihItems =>
      exact (leads_next (op?_of_isAt hNext)).trans (ihFirst.trans ihItems)
  | atom hAtom => exact (isLocal_atom _ _ hAtom).leads
  | prefixed hPrefix _ ih => exact (isLocal_prefixed _ _ hPrefix).leads.trans ih
  | assign _ _ hOp _ ihTarget ihValue =>
      obtain ⟨op, hOp, -⟩ := op?_of_bind hOp
      exact ihTarget.trans ((leads_next hOp).trans ihValue)
  | unassigned _ _ _ ih | unconditional _ _ ih => exact ih
  | conditional _ hMark _ hColon _ ihCondition ihTrue ihFalse =>
      exact ihCondition.trans ((leads_next (op?_of_isAt hMark)).trans
        (ihTrue.trans ((leads_expect hColon).1.trans ihFalse)))
  | binary _ _ ihLeft ihOperands => exact ihLeft.trans ihOperands
  | operand hOp _ _ _ ihRight ihOperands =>
      obtain ⟨op, hOp, -⟩ := op?_of_bind hOp
      exact (leads_next hOp).trans (ihRight.trans ihOperands)
  | simple _ _ _ ihBase ihSuffixes => exact ihBase.trans ihSuffixes
  | suffix hSuffix _ ih => exact (isLocal_suffix _ hSuffix).leads.trans ih
  | bracket _ hOpen _ hClose _ ihInner ihSuffixes =>
      exact (leads_next (op?_of_isAt hOpen)).trans
        (ihInner.trans ((leads_expect hClose).1.trans ihSuffixes))
  | arguments _ _ _ ihFirst ihItems => exact ihFirst.trans ihItems
  | enclosed hOpening _ hClose ih =>
      exact (passes_opening hOpening).moves.leads.trans (ih.trans (leads_expect hClose).1)

variable {es : List Expr}

namespace Source

/-- No operator of at least the given precedence comes next. -/
def BinaryEnds (s : Source) (least : Nat) : Prop :=
  ∀ op, s.op?.bind BinaryOp.ofSymbol? = some op → op.precedence < least

/-- Nothing comes next that goes on with a conditional expression. -/
def ConditionalEnds (s : Source) : Prop :=
  s.BinaryEnds BinaryOp.or.precedence ∧ s.isAt "?" = false

/-- Nothing comes next that goes on with an assignment. -/
def AssignmentEnds (s : Source) : Prop :=
  s.ConditionalEnds ∧ s.op?.bind AssignOp.ofSymbol? = none

/-- Nothing comes next that belongs to an operand. -/
def IsClosed (s : Source) : Prop :=
  ∀ op, s.op? = some op → op ∉ "::" :: suffixOperators

theorem op?_of_isAtEnd (h : s.isAtEnd = true) {op : String} (hOp : s.op? = some op) :
    op ∈ [")", "]", ",", ":"] := by
  obtain ⟨t, hPeek, hToken⟩ := Option.bind_eq_some_iff.mp hOp
  simp only [isAtEnd, hPeek, hToken, Option.any_some, Bool.or_eq_true, beq_iff_eq] at h
  simpa [or_assoc] using h

/-- Where an expression cannot go on, no operator with two operands comes. -/
theorem assignmentEnds_of_isAtEnd (h : s.isAtEnd = true) : s.AssignmentEnds := by
  have hNone : ∀ op ∈ [")", "]", ",", ":"],
      BinaryOp.ofSymbol? op = none ∧ AssignOp.ofSymbol? op = none ∧ op ≠ "?" := by decide
  refine ⟨⟨fun op hOp => ?_, Bool.eq_false_iff.mpr fun hMark => ?_⟩, ?_⟩
  · obtain ⟨symbol, hSymbol, hOp⟩ := op?_of_bind hOp
    rw [(hNone symbol (op?_of_isAtEnd h hSymbol)).1] at hOp
    cases hOp
  · exact (hNone "?" (op?_of_isAtEnd h (op?_of_isAt hMark))).2.2 rfl
  · refine Option.eq_none_iff_forall_ne_some.mpr fun op hOp => ?_
    obtain ⟨symbol, hSymbol, hOp⟩ := op?_of_bind hOp
    rw [(hNone symbol (op?_of_isAtEnd h hSymbol)).2.1] at hOp
    cases hOp

theorem isClosed_of_op? {op : String} (h : s.op? = some op) (hOp : op ∉ "::" :: suffixOperators) :
    s.IsClosed := by
  intro op' h'
  rw [h] at h'
  cases h'
  exact hOp

theorem IsClosed.isAt (h : s.IsClosed) {op : String} (hOp : op ∈ "::" :: suffixOperators) :
    s.isAt op = false :=
  Bool.eq_false_iff.mpr fun hNext => h op (op?_of_isAt hNext) hOp

theorem isClosed_of_isAt {op : String} (h : s.isAt op = true)
    (hOp : op ∉ "::" :: suffixOperators) : s.IsClosed :=
  isClosed_of_op? (op?_of_isAt h) hOp

theorem isClosed_of_binary {op : BinaryOp} (h : s.op?.bind BinaryOp.ofSymbol? = some op) :
    s.IsClosed := by
  obtain ⟨symbol, hSymbol, hOp⟩ := op?_of_bind h
  have hSame : op.symbol = symbol := by simpa using List.find?_some hOp
  refine isClosed_of_op? hSymbol (hSame ▸ ?_)
  cases op <;> decide

theorem isClosed_of_assign {op : AssignOp} (h : s.op?.bind AssignOp.ofSymbol? = some op) :
    s.IsClosed := by
  obtain ⟨symbol, hSymbol, hOp⟩ := op?_of_bind h
  have hSame : op.symbol = symbol := by simpa using List.find?_some hOp
  have hOther : ∀ op ∈ AssignOp.all, op.symbol ∉ "::" :: suffixOperators := by decide
  exact isClosed_of_op? hSymbol (hSame ▸ hOther op (List.mem_of_find?_eq_some hOp))

/-- A punctuator is read as itself. -/
theorem isAt_of_expect {wanted : String} (h : s.expect wanted = .ok rest)
    (hText : (Text.ofString wanted).display = wanted) : s.isAt wanted = true := by
  obtain ⟨i, ts⟩ := s
  cases ts with
  | nil => cases h
  | cons t ts =>
      simp only [expect] at h
      split at h
      · rename_i hPunct
        cases h
        obtain ⟨hKind, hLexeme⟩ : t.kind = .punctuator ∧ t.lexeme = Text.ofString wanted := by
          simpa [Token.isPunct] using hPunct
        simp [isAt, op?, peek?, operator?, hKind, Token.spelling, hLexeme, hText]
      · cases h

end Source

/-- Operators before an operand bind more tightly than those between two. -/
theorem precedence_lt_unary (op : BinaryOp) : op.precedence < unaryPrecedence := by
  cases op <;> decide

/-- What comes behind what was read for a goal does not go on with it. -/
def Goal.Ends (s rest : Source) : Goal → Prop
  | .expression => rest.AssignmentEnds ∧ rest.isAt "," = false
  | .items => (s.AssignmentEnds → rest.AssignmentEnds) ∧ rest.isAt "," = false
  | .assignment => rest.AssignmentEnds
  | .conditional => rest.ConditionalEnds
  | .binary least | .operands least _ _ => rest.BinaryEnds least
  | _ => True

theorem Parses.ends (h : Parses g s es rest) : g.Ends s rest := by
  induction h with
  | expression _ _ ihFirst ihItems => exact ⟨ihItems.1 ihFirst, ihItems.2⟩
  | noItem hNext => exact ⟨id, hNext⟩
  | item _ _ _ ihFirst ihItems => exact ⟨fun _ => ihItems.1 ihFirst, ihItems.2⟩
  | atom hAtom =>
      cases hAtom with
      | raise _ hEnd => exact Source.assignmentEnds_of_isAtEnd hEnd
      | _ => trivial
  | prefixed hPrefix _ ih =>
      cases hPrefix with
      | throw => exact ih
      | _ => trivial
  | assign _ _ _ _ _ ihValue => exact ihValue
  | unassigned _ _ hOp ih => exact ⟨ih, hOp⟩
  | conditional _ _ _ _ _ _ _ ihFalse => exact ihFalse.1
  | unconditional _ hMark ih => exact ⟨ih, hMark⟩
  | binary _ _ _ ih | operand _ _ _ _ _ ih => exact ih
  | lastOperand hNext => exact hNext
  | simple | lastSuffix | suffix | bracket | noArguments | arguments | enclosed => trivial

/-- Before further items comes a comma or what is behind all of them. -/
theorem Parses.isClosed_items (h : Parses .items s es rest) (hRest : rest.IsClosed) :
    s.IsClosed := by
  cases h with
  | noItem => exact hRest
  | item hNext => exact Source.isClosed_of_isAt hNext (by decide)
  | atom hAtom => cases hAtom
  | prefixed hPrefix => cases hPrefix

/-- Before further operands comes an operator or what is behind all of them. -/
theorem Parses.isClosed_operands {least start : Nat} {left : Expr}
    (h : Parses (.operands least start left) s es rest) (hRest : rest.IsClosed) : s.IsClosed := by
  cases h with
  | lastOperand => exact hRest
  | operand hOp => exact Source.isClosed_of_binary hOp
  | atom hAtom => cases hAtom
  | prefixed hPrefix => cases hPrefix

/-- Before further suffixes no qualifier comes. -/
theorem Parses.isAt_suffixes {start : Nat} {base : Expr}
    (h : Parses (.suffixes start base) s es rest) (hRest : rest.IsClosed) :
    s.isAt "::" = false := by
  cases h with
  | lastSuffix => exact hRest.isAt (by decide)
  | suffix hSuffix =>
      cases hSuffix with
      | member hHead hMember =>
          simp only [Source.isAt, Source.op?, Source.peek?, List.head?_cons, Option.bind_some,
            hHead]
          rcases hMember with rfl | rfl <;> decide
      | step hHead hStep =>
          simp only [Source.isAt, Source.op?, Source.peek?, List.head?_cons, Option.bind_some,
            hHead]
          refine Bool.eq_false_iff.mpr fun hSame => ?_
          simp only [beq_iff_eq, Option.some.injEq] at hSame
          subst hSame
          cases hStep
  | bracket hBracket hOpen =>
      rw [Source.isAt, Source.op?_of_isAt hOpen]
      cases hBracket <;> decide
  | atom hAtom => cases hAtom
  | prefixed hPrefix => cases hPrefix

end Demacro.Expr
