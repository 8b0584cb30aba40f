import Demacro.Proofs.Expr.Continuation
import Demacro.Proofs.Expr.Grouping
import Demacro.Proofs.Expr.Parsing

/-!
What a reading starts with. Where an expression is asked for that may hold together no more tightly
than a given one, and the tokens of that one come first, what is read there has it as a node.
-/

namespace Demacro.Expr

open Source

variable {g : Goal} {s m k rest rest' : Source} {n p q start least : Nat} {e base left B : Expr}
  {es : List Expr} {body tail : List Token}

theorem Suffix.unique {build build' : TokenRange → Expr → Expr} {m' : Source} (h : Suffix s build m)
    (h' : Suffix s build' m') : build = build' ∧ m = m' := by
  have hOther : ∀ {op step}, op = "." ∨ op = "->" → StepOp.ofSymbol? op ≠ some step := by
    rintro op step (rfl | rfl) <;> simp [StepOp.ofSymbol?]
  cases h with
  | member hHead hMember =>
      cases h' with
      | member hHead' =>
          cases hHead.symm.trans hHead'
          exact ⟨rfl, rfl⟩
      | step hHead' hStep =>
          cases hHead.symm.trans hHead'
          exact absurd hStep (hOther hMember)
  | step hHead hStep =>
      cases h' with
      | member hHead' hMember =>
          cases hHead.symm.trans hHead'
          exact absurd hStep (hOther hMember)
      | step hHead' hStep' =>
          cases hHead.symm.trans hHead'
          cases hStep.symm.trans hStep'
          exact ⟨rfl, rfl⟩

/-- No suffix starts with an opening bracket. -/
theorem Suffix.not_isAt {build : TokenRange → Expr → Expr} {opener closer : String}
    {build' : TokenRange → Expr → List Expr → Expr} (h : Suffix s build m)
    (hBracket : Bracket opener g closer build') : s.isAt opener = false := by
  obtain ⟨op, hOp, hMem⟩ := h.op?
  refine Bool.eq_false_iff.mpr fun hOpen => ?_
  cases hOp.symm.trans (op?_of_isAt hOpen)
  exact absurd hMem (by cases hBracket <;> decide)

theorem Bracket.unique {g' : Goal} {opener closer closer' : String}
    {build build' : TokenRange → Expr → List Expr → Expr} (h : Bracket opener g closer build)
    (h' : Bracket opener g' closer' build') : g = g' ∧ closer = closer' ∧ build = build' := by
  generalize hOpener : opener = other at h'
  cases h <;> cases h' <;> simp_all

namespace Parses

/-- With an operand that starts with neither an operator nor a cast, suffixes are read. -/
theorem suffixes_of_isPlain (h : Parses .unary s [e] rest) (hPlain : s.IsPlain) :
    ∃ base m, Parses .primary s [base] m ∧ Parses (.suffixes s.index base) m [e] rest := by
  obtain ⟨t, ht, hHead, hCast⟩ := hPlain
  cases h with
  | simple _ hBase hSuffixes => exact ⟨_, _, hBase, hSuffixes⟩
  | atom hAtom =>
      cases hAtom with
      | measure hHead' | allocate hHead' =>
          cases ht
          cases hHead.symm.trans hHead'
  | prefixed hPrefix =>
      cases hPrefix with
      | operator hHead' | measure hHead' | free hHead' | freeAll hHead' =>
          cases ht
          cases hHead.symm.trans hHead'
      | cast hParen hType =>
          cases ht
          cases (hCast hParen).symm.trans hType

theorem after_suffix {build : TokenRange → Expr → Expr}
    (h : Parses (.suffixes start base) s [e] rest) (hSuffix : Suffix s build m) :
    Parses (.suffixes start (build ⟨start, m.index⟩ base)) m [e] rest := by
  cases h with
  | atom hAtom => cases hAtom
  | prefixed hPrefix => cases hPrefix
  | lastSuffix hNext =>
      obtain ⟨op, hOp, hMem⟩ := hSuffix.op?
      refine absurd ?_ (hNext op hOp)
      have hSome : ∀ op ∈ [".", "->", "++", "--"], op ∈ suffixOperators := by decide
      exact hSome op hMem
  | suffix hSuffix' hSuffixes =>
      obtain ⟨rfl, rfl⟩ := hSuffix.unique hSuffix'
      exact hSuffixes
  | bracket hBracket hOpen => exact absurd hOpen (Bool.eq_false_iff.mp (hSuffix.not_isAt hBracket))

theorem after_bracket {opener closer : String} {build : TokenRange → Expr → List Expr → Expr}
    (h : Parses (.suffixes start base) s [e] rest) (hBracket : Bracket opener g closer build)
    (hOpen : s.isAt opener = true) (hInner : Parses g s.next es m)
    (hClose : m.expect closer = .ok k) :
    Parses (.suffixes start (build ⟨start, k.index⟩ base es)) k [e] rest := by
  have hOp := op?_of_isAt hOpen
  cases h with
  | atom hAtom => cases hAtom
  | prefixed hPrefix => cases hPrefix
  | lastSuffix hNext => exact absurd (by cases hBracket <;> decide) (hNext opener hOp)
  | suffix hSuffix => exact absurd hOpen (Bool.eq_false_iff.mp (hSuffix.not_isAt hBracket))
  | bracket hBracket' hOpen' hInner' hClose' hSuffixes =>
      cases (op?_of_isAt hOpen').symm.trans hOp
      obtain ⟨rfl, rfl, rfl⟩ := hBracket.unique hBracket'
      obtain ⟨rfl, rfl⟩ := hInner.unique hInner'
      cases hClose.symm.trans hClose'
      exact hSuffixes

/-- Behind an operator that is read, the operand that is read goes on with what was there before. -/
theorem after_operand {op : BinaryOp} {right : Expr}
    (h : Parses (.operands q start left) s [e] rest) (hOp : s.op?.bind BinaryOp.ofSymbol? = some op)
    (hLeast : q ≤ op.precedence) (hRight : Parses (.binary (op.precedence + 1)) s.next [right] m) :
    Parses (.operands q start (.binary ⟨start, m.index⟩ op left right)) m [e] rest := by
  cases h with
  | atom hAtom => cases hAtom
  | prefixed hPrefix => cases hPrefix
  | lastOperand hNext => exact absurd hLeast (Nat.not_le.mpr (hNext op hOp))
  | operand hOp' _ hRight' hOperands =>
      cases hOp.symm.trans hOp'
      obtain ⟨hSame, rfl⟩ := hRight.unique hRight'
      cases hSame
      exact hOperands

end Parses

/-- Further operands make what is read hold together no more tightly. -/
def Goal.Loosens (s : Source) (es : List Expr) : Goal → Prop
  | .operands _ _ left =>
      s.BinaryEnds (left.precedence + 1) → ∀ e ∈ es, e.precedence ≤ left.precedence
  | _ => True

theorem Parses.loosens (h : Parses g s es rest) : g.Loosens s es := by
  induction h with
  | lastOperand => exact fun _ => List.forall_mem_singleton.mpr (Nat.le_refl _)
  | operand hOp _ hRight _ _ ih =>
      exact fun hEnds e he => Nat.le_trans (ih hRight.ends e he) (Nat.lt_succ_iff.mp (hEnds _ hOp))
  | atom hAtom => cases hAtom <;> trivial
  | prefixed hPrefix => cases hPrefix <;> trivial
  | _ => trivial

/-- What a loop makes of tokens it also makes on its way where others follow. -/
def Goal.Regains (n : Nat) (tail : List Token) (s : Source) (es : List Expr) : Goal → Prop
  | .operands _ start left => s.BinaryEnds (left.precedence + 1) → ∀ q e rest',
    Parses (.operands q (n + start) (left.moved n)) (s.extended n tail) [e] rest' →
      ∀ B ∈ es, q ≤ B.precedence → B.moved n ∈ e.nodes
  | .suffixes start base => ∀ e rest',
    Parses (.suffixes (n + start) (base.moved n)) (s.extended n tail) [e] rest' →
      ∀ B ∈ es, B.moved n ∈ e.nodes
  | _ => True

theorem Parses.regains (h : Parses g s es rest) (hs : s.tokens = body.drop s.index)
    (hApart : ∀ X ∈ nodesAll es, ¬ Absorbs body tail X) (hRest : rest.tokens = [])
    (hTail : ∀ B ∈ es, (rest.extended n tail).Follows B.precedence) : g.Regains n tail s es := by
  induction h with
  | @lastOperand least start left s hNext =>
      intro _ q e rest' hWhole
      refine List.forall_mem_singleton.mpr fun _ => ?_
      simpa using hWhole.mem_of_held (X := left.moved n) (by simp [Goal.held, mem_nodes_self])
  | @lastSuffix start base s hNext =>
      intro e rest' hWhole
      refine List.forall_mem_singleton.mpr ?_
      simpa using hWhole.mem_of_held (X := base.moved n) (by simp [Goal.held, mem_nodes_self])
  | @operand least start left right e op s m rest hOp hLeast hRight hOperands _ ih =>
      intro _ q e' rest' hWhole B hB hLevel
      obtain ⟨symbol, hSymbol, -⟩ := op?_of_bind hOp
      have hSome := tokens_ne_nil_of_op? hSymbol
      have hn := (leads_next hSymbol).drop hs
      have hLoose := hOperands.loosens hRight.ends B hB
      have hHeld : ∀ X ∈ right.nodes, X ∈ nodesAll [e] := fun X hX => hOperands.mem_of_held <| by
        rw [Goal.held, nodesAll_singleton]
        exact mem_nodes_of_child (List.mem_cons_of_mem _ List.mem_cons_self) hX
      have hRight' := hRight.extended (n := n) hn
        (fun X hX => hApart X (hHeld X (by simpa using hX))) fun hm =>
          ⟨B.precedence, Nat.lt_succ_of_le hLoose,
            Nat.le_trans hLoose (Nat.le_of_lt (precedence_lt_unary op)),
            (hTail B hB).congr (by simp [Source.extended, hm, hRest])⟩
      rw [← next_extended hSome] at hRight'
      have hOp' : (s.extended n tail).op?.bind BinaryOp.ofSymbol? = some op := by
        rwa [op?_congr (head?_extended hSome)]
      have hWhole' := hWhole.after_operand hOp' (Nat.le_trans hLevel hLoose) hRight'
      exact ih (hRight.leads.drop hn) hApart hRest hTail hRight.ends q e' rest' hWhole' B hB hLevel
  | @suffix start base e s m rest build hSuffix hSuffixes ih =>
      intro e' rest' hWhole
      have hPasses := passes_suffix hSuffix
      refine ih (hPasses.moves.leads.drop hs) hApart hRest hTail e' rest' ?_
      rw [hSuffix.moved_eq]
      exact hWhole.after_suffix (hPasses.extended trivial)
  | @bracket start base e es s m k rest g opener closer build hBracket hOpen hInner hClose
      hSuffixes _ ih =>
      intro e' rest' hWhole
      have hSymbol := op?_of_isAt hOpen
      have hSome := tokens_ne_nil_of_op? hSymbol
      have hm : m.tokens ≠ [] :=
        tokens_ne_nil_of_op? (op?_of_isAt (isAt_of_expect hClose (by cases hBracket <;> decide)))
      have hn := (leads_next hSymbol).drop hs
      have hInner' := hInner.extended (n := n) hn (fun X hX => hApart X (hSuffixes.mem_of_held ?_))
        (absurd · hm)
      · rw [← next_extended hSome, Goal.moved_of_bracket hBracket] at hInner'
        refine ih ((leads_expect hClose).1.drop (hInner.leads.drop hn)) hApart hRest hTail e'
          rest' ?_
        rw [hBracket.moved_eq]
        exact hWhole.after_bracket hBracket (isAt_extended hOpen) hInner'
          ((passes_expect hClose).extended trivial)
      · rw [Goal.held, nodesAll_singleton]
        exact hBracket.mem_nodes_of_inner hInner hX
  | atom hAtom => cases hAtom <;> trivial
  | prefixed hPrefix => cases hPrefix <;> trivial
  | _ => trivial

/-- The tokens behind a body leave what it is read as alone. -/
structure Bounded (body behind : List Token) (B : Expr) : Prop where
  follows : (Source.mk 0 behind).Follows B.precedence
  /-- What is measured takes suffixes to itself. -/
  measured : B.isMeasure = true → (Source.mk 0 behind).Follows unaryPrecedence
  apart : ∀ X ∈ B.nodes, ¬ Absorbs body behind X

theorem precedence_le (e : Expr) : e.precedence ≤ primaryPrecedence := by
  cases e with
  | binary r op => exact Nat.le_trans (Nat.le_of_lt (precedence_lt_unary op)) (by decide)
  | _ => simp [precedence, unaryPrecedence, primaryPrecedence]

namespace Bounded

variable (h : Bounded body tail B)

include h

theorem follows_extended (hRest : rest.tokens = []) : (rest.extended n tail).Follows B.precedence :=
  h.follows.congr (by simp [Source.extended, hRest])

/-- An operator before its operand takes no more tokens than before. -/
theorem follows_unary (hRest : rest.tokens = [])
    (hLevel : B.precedence ≤ unaryPrecedence ∨ B.isMeasure = true) :
    (rest.extended n tail).Follows unaryPrecedence := by
  rcases hLevel with hLevel | hMeasure
  · exact (h.follows_extended hRest).mono hLevel
  · exact (h.measured hMeasure).congr (by simp [Source.extended, hRest])

theorem apart_single : ∀ X ∈ nodesAll [B], ¬ Absorbs body tail X := by
  simpa using h.apart

theorem unary (hB : Parses .unary s [B] m) (hs : s.tokens = body.drop s.index) (hm : m.tokens = [])
    (hWhole : Parses .unary (s.extended n tail) [e] rest) : B.moved n ∈ e.nodes := by
  have hClosed : (B.precedence ≤ unaryPrecedence ∨ B.isMeasure = true) → B.moved n ∈ e.nodes := by
    intro hLevel
    have hB' := hB.extended (n := n) hs h.apart_single fun _ => h.follows_unary hm hLevel
    obtain ⟨hSame, -⟩ := hB'.unique hWhole
    rw [List.map_singleton, List.cons.injEq] at hSame
    rw [hSame.1]
    exact mem_nodes_self e
  cases hB with
  | atom hAtom =>
      cases hAtom with
      | measure => exact hClosed (.inr rfl)
      | allocate => exact hClosed (.inl (Nat.le_refl _))
  | prefixed hPrefix =>
      cases hPrefix with
      | measure => exact hClosed (.inr rfl)
      | _ => exact hClosed (.inl (Nat.le_refl _))
  | @simple _ k _ base _ hPlain hBase hSuffixes =>
      have hApart : ∀ X ∈ nodesAll [base], ¬ Absorbs body tail X :=
        fun X hX => h.apart_single X (hSuffixes.mem_of_held hX)
      have hBase' := hBase.extended (n := n) hs hApart fun hk =>
        (h.follows_extended hk).mono (precedence_le B)
      have hPlain' := hBase.isPlain_extended (n := n) hPlain hs
        (hApart base (by simp [mem_nodes_self]))
      obtain ⟨base', m', hBaseWhole, hSuffixesWhole⟩ := hWhole.suffixes_of_isPlain hPlain'
      obtain ⟨hSame, rfl⟩ := hBase'.unique hBaseWhole
      cases hSame
      exact hSuffixes.regains (hBase.leads.drop hs) h.apart_single hm
        (by simpa using h.follows_extended hm) _ _ hSuffixesWhole B (List.mem_singleton_self B)

theorem binary (hB : Parses (.binary least) s [B] m) (hs : s.tokens = body.drop s.index)
    (hm : m.tokens = []) (hLevel : q ≤ B.precedence)
    (hWhole : Parses (.binary q) (s.extended n tail) [e] rest) : B.moved n ∈ e.nodes := by
  cases hWhole with
  | atom hAtom => cases hAtom
  | prefixed hPrefix => cases hPrefix
  | @binary _ _ m' _ left' _ hLeft' hOperands' =>
  cases hB with
  | atom hAtom => cases hAtom
  | prefixed hPrefix => cases hPrefix
  | @binary _ _ k _ left _ hLeft hOperands =>
  cases hOperands with
  | atom hAtom => cases hAtom
  | prefixed hPrefix => cases hPrefix
  | lastOperand =>
      have hMem := h.unary hLeft hs hm hLeft'
      simpa using hOperands'.mem_of_held (by simpa [Goal.held] using hMem)
  | @operand _ _ _ right _ op _ l _ hOp hLeast hRight hOperands =>
      have hk : k.tokens ≠ [] := by
        obtain ⟨symbol, hSymbol, -⟩ := op?_of_bind hOp
        exact tokens_ne_nil_of_op? hSymbol
      have hAll := Parses.operand hOp hLeast hRight hOperands
      have hLeftB := hLeft.extended (n := n) hs
        (fun X hX => h.apart_single X (hAll.mem_of_held hX)) (absurd · hk)
      obtain ⟨hSame, rfl⟩ := hLeftB.unique hLeft'
      cases hSame
      have hTight := hLeft.tight left (List.mem_singleton_self left)
      refine hAll.regains (hLeft.leads.drop hs) h.apart_single hm
        (by simpa using h.follows_extended hm)
        (fun op' _ => ?_) q e rest hOperands' B (List.mem_singleton_self B) hLevel
      have hOpLevel := precedence_lt_unary op'
      omega

end Bounded

/-- The goals that an expression is read for as a whole, by how tightly it holds together. -/
def Goal.Suits (B : Expr) : Goal → Prop
  | .expression | .assignment => True
  | .binary least => BinaryOp.or.precedence ≤ least ∧ least ≤ B.precedence
  | .unary => unaryPrecedence ≤ B.precedence
  | _ => False

/-- In an assignment that is no `throw`, operands are read first. -/
theorem Parses.binary_of_assignment (h : Parses .assignment s [e] rest)
    (hHead : s.isAtName "throw" = false) :
    ∃ c m, Parses (.binary BinaryOp.or.precedence) s [c] m ∧ ∀ X ∈ c.nodes, X ∈ e.nodes := by
  have hConditional : ∀ {e rest}, Parses .conditional s [e] rest →
      ∃ c m, Parses (.binary BinaryOp.or.precedence) s [c] m ∧ ∀ X ∈ c.nodes, X ∈ e.nodes := by
    intro e rest h
    cases h with
    | conditional hCondition =>
        exact ⟨_, _, hCondition, fun X hX => mem_nodes_of_child List.mem_cons_self hX⟩
    | unconditional hOperand => exact ⟨_, _, hOperand, fun X hX => hX⟩
    | atom hAtom => cases hAtom
    | prefixed hPrefix => cases hPrefix
  cases h with
  | atom hAtom =>
      cases hAtom with
      | raise hThrow => cases hThrow.symm.trans hHead
  | prefixed hPrefix =>
      cases hPrefix with
      | throw hThrow => cases hThrow.symm.trans hHead
  | assign _ hTarget =>
      obtain ⟨c, m, hBinary, hMem⟩ := hConditional hTarget
      exact ⟨c, m, hBinary, fun X hX => mem_nodes_of_child List.mem_cons_self (hMem X hX)⟩
  | unassigned _ hOperand => exact hConditional hOperand

/-- What is read first for an expression. -/
theorem Parses.assignment_of_expression (h : Parses .expression s [e] rest) :
    ∃ c m, Parses .assignment s [c] m ∧ (∀ X ∈ c.nodes, X ∈ e.nodes)
      ∧ (e.isComma = false → e = c ∧ rest = m) := by
  cases h with
  | @expression c es _ m _ hFirst hItems =>
      refine ⟨c, m, hFirst, fun X hX => mem_nodes_listed_of_first hX, fun hComma => ?_⟩
      cases hItems with
      | noItem => exact ⟨rfl, rfl⟩
      | item => cases hComma
      | atom hAtom => cases hAtom
      | prefixed hPrefix => cases hPrefix
  | atom hAtom => cases hAtom
  | prefixed hPrefix => cases hPrefix

/-- Where what holds together as tightly as an operand is read for a binary expression, it is read
as one operand. -/
theorem Parses.unary_of_binary (h : Parses (.binary least) s [e] rest)
    (hLevel : unaryPrecedence ≤ e.precedence) : Parses .unary s [e] rest := by
  cases h with
  | atom hAtom => cases hAtom
  | prefixed hPrefix => cases hPrefix
  | binary hLeft hOperands =>
      cases hOperands with
      | atom hAtom => cases hAtom
      | prefixed hPrefix => cases hPrefix
      | lastOperand => exact hLeft
      | @operand _ _ _ _ _ op _ _ _ _ _ hRight hOperands =>
          have hLoose := hOperands.loosens hRight.ends e (List.mem_singleton_self e)
          exact absurd (precedence_lt_unary op) (Nat.not_lt.mpr (Nat.le_trans hLevel hLoose))

/-- An expression that a body is read as is a node of what is read where the body comes first, if
that is read for something that the expression suits. -/
theorem Bounded.mem_nodes (h : Bounded body tail B) (hComma : B.isComma = false)
    (hB : Parses .expression s [B] m) (hs : s.tokens = body.drop s.index) (hm : m.tokens = [])
    (hSuits : g.Suits B) (hWhole : Parses g (s.extended n tail) [e] rest) :
    B.moved n ∈ e.nodes := by
  obtain ⟨c, m', hFirst, -, hSame⟩ := hB.assignment_of_expression
  obtain ⟨rfl, rfl⟩ := hSame hComma
  have hSome := hFirst.tokens_ne_nil trivial
  -- What holds together least tightly is read as a whole, so it suits nothing else.
  have hLoose : B.precedence = 2 → B.moved n ∈ e.nodes := by
    intro hLevel
    have hFirst' := hFirst.extended (n := n) hs h.apart_single
      fun _ => (h.follows_extended hm).mono (Nat.le_of_eq hLevel)
    cases g with
    | expression =>
        obtain ⟨c, m', hAssignment, hMem, -⟩ := hWhole.assignment_of_expression
        cases (hFirst'.unique hAssignment).1
        exact hMem _ (mem_nodes_self _)
    | assignment =>
        cases (hFirst'.unique hWhole).1
        exact mem_nodes_self _
    | binary least =>
        have hLeast := Nat.le_trans hSuits.1 hSuits.2
        rw [hLevel] at hLeast
        exact absurd hLeast (by decide)
    | unary =>
        have hLeast : unaryPrecedence ≤ B.precedence := hSuits
        rw [hLevel] at hLeast
        exact absurd hLeast (by decide)
    | _ => cases hSuits
  cases hFirst with
  | atom hAtom =>
      cases hAtom with
      | raise => exact hLoose rfl
  | prefixed hPrefix =>
      cases hPrefix with
      | throw => exact hLoose rfl
  | assign => exact hLoose rfl
  | unassigned hHead hOperand =>
  cases hOperand with
  | atom hAtom => cases hAtom
  | prefixed hPrefix => cases hPrefix
  | conditional => exact hLoose rfl
  | unconditional hBinary =>
      have hHead' : (s.extended n tail).isAtName "throw" = false := by
        rwa [isAtName_congr (head?_extended hSome)]
      have hLevel := hBinary.tight (by decide) B (List.mem_singleton_self B)
      have hAssignment : ∀ {e rest}, Parses .assignment (s.extended n tail) [e] rest →
          B.moved n ∈ e.nodes := by
        intro e rest hWhole
        obtain ⟨c, m', hFirst, hMem⟩ := hWhole.binary_of_assignment hHead'
        exact hMem _ (h.binary hBinary hs hm hLevel hFirst)
      cases g with
      | expression =>
          obtain ⟨c, m', hFirst, hMem, -⟩ := hWhole.assignment_of_expression
          exact hMem _ (hAssignment hFirst)
      | assignment => exact hAssignment hWhole
      | binary least => exact h.binary hBinary hs hm hSuits.2 hWhole
      | unary => exact h.unary (hBinary.unary_of_binary hSuits) hs hm hWhole
      | _ => cases hSuits

end Demacro.Expr
