import Demacro.Proofs.Expr.Continuation
import Demacro.Proofs.Expr.Grouping

/-!
What stands behind the nodes of an expression. It is an operator or a bracket, and no operator that
asks for what holds together more tightly than the node does.
-/

namespace Demacro.Expr

open Source

variable {g : Goal} {s m rest : Source} {p start least : Nat} {X e : Expr} {es : List Expr}
  {all : List Token} {op : String}

namespace Source.Follows

theorem of_op (hOp : s.op? = some op) (hFollower : op ∈ followers) (hGrip : grip op ≤ p) :
    s.Follows p := by
  intro t ht
  obtain ⟨t', ht', hToken⟩ := Option.bind_eq_some_iff.mp hOp
  cases ht.symm.trans ht'
  exact ⟨op, hToken, hFollower, hGrip⟩

theorem of_isAt (h : s.isAt op = true) (hFollower : op ∈ followers) (hGrip : grip op ≤ p) :
    s.Follows p :=
  of_op (op?_of_isAt h) hFollower hGrip

theorem of_binary {op : BinaryOp} (h : s.op?.bind BinaryOp.ofSymbol? = some op)
    (hLe : op.precedence ≤ p) : s.Follows p := by
  obtain ⟨symbol, hSymbol, hOp⟩ := op?_of_bind h
  have hSame : op.symbol = symbol := by simpa using List.find?_some hOp
  have hFollower : ∀ op ∈ BinaryOp.all, op.symbol ∈ followers := by decide +kernel
  subst hSame
  exact of_op hSymbol (hFollower op (List.mem_of_find?_eq_some hOp)) (by rwa [grip_binary])

theorem of_assign {op : AssignOp} (h : s.op?.bind AssignOp.ofSymbol? = some op) : s.Follows 3 := by
  obtain ⟨symbol, hSymbol, hOp⟩ := op?_of_bind h
  have hSame : op.symbol = symbol := by simpa using List.find?_some hOp
  have hFollower : ∀ op ∈ AssignOp.all, op.symbol ∈ followers ∧ grip op.symbol ≤ 3 := by
    decide +kernel
  subst hSame
  obtain ⟨hMem, hGrip⟩ := hFollower op (List.mem_of_find?_eq_some hOp)
  exact of_op hSymbol hMem hGrip

/-- Where an assignment ends, nothing comes that takes what is looser than an operand. -/
theorem of_ends (h : s.Follows 3) (hEnds : s.AssignmentEnds) : s.Follows 2 := by
  intro t ht
  obtain ⟨op, hOp, hFollower, hGrip⟩ := h t ht
  have hSymbol : s.op? = some op := by rw [op?, Option.mem_def.mp ht, Option.bind_some, hOp]
  refine ⟨op, hOp, hFollower, ?_⟩
  have hCases : ∀ op ∈ followers, grip op ≤ 3 → grip op ≤ 2 ∨ op = "?" ∨ op = "||"
      ∨ (AssignOp.ofSymbol? op).isSome := by decide +kernel
  obtain ⟨⟨hBinary, hMark⟩, hAssign⟩ := hEnds
  rw [hSymbol, Option.bind_some] at hAssign
  rcases hCases op hFollower hGrip with hDone | rfl | rfl | hSome
  · exact hDone
  · simp [isAt, hSymbol] at hMark
  · exact absurd (hBinary .or (by rw [hSymbol]; rfl)) (Nat.lt_irrefl _)
  · simp [hAssign] at hSome

end Source.Follows

/-- What comes next takes nothing away from a node. -/
def Source.Spares (s : Source) (X : Expr) : Prop :=
  ∀ t ∈ s.peek?, ∃ op, operator? t = some op ∧ op ∈ followers
    ∧ (op ∈ suffixOperators → X.isMeasure = false)
    ∧ (op ∉ suffixOperators → grip op ≤ X.precedence)

theorem Source.Follows.spares (h : s.Follows p)
    (hLevel : p ≤ X.precedence ∧ p < primaryPrecedence
      ∨ unaryPrecedence ≤ X.precedence ∧ X.isMeasure = false ∧ p = primaryPrecedence) :
      s.Spares X := by
  intro t ht
  obtain ⟨op, hOp, hFollower, hGrip⟩ := h t ht
  refine ⟨op, hOp, hFollower, fun hSuffix => ?_, fun hOther => ?_⟩
  · rcases hLevel with ⟨-, hLt⟩ | ⟨-, hMeasure, -⟩
    · rw [grip_suffix op hSuffix] at hGrip
      omega
    · exact hMeasure
  · have hLe := grip_le_unary op hFollower hOther
    omega

/-- A node stands among tokens as it was read there: what comes behind it spares it, and the words
of a type in it end where it says. -/
structure Spared (all : List Token) (X : Expr) : Prop where
  spares : (Source.mk X.range.stop (all.drop X.range.stop)).Spares X
  apart : ¬ Absorbs all [] X

/-- What comes behind all that is read for a goal, such that it takes nothing away from it. -/
def Goal.Bears (s rest : Source) : Goal → Prop
  | .expression | .items | .arguments => rest.Follows 0
  | .assignment => rest.Follows 2
  | .conditional => rest.Follows 3
  | .binary least | .operands least _ _ => least ≤ unaryPrecedence ∧ rest.Follows least
  | .unary | .suffixes .. => rest.Follows unaryPrecedence
  | .primary => s.IsPlain ∧ rest.Follows primaryPrecedence

namespace Parses

theorem follows_items (h : Parses .items s es rest) (hRest : rest.Follows 0) : s.Follows 2 := by
  cases h with
  | noItem => exact hRest.mono (Nat.zero_le _)
  | item hNext => exact .of_isAt hNext (by decide +kernel) (by decide +kernel)
  | atom hAtom => cases hAtom
  | prefixed hPrefix => cases hPrefix

theorem follows_operands {left : Expr} (h : Parses (.operands least start left) s es rest)
    (hRest : rest.Follows least) (hEnds : s.BinaryEnds (p + 1)) (hLe : least ≤ p) :
    s.Follows p := by
  cases h with
  | lastOperand => exact hRest.mono hLe
  | operand hOp => exact .of_binary hOp (Nat.lt_succ_iff.mp (hEnds _ hOp))
  | atom hAtom => cases hAtom
  | prefixed hPrefix => cases hPrefix

theorem follows_suffixes {base : Expr} (h : Parses (.suffixes start base) s es rest)
    (hRest : rest.Follows unaryPrecedence) : s.Follows primaryPrecedence := by
  cases h with
  | lastSuffix => exact hRest.mono (by decide)
  | suffix hSuffix =>
      obtain ⟨op, hOp, hMem⟩ := hSuffix.op?
      have hSome : ∀ op ∈ [".", "->", "++", "--"], op ∈ followers
          ∧ grip op ≤ primaryPrecedence := by
        decide +kernel
      exact .of_op hOp (hSome op hMem).1 (hSome op hMem).2
  | bracket hBracket hOpen =>
      refine .of_isAt hOpen ?_ ?_ <;> cases hBracket <;> decide +kernel
  | atom hAtom => cases hAtom
  | prefixed hPrefix => cases hPrefix

end Parses

theorem Spared.of_follows (hRest : rest.tokens = all.drop rest.index)
    (hStop : X.range.stop = rest.index) (h : rest.Spares X) (hApart : ¬ Absorbs all [] X) :
    Spared all X where
  spares := by
    rw [hStop, ← hRest]
    exact h
  apart := hApart

theorem unary_le_primary : unaryPrecedence ≤ primaryPrecedence := by
  decide

theorem spared_nodes (hNode : Spared all e) (hChildren : ∀ X ∈ nodesAll e.children, Spared all X) :
    ∀ X ∈ e.nodes, Spared all X := by
  intro X hX
  rcases mem_nodes.mp hX with rfl | hX
  · exact hNode
  · exact hChildren X hX

/-- What comes behind the nodes of what is read spares them. -/
theorem Parses.spared (h : Parses g s es rest) (hs : s.tokens = all.drop s.index)
    (hBears : g.Bears s rest) (hHeld : ∀ X ∈ nodesAll g.held, Spared all X) :
    ∀ X ∈ nodesAll es, Spared all X := by
  have hRest := h.leads.drop hs
  induction h with
  | @expression e es s m rest hFirst hItems ihFirst ihItems =>
      have hm := hFirst.leads.drop hs
      have hFirst' := ihFirst hs (hItems.follows_items hBears) (by simp [Goal.held]) hm
      have hItems' := ihItems hm hBears (by simp [Goal.held]) hRest
      simp only [nodesAll_singleton] at hFirst' ⊢
      cases es with
      | nil => exact hFirst'
      | cons e' es =>
          refine spared_nodes ?_ fun X hX => ?_
          · exact .of_follows hRest rfl (hBears.spares (.inl ⟨Nat.zero_le _, by decide⟩)) id
          · exact (List.mem_append.mp hX).elim (hFirst' X) (hItems' X)
  | noItem | noArguments => simp
  | @item e es s m rest hNext hFirst hItems ihFirst ihItems =>
      have hn := (leads_next (op?_of_isAt hNext)).drop hs
      have hm := hFirst.leads.drop hn
      have hFirst' := ihFirst hn (hItems.follows_items hBears) (by simp [Goal.held]) hm
      have hItems' := ihItems hm hBears (by simp [Goal.held]) hRest
      simp only [nodesAll_singleton] at hFirst'
      exact fun X hX => (List.mem_append.mp hX).elim (hFirst' X) (hItems' X)
  | @atom g s rest build hAtom =>
      rw [nodesAll_singleton]
      refine spared_nodes ?_ (by rw [hAtom.children_eq]; simp)
      have hStop : (build ⟨s.index, rest.index⟩).range.stop = rest.index := by rw [hAtom.range_eq]
      cases hAtom with
      | raise =>
          exact .of_follows hRest hStop (Follows.spares hBears (.inl ⟨Nat.le_refl _, by decide⟩)) id
      | measure =>
          exact .of_follows hRest hStop (Follows.spares hBears (.inl ⟨unary_le_primary, by decide⟩))
            id
      | @allocate i t ts rest hHead hAllocation =>
          refine .of_follows hRest hStop (Follows.spares hBears (.inl ⟨Nat.le_refl _, by decide⟩))
            ?_
          have hTokens : all.drop (i + 1) = ts := by
            rw [← List.tail_drop, ← hs, List.tail_cons]
          simpa [Absorbs, hTokens, ← hRest] using hAllocation
      | constant | strings | name | qualified =>
          exact .of_follows hRest hStop (hBears.2.spares (.inr ⟨unary_le_primary, rfl, rfl⟩)) id
  | @prefixed g s m rest build e hPrefix hOperand ih =>
      have hm := (isLocal_prefixed g build hPrefix).leads.drop hs
      have hStop : (build ⟨s.index, rest.index⟩ e).range.stop = rest.index := by
        rw [hPrefix.range_eq]
      rw [nodesAll_singleton]
      refine spared_nodes ?_ ?_
      · cases hPrefix with
        | throw =>
            exact .of_follows hRest hStop (Follows.spares hBears (.inl ⟨Nat.le_refl _, by decide⟩))
              id
        | measure =>
            exact .of_follows hRest hStop
              (Follows.spares hBears (.inl ⟨unary_le_primary, by decide⟩)) id
        | _ =>
            exact .of_follows hRest hStop (Follows.spares hBears (.inl ⟨Nat.le_refl _, by decide⟩))
              id
      · rw [hPrefix.children_eq]
        cases hPrefix <;> exact ih hm hBears hHeld hRest
  | @assign s m rest op target value hHead hTarget hOp hValue ihTarget ihValue =>
      obtain ⟨symbol, hSymbol, -⟩ := op?_of_bind hOp
      have hm := hTarget.leads.drop hs
      have hTarget' := ihTarget hs (.of_assign hOp) (by simp [Goal.held]) hm
      have hValue' := ihValue ((leads_next hSymbol).drop hm) hBears (by simp [Goal.held]) hRest
      rw [nodesAll_singleton] at hTarget' ⊢
      refine spared_nodes ?_ fun X hX => ?_
      · exact .of_follows hRest rfl (Follows.spares hBears (.inl ⟨Nat.le_refl _, by decide⟩)) id
      · exact (List.mem_append.mp hX).elim (hTarget' X) (hValue' X)
  | unassigned hHead hOperand hOp ih => exact ih hs (Follows.mono hBears (by decide)) hHeld hRest
  | @conditional s m k l rest condition whenTrue whenFalse hCondition hMark hTrue hColon hFalse
      ihCondition ihTrue ihFalse =>
      have hm := hCondition.leads.drop hs
      have hn := (leads_next (op?_of_isAt hMark)).drop hm
      have hk := hTrue.leads.drop hn
      have hBehind : rest.Follows 2 := Follows.of_ends hBears hFalse.ends
      have hCondition' := ihCondition hs
        ⟨by decide, .of_isAt hMark (by decide +kernel) (by decide +kernel)⟩ (by simp [Goal.held]) hm
      have hTrue' := ihTrue hn (.of_isAt (isAt_of_expect hColon (by decide)) (by decide +kernel)
        (by decide +kernel)) (by simp [Goal.held]) hk
      have hFalse' := ihFalse ((leads_expect hColon).1.drop hk) hBehind (by simp [Goal.held]) hRest
      rw [nodesAll_singleton] at hCondition' hTrue' hFalse' ⊢
      refine spared_nodes ?_ fun X hX => ?_
      · exact .of_follows hRest rfl (hBehind.spares (.inl ⟨Nat.le_refl _, by decide⟩)) id
      · simp only [children, nodesAll_cons, nodesAll_nil, List.append_nil, List.mem_append] at hX
        rcases hX with hX | hX | hX
        · exact hCondition' X hX
        · exact hTrue' X hX
        · exact hFalse' X hX
  | unconditional hOperand hMark ih => exact ih hs ⟨by decide, hBears⟩ hHeld hRest
  | @binary least s m rest left e hLeft hOperands ihLeft ihOperands =>
      have hm := hLeft.leads.drop hs
      have hBehind : m.Follows unaryPrecedence :=
        hOperands.follows_operands hBears.2 (fun op _ => Nat.lt_succ_of_lt (precedence_lt_unary op))
          hBears.1
      exact ihOperands hm hBears (ihLeft hs hBehind (by simp [Goal.held]) hm) hRest
  | lastOperand | lastSuffix => exact hHeld
  | @operand least start left right e op s m rest hOp hLeast hRight hOperands ihRight ihOperands =>
      obtain ⟨symbol, hSymbol, -⟩ := op?_of_bind hOp
      have hn := (leads_next hSymbol).drop hs
      have hm := hRight.leads.drop hn
      have hBehind : m.Follows op.precedence :=
        hOperands.follows_operands hBears.2 hRight.ends hLeast
      have hRight' := ihRight hn ⟨precedence_lt_unary op, hBehind.mono (Nat.le_succ _)⟩
        (by simp [Goal.held]) hm
      refine ihOperands hm hBears ?_ hRest
      simp only [Goal.held, nodesAll_singleton] at hHeld hRight' ⊢
      refine spared_nodes ?_ fun X hX => ?_
      · have hLevel := precedence_lt_unary op
        exact .of_follows hm rfl
          (hBehind.spares (.inl ⟨Nat.le_refl _, Nat.lt_trans hLevel (by decide)⟩)) id
      · simp only [children, nodesAll_cons, nodesAll_nil, List.append_nil, List.mem_append] at hX
        exact hX.elim (hHeld X) (hRight' X)
  | @simple s m rest base e hPlain hBase hSuffixes ihBase ihSuffixes =>
      have hm := hBase.leads.drop hs
      have hBehind := hSuffixes.follows_suffixes hBears
      exact ihSuffixes hm hBears (ihBase hs ⟨hPlain, hBehind⟩ (by simp [Goal.held]) hm) hRest
  | @suffix start base e s m rest build hSuffix hSuffixes ih =>
      have hm := (isLocal_suffix build hSuffix).leads.drop hs
      refine ih hm hBears ?_ hRest
      simp only [Goal.held, nodesAll_singleton] at hHeld ⊢
      refine spared_nodes ?_ (by rwa [hSuffix.children_eq, nodesAll_singleton])
      have hBehind := hSuffixes.follows_suffixes hBears
      refine .of_follows hm (by rw [hSuffix.range_eq]) (hBehind.spares (.inr ⟨?_, ?_, rfl⟩)) ?_
      · rw [hSuffix.precedence_eq]
        exact unary_le_primary
      · cases hSuffix <;> rfl
      · cases hSuffix <;> exact id
  | @bracket start base e es s m k rest g opener closer build hBracket hOpen hInner hClose hSuffixes
      ihInner ihSuffixes =>
      have hn := (leads_next (op?_of_isAt hOpen)).drop hs
      have hm := hInner.leads.drop hn
      have hk := (leads_expect hClose).1.drop hm
      have hClosing : m.Follows 0 := by
        cases hBracket <;>
          exact .of_isAt (isAt_of_expect hClose (by decide)) (by decide +kernel) (by decide +kernel)
      have hInner' := ihInner hn (by cases hBracket <;> exact hClosing)
        (by cases hBracket <;> simp [Goal.held]) hm
      refine ihSuffixes hk hBears ?_ hRest
      simp only [Goal.held, nodesAll_singleton] at hHeld ⊢
      intro X hX
      have hBehind := hSuffixes.follows_suffixes hBears
      rcases hBracket.mem_nodes hX with rfl | hX | hX
      · refine .of_follows hk (by rw [hBracket.range_eq]) (hBehind.spares (.inr ⟨?_, ?_, rfl⟩)) ?_
        · rw [hBracket.precedence_eq]
          exact unary_le_primary
        · cases hBracket <;> rfl
        · cases hBracket <;> exact id
      · exact hHeld X hX
      · exact hInner' X hX
  | @arguments e es s m rest hNext hFirst hItems ihFirst ihItems =>
      have hm := hFirst.leads.drop hs
      have hFirst' := ihFirst hs (hItems.follows_items hBears) (by simp [Goal.held]) hm
      have hItems' := ihItems hm hBears (by simp [Goal.held]) hRest
      simp only [nodesAll_singleton] at hFirst'
      exact fun X hX => (List.mem_append.mp hX).elim (hFirst' X) (hItems' X)
  | @enclosed s m k rest build e hOpening hInner hClose ih =>
      have hm := (passes_opening hOpening).moves.leads.drop hs
      have hk := hInner.leads.drop hm
      have hClosing : k.Follows 0 :=
        .of_isAt (isAt_of_expect hClose (by decide)) (by decide +kernel) (by decide +kernel)
      have hInner' := ih hm hClosing (by simp [Goal.held]) hk
      have hStop : (build ⟨s.index, rest.index⟩ e).range.stop = rest.index := by
        rw [hOpening.range_eq]
      obtain ⟨⟨t, ht, -, hCast⟩, hBehind⟩ := hBears
      rw [nodesAll_singleton]
      refine spared_nodes ?_ (by rwa [hOpening.children_eq])
      cases hOpening with
      | @paren i _ ts hHead =>
          cases ht
          refine .of_follows hRest hStop (hBehind.spares (.inr ⟨unary_le_primary, rfl, rfl⟩)) ?_
          have hNone := hCast hHead
          rw [show t :: ts = all.drop i from hs] at hNone
          simpa [Absorbs] using hNone
      | cast =>
          exact .of_follows hRest hStop (hBehind.spares (.inr ⟨Nat.le_refl _, rfl, rfl⟩)) id

end Demacro.Expr
