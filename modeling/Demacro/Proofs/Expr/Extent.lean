import Demacro.Proofs.Expr.Locality
import Demacro.Proofs.Expr.Nodes

/-!
Which tokens the nodes of an expression cover. An expression covers the tokens it was read from, and
its nodes lie between the places where the reading started and ended.
-/

namespace Demacro.Expr

variable {g : Goal} {s m rest : Source} {r : TokenRange} {X e base : Expr} {es : List Expr}

theorem Atom.range_eq {build : TokenRange → Expr} (h : Atom g s build rest) :
    (build r).range = r := by
  cases h <;> rfl

theorem Atom.children_eq {build : TokenRange → Expr} (h : Atom g s build rest) :
    (build r).children = [] := by
  cases h <;> rfl

theorem Prefix.range_eq {build : TokenRange → Expr → Expr} (h : Prefix g s build m) :
    (build r e).range = r := by
  cases h <;> rfl

theorem Prefix.children_eq {build : TokenRange → Expr → Expr} (h : Prefix g s build m) :
    (build r e).children = [e] := by
  cases h <;> rfl

theorem Opening.range_eq {build : TokenRange → Expr → Expr} (h : Opening s build m) :
    (build r e).range = r := by
  cases h <;> rfl

theorem Opening.children_eq {build : TokenRange → Expr → Expr} (h : Opening s build m) :
    (build r e).children = [e] := by
  cases h <;> rfl

theorem Suffix.range_eq {build : TokenRange → Expr → Expr} (h : Suffix s build m) :
    (build r e).range = r := by
  cases h <;> rfl

theorem Suffix.children_eq {build : TokenRange → Expr → Expr} (h : Suffix s build m) :
    (build r e).children = [e] := by
  cases h <;> rfl

namespace Bracket

variable {opener closer : String} {build : TokenRange → Expr → List Expr → Expr}

theorem range_eq (h : Bracket opener g closer build) : (build r base es).range = r := by
  cases h <;> rfl

/-- Nothing is in a call or a subscript but what is before the bracket and what is in it. -/
theorem mem_nodes (h : Bracket opener g closer build) (hX : X ∈ (build r base es).nodes) :
    X = build r base es ∨ X ∈ base.nodes ∨ X ∈ nodesAll es := by
  rcases Expr.mem_nodes.mp hX with rfl | hX
  · exact .inl rfl
  · cases h with
    | call => exact .inr (List.mem_append.mp hX)
    | subscript =>
        rcases List.mem_append.mp hX with hX | hX
        · exact .inr (.inl hX)
        · cases es with
          | nil => exact .inr (.inl (by simpa using hX))
          | cons e es =>
              refine .inr (.inr (List.mem_append_left _ ?_))
              simpa using hX

/-- What is in the brackets is in a call or a subscript. -/
theorem mem_nodes_of_inner (h : Bracket opener g closer build)
    (hInner : Parses g s es m) (hX : X ∈ nodesAll es) : X ∈ (build r base es).nodes := by
  cases h with
  | call => exact Expr.mem_nodes.mpr (.inr (List.mem_append_right _ hX))
  | subscript =>
      cases hInner with
      | expression => exact Expr.mem_nodes.mpr (.inr (List.mem_append_right _ hX))
      | atom hAtom => cases hAtom
      | prefixed hPrefix => cases hPrefix

end Bracket

theorem mem_nodes_listed (hX : X ∈ (listed r e es).nodes) :
    X = listed r e es ∨ X ∈ e.nodes ∨ X ∈ nodesAll es := by
  cases es with
  | nil => exact .inr (.inl hX)
  | cons e' es =>
      rcases mem_nodes.mp hX with rfl | hX
      · exact .inl rfl
      · exact .inr (List.mem_append.mp hX)

theorem mem_nodes_listed_of_first (hX : X ∈ e.nodes) : X ∈ (listed r e es).nodes := by
  cases es with
  | nil => exact hX
  | cons => exact mem_nodes.mpr (.inr (List.mem_append_left _ hX))

theorem mem_nodes_listed_of_items (hX : X ∈ nodesAll es) : X ∈ (listed r e es).nodes := by
  cases es with
  | nil => cases hX
  | cons => exact mem_nodes.mpr (.inr (List.mem_append_right _ hX))

theorem range_listed (h : es = [] → e.range = r) :
    (listed r e es).range = r := by
  cases es with
  | nil => exact h rfl
  | cons => rfl

/-- What was read before, for a goal that goes on with it. -/
def Goal.held : Goal → List Expr
  | .operands _ _ left => [left]
  | .suffixes _ base => [base]
  | _ => []

/-- An expression covers the tokens between two places. -/
def Covered (s rest : Source) (es : List Expr) : Prop :=
  s.index < rest.index ∧ ∀ e ∈ es, e.range = ⟨s.index, rest.index⟩

theorem Covered.single (h : s.index < rest.index) (hRange : e.range = ⟨s.index, rest.index⟩) :
    Covered s rest [e] :=
  ⟨h, List.forall_mem_singleton.mpr hRange⟩

theorem Covered.range_eq (h : Covered s rest [e]) : e.range = ⟨s.index, rest.index⟩ :=
  h.2 e (List.mem_singleton_self e)

/-- What is read for a goal covers the tokens between two places. -/
def Goal.Covers (s rest : Source) (es : List Expr) : Goal → Prop
  | .items => s = rest ∨ es ≠ []
  | .arguments => True
  | .operands _ start held | .suffixes start held =>
    held.range = ⟨start, s.index⟩ → ∀ e ∈ es, e.range = ⟨start, rest.index⟩
  | _ => Covered s rest es

/-- A node lies between two places. -/
def Within (s rest : Source) (X : Expr) : Prop :=
  s.index ≤ X.range.start ∧ X.range.stop ≤ rest.index

theorem Within.mono {s' rest' : Source} (h : Within s' rest' X) (hStart : s.index ≤ s'.index)
    (hStop : rest'.index ≤ rest.index) : Within s rest X :=
  ⟨Nat.le_trans hStart h.1, Nat.le_trans h.2 hStop⟩

theorem Covered.within (h : Covered s rest [e]) : Within s rest e := by
  rw [Within, h.range_eq]
  exact ⟨Nat.le_refl _, Nat.le_refl _⟩

/-- A node was there before, or is made of what was there before and of tokens up to a place, or
lies between two places. -/
def Goal.Spans (s rest : Source) (X : Expr) : Goal → Prop
  | .operands _ start held | .suffixes start held =>
    X ∈ held.nodes ∨ X.range.start = start ∧ s.index < X.range.stop ∧ X.range.stop ≤ rest.index
      ∨ s.index < X.range.start ∧ X.range.stop ≤ rest.index
  | .items => s.index < X.range.start ∧ X.range.stop ≤ rest.index
  | _ => Within s rest X

namespace Parses

/-- An expression covers exactly the tokens that it was read from. -/
theorem covers (h : Parses g s es rest) : g.Covers s rest es := by
  induction h with
  | @expression e es s m rest hFirst hItems ihFirst ihItems =>
      refine .single (Nat.lt_of_lt_of_le ihFirst.1 hItems.leads.index_le)
        (range_listed fun hNone => ?_)
      rcases ihItems with rfl | hSome
      · exact ihFirst.range_eq
      · exact absurd hNone hSome
  | noItem => exact .inl rfl
  | item => exact .inr (List.cons_ne_nil _ _)
  | @atom g s rest build hAtom =>
      have hCovers : Covered s rest [build ⟨s.index, rest.index⟩] :=
        .single hAtom.index_lt hAtom.range_eq
      cases hAtom <;> exact hCovers
  | @prefixed g s m rest build e hPrefix hOperand ih =>
      have hCovers : Covered s rest [build ⟨s.index, rest.index⟩ e] :=
        .single (Nat.lt_of_lt_of_le hPrefix.index_lt hOperand.leads.index_le) hPrefix.range_eq
      cases hPrefix <;> exact hCovers
  | assign _ hTarget hOp hValue ihTarget ihValue =>
      obtain ⟨op, hOp, -⟩ := op?_of_bind hOp
      have hLe := (Source.leads_next hOp).index_le
      exact .single (Nat.lt_trans (Nat.lt_of_lt_of_le ihTarget.1 hLe) ihValue.1) rfl
  | unassigned _ _ _ ih | unconditional _ _ ih => exact ih
  | conditional _ hMark hTrue hColon _ ihCondition ihTrue ihFalse =>
      have hNext := (Source.leads_next (Source.op?_of_isAt hMark)).index_le
      have hColonLt := (Source.leads_expect hColon).2
      have hCondition := ihCondition.1
      have hTrue := ihTrue.1
      have hFalse := ihFalse.1
      exact .single (by omega) rfl
  | binary hLeft hOperands ihLeft ihOperands =>
      exact .single (Nat.lt_of_lt_of_le ihLeft.1 hOperands.leads.index_le)
        (ihOperands ihLeft.range_eq _ (List.mem_singleton_self _))
  | lastOperand | lastSuffix => exact fun hHeld => List.forall_mem_singleton.mpr hHeld
  | operand _ _ _ _ _ ih => exact fun _ => ih rfl
  | suffix hSuffix _ ih => exact fun _ => ih hSuffix.range_eq
  | bracket hBracket _ _ _ _ _ ih => exact fun _ => ih hBracket.range_eq
  | simple _ hBase hSuffixes ihBase ihSuffixes =>
      exact .single (Nat.lt_of_lt_of_le ihBase.1 hSuffixes.leads.index_le)
        (ihSuffixes ihBase.range_eq _ (List.mem_singleton_self _))
  | noArguments | arguments => trivial
  | enclosed hOpening hInner hClose ih =>
      have hOpened := hOpening.index_lt
      have hClosed := (Source.leads_expect hClose).2
      have hInnerLt := ih.1
      exact .single (by omega) hOpening.range_eq

/-- The nodes of what is read lie where it is read, but for what was there before. -/
theorem spans (h : Parses g s es rest) (hX : X ∈ nodesAll es) : g.Spans s rest X := by
  have hWhole := h.covers
  have hLe := h.leads.index_le
  induction h with
  | @expression e es s m rest hFirst hItems ihFirst ihItems =>
      have hMiddle := hFirst.leads.index_le
      have hMiddle' := hItems.leads.index_le
      simp only [nodesAll_singleton] at hX ihFirst
      rcases mem_nodes_listed hX with rfl | hX | hX
      · exact hWhole.within
      · exact (ihFirst hX hFirst.covers hMiddle).mono (Nat.le_refl _) hMiddle'
      · have hSpans := ihItems hX hItems.covers hMiddle'
        exact ⟨Nat.le_trans hMiddle (Nat.le_of_lt hSpans.1), hSpans.2⟩
  | noItem | noArguments => cases hX
  | @item e es s m rest hNext hFirst hItems ihFirst ihItems =>
      have hIndex : s.next.index = s.index + 1 := rfl
      have hMiddle := hFirst.leads.index_le
      have hMiddle' := hItems.leads.index_le
      simp only [nodesAll_singleton] at ihFirst
      rcases List.mem_append.mp hX with hX | hX
      · have hSpans := ihFirst hX hFirst.covers hMiddle
        exact ⟨hSpans.1, Nat.le_trans hSpans.2 hMiddle'⟩
      · have hSpans := ihItems hX hItems.covers hMiddle'
        exact ⟨Nat.lt_of_le_of_lt (by omega) hSpans.1, hSpans.2⟩
  | @arguments e es s m rest _ hFirst hItems ihFirst ihItems =>
      have hMiddle := hFirst.leads.index_le
      have hMiddle' := hItems.leads.index_le
      simp only [nodesAll_singleton] at ihFirst
      rcases List.mem_append.mp hX with hX | hX
      · exact (ihFirst hX hFirst.covers hMiddle).mono (Nat.le_refl _) hMiddle'
      · have hSpans := ihItems hX hItems.covers hMiddle'
        exact ⟨Nat.le_trans hMiddle (Nat.le_of_lt hSpans.1), hSpans.2⟩
  | @atom g s rest build hAtom =>
      rw [nodesAll_singleton, mem_nodes_of_children hAtom.children_eq] at hX
      obtain rfl | hX := hX
      · cases hAtom <;> exact hWhole.within
      · cases hX
  | @prefixed g s m rest build e hPrefix hOperand ih =>
      rw [nodesAll_singleton, mem_nodes_of_children hPrefix.children_eq] at hX
      have hMiddle := hOperand.leads.index_le
      have hStep := hPrefix.index_lt
      obtain rfl | hX := hX
      · cases hPrefix <;> exact hWhole.within
      · have hSpans := ih hX hOperand.covers hMiddle
        cases hPrefix <;> exact hSpans.mono (Nat.le_of_lt hStep) (Nat.le_refl _)
  | @assign s m rest op target value _ hTarget hOp hValue ihTarget ihValue =>
      obtain ⟨op, hOp, -⟩ := op?_of_bind hOp
      have hStep := (Source.leads_next hOp).index_le
      have hMiddle := hTarget.leads.index_le
      have hMiddle' := hValue.leads.index_le
      simp only [nodesAll_singleton] at hX ihTarget ihValue
      obtain rfl | hX := mem_nodes.mp hX
      · exact hWhole.within
      simp only [children, nodesAll_cons, nodesAll_nil, List.append_nil, List.mem_append] at hX
      obtain hX | hX := hX
      · exact (ihTarget hX hTarget.covers hMiddle).mono (Nat.le_refl _) (by omega)
      · exact (ihValue hX hValue.covers hMiddle').mono (by omega) (Nat.le_refl _)
  | unassigned _ hOperand _ ih | unconditional hOperand _ ih => exact ih hX hOperand.covers hLe
  | @conditional s m k l rest condition whenTrue whenFalse hCondition hMark hTrue hColon hFalse
      ihCondition ihTrue ihFalse =>
      have hNext := (Source.leads_next (Source.op?_of_isAt hMark)).index_le
      have hColonLt := (Source.leads_expect hColon).2
      have hFirst := hCondition.leads.index_le
      have hSecond := hTrue.leads.index_le
      have hThird := hFalse.leads.index_le
      simp only [nodesAll_singleton] at hX ihCondition ihTrue ihFalse
      obtain rfl | hX := mem_nodes.mp hX
      · exact hWhole.within
      simp only [children, nodesAll_cons, nodesAll_nil, List.append_nil, List.mem_append] at hX
      obtain hX | hX | hX := hX
      · exact (ihCondition hX hCondition.covers hFirst).mono (Nat.le_refl _) (by omega)
      · exact (ihTrue hX hTrue.covers hSecond).mono (by omega) (by omega)
      · exact (ihFalse hX hFalse.covers hThird).mono (by omega) (Nat.le_refl _)
  | @binary least s m rest left e hLeft hOperands ihLeft ihOperands =>
      have hMiddle := hLeft.leads.index_le
      have hMiddle' := hOperands.leads.index_le
      simp only [nodesAll_singleton] at ihLeft
      obtain hX | ⟨hStart, -, hStop⟩ | ⟨hStart, hStop⟩ := ihOperands hX hOperands.covers hMiddle'
      · exact (ihLeft hX hLeft.covers hMiddle).mono (Nat.le_refl _) hMiddle'
      · exact ⟨Nat.le_of_eq hStart.symm, hStop⟩
      · exact ⟨by omega, hStop⟩
  | lastOperand | lastSuffix => exact .inl (by simpa using hX)
  | @operand least start left right e op s m rest hOp hLeast hRight hOperands ihRight ihOperands =>
      obtain ⟨op, hOp, -⟩ := op?_of_bind hOp
      have hIndex : s.next.index = s.index + 1 := rfl
      have hMiddle := hRight.leads.index_le
      have hMiddle' := hOperands.leads.index_le
      simp only [nodesAll_singleton] at ihRight
      obtain hX | ⟨hStart, hStop⟩ | ⟨hStart, hStop⟩ := ihOperands hX hOperands.covers hMiddle'
      · obtain rfl | hX := mem_nodes.mp hX
        · exact .inr (.inl ⟨rfl, by dsimp only [range]; omega, hMiddle'⟩)
        simp only [children, nodesAll_cons, nodesAll_nil, List.append_nil, List.mem_append] at hX
        obtain hX | hX := hX
        · exact .inl hX
        · have hSpans := ihRight hX hRight.covers hMiddle
          exact .inr (.inr ⟨hSpans.1, Nat.le_trans hSpans.2 hMiddle'⟩)
      · exact .inr (.inl ⟨hStart, by omega, hStop.2⟩)
      · exact .inr (.inr ⟨by omega, hStop⟩)
  | @simple s m rest base e _ hBase hSuffixes ihBase ihSuffixes =>
      have hMiddle := hBase.leads.index_le
      have hMiddle' := hSuffixes.leads.index_le
      simp only [nodesAll_singleton] at ihBase
      obtain hX | ⟨hStart, -, hStop⟩ | ⟨hStart, hStop⟩ := ihSuffixes hX hSuffixes.covers hMiddle'
      · exact (ihBase hX hBase.covers hMiddle).mono (Nat.le_refl _) hMiddle'
      · exact ⟨Nat.le_of_eq hStart.symm, hStop⟩
      · exact ⟨by omega, hStop⟩
  | @suffix start base e s m rest build hSuffix hSuffixes ih =>
      have hStep := hSuffix.index_lt
      have hMiddle := hSuffixes.leads.index_le
      obtain hX | ⟨hStart, hStop⟩ | ⟨hStart, hStop⟩ := ih hX hSuffixes.covers hMiddle
      · rw [mem_nodes_of_children hSuffix.children_eq, nodesAll_singleton] at hX
        obtain rfl | hX := hX
        · refine .inr (.inl ?_)
          rw [hSuffix.range_eq]
          exact ⟨rfl, hStep, hMiddle⟩
        · exact .inl hX
      · exact .inr (.inl ⟨hStart, by omega, hStop.2⟩)
      · exact .inr (.inr ⟨by omega, hStop⟩)
  | @bracket start base e es s m k rest g opener closer build hBracket hOpen hInner hClose hSuffixes
      ihInner ihSuffixes =>
      have hIndex : s.next.index = s.index + 1 := rfl
      have hMiddle := hInner.leads.index_le
      have hCloseLt := (Source.leads_expect hClose).2
      have hMiddle' := hSuffixes.leads.index_le
      obtain hX | ⟨hStart, hStop⟩ | ⟨hStart, hStop⟩ := ihSuffixes hX hSuffixes.covers hMiddle'
      · obtain rfl | hX | hX := hBracket.mem_nodes hX
        · refine .inr (.inl ?_)
          rw [hBracket.range_eq]
          exact ⟨rfl, by dsimp only; omega, hMiddle'⟩
        · exact .inl hX
        · have hSpans : Within s.next m X := by
            have hSpans := ihInner hX hInner.covers hMiddle
            cases hBracket <;> exact hSpans
          exact .inr (.inr ⟨hSpans.1, Nat.le_trans hSpans.2 (by omega)⟩)
      · exact .inr (.inl ⟨hStart, by omega, hStop.2⟩)
      · exact .inr (.inr ⟨by omega, hStop⟩)
  | @enclosed s m k rest build e hOpening hInner hClose ih =>
      rw [nodesAll_singleton, mem_nodes_of_children hOpening.children_eq] at hX
      have hOpened := hOpening.index_lt
      have hMiddle := hInner.leads.index_le
      have hClosed := (Source.leads_expect hClose).2
      obtain rfl | hX := hX
      · exact hWhole.within
      · exact (ih hX hInner.covers hMiddle).mono (by omega) (by omega)

/-- What was read before is part of what is read. -/
theorem mem_of_held (h : Parses g s es rest) (hX : X ∈ nodesAll g.held) : X ∈ nodesAll es := by
  induction h with
  | lastOperand | lastSuffix => exact hX
  | operand _ _ _ _ _ ih =>
      refine ih ?_
      simp only [Goal.held, nodesAll_singleton] at hX ⊢
      exact mem_nodes_of_child List.mem_cons_self hX
  | suffix hSuffix _ ih =>
      refine ih ?_
      simp only [Goal.held, nodesAll_singleton] at hX ⊢
      exact mem_nodes_of_child (by rw [hSuffix.children_eq]; exact List.mem_singleton_self _) hX
  | bracket hBracket _ _ _ _ _ ih =>
      refine ih ?_
      simp only [Goal.held, nodesAll_singleton] at hX ⊢
      exact mem_nodes_of_child (by cases hBracket <;> exact List.mem_cons_self) hX
  | atom hAtom => cases hAtom <;> cases hX
  | prefixed hPrefix => cases hPrefix <;> cases hX
  | _ => cases hX

end Parses

end Demacro.Expr
