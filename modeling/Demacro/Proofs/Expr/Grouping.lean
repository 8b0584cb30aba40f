import Demacro.Proofs.Expr.Locality
import Demacro.Proofs.Expr.Extent

/-!
How the parser groups tokens. The operands of a node cover stretches of its tokens that follow each
other, and those of a binary operator hold together as tightly as it asks for.
-/

namespace Demacro.Expr

variable {g : Goal} {s m rest : Source} {r : TokenRange} {X e base : Expr} {es : List Expr}
  {i j k : Nat}

/-- The operands of a binary operator hold together at least as tightly as the operator, and on the
right more tightly. -/
def KeepsLevels : Expr → Prop
  | binary _ op a b => op.precedence ≤ a.precedence ∧ op.precedence < b.precedence
  | _ => True

/-- Expressions that cover stretches of the tokens between two places, one behind the other. -/
structure Row (i j : Nat) (es : List Expr) : Prop where
  apart : es.Pairwise fun a b => a.range.stop ≤ b.range.start
  inside : ∀ e ∈ es, i ≤ e.range.start ∧ e.range.start < e.range.stop ∧ e.range.stop ≤ j

namespace Row

theorem nil (i j : Nat) : Row i j [] :=
  ⟨.nil, by simp⟩

theorem cons (hFirst : Covered s m [e]) (hFrom : i ≤ s.index) (hTo : m.index ≤ j)
    (hRest : Row m.index j es) : Row i j (e :: es) := by
  have hRange := hFirst.range_eq
  have hLt := hFirst.1
  constructor
  · refine .cons (fun e' he' => ?_) hRest.apart
    rw [hRange]
    exact (hRest.inside e' he').1
  · intro e' he'
    rcases List.mem_cons.mp he' with rfl | he'
    · rw [hRange]
      exact ⟨hFrom, hLt, hTo⟩
    · obtain ⟨hStart, hSome, hStop⟩ := hRest.inside e' he'
      exact ⟨by omega, hSome, hStop⟩

theorem single (h : Covered s m [e]) (hFrom : i ≤ s.index) (hTo : m.index ≤ j) : Row i j [e] :=
  .cons h hFrom hTo (.nil _ _)

theorem mono (h : Row i j es) (hFrom : k ≤ i) : Row k j es :=
  ⟨h.apart, fun e he => ⟨Nat.le_trans hFrom (h.inside e he).1, (h.inside e he).2⟩⟩

end Row

/-- The operands of a node lie in it one behind the other, and keep to the levels of the grammar. -/
structure WellGrouped (X : Expr) : Prop where
  row : Row X.range.start X.range.stop X.children
  levels : X.KeepsLevels

namespace Parses

theorem row_items (h : Parses .items s es rest) : Row s.index rest.index es := by
  induction es generalizing s with
  | nil => exact .nil _ _
  | cons e es ih =>
      cases h with
      | item hNext hFirst hItems =>
          exact .cons hFirst.covers (Nat.le_succ _) hItems.leads.index_le (ih hItems)
      | atom hAtom => cases hAtom
      | prefixed hPrefix => cases hPrefix

theorem row_arguments (h : Parses .arguments s es rest) : Row s.index rest.index es := by
  cases h with
  | noArguments => exact .nil _ _
  | arguments _ hFirst hItems =>
      exact .cons hFirst.covers (Nat.le_refl _) hItems.leads.index_le hItems.row_items
  | atom hAtom => cases hAtom
  | prefixed hPrefix => cases hPrefix

end Parses

/-- How tightly what is read for a goal holds together. -/
def Goal.Tight (es : List Expr) : Goal → Prop
  | .binary least => least ≤ unaryPrecedence → ∀ e ∈ es, least ≤ e.precedence
  | .operands least _ held => least ≤ held.precedence → ∀ e ∈ es, least ≤ e.precedence
  | .unary => ∀ e ∈ es, unaryPrecedence ≤ e.precedence
  | .suffixes _ held => unaryPrecedence ≤ held.precedence → ∀ e ∈ es, unaryPrecedence ≤ e.precedence
  | .primary => ∀ e ∈ es, unaryPrecedence ≤ e.precedence
  | _ => True

theorem Suffix.precedence_eq {build : TokenRange → Expr → Expr} (h : Suffix s build m) :
    (build r e).precedence = primaryPrecedence := by
  cases h <;> rfl

theorem Bracket.precedence_eq {opener closer : String}
    {build : TokenRange → Expr → List Expr → Expr} (h : Bracket opener g closer build) :
    (build r base es).precedence = primaryPrecedence := by
  cases h <;> rfl

theorem Parses.tight (h : Parses g s es rest) : g.Tight es := by
  induction h with
  | atom hAtom => cases hAtom <;> simp [Goal.Tight, precedence, unaryPrecedence, primaryPrecedence]
  | prefixed hPrefix =>
      cases hPrefix <;> simp [Goal.Tight, precedence, unaryPrecedence, primaryPrecedence]
  | binary _ _ ihLeft ihOperands =>
      exact fun hLeast => ihOperands (Nat.le_trans hLeast (ihLeft _ (List.mem_singleton_self _)))
  | lastOperand => exact fun hHeld => List.forall_mem_singleton.mpr hHeld
  | operand _ hLeast _ _ _ ih => exact fun _ => ih hLeast
  | simple _ _ _ ihBase ihSuffixes => exact ihSuffixes (ihBase _ (List.mem_singleton_self _))
  | lastSuffix => exact fun hHeld => List.forall_mem_singleton.mpr hHeld
  | suffix hSuffix _ ih => exact fun _ => ih (by rw [hSuffix.precedence_eq]; decide)
  | bracket hBracket _ _ _ _ _ ih => exact fun _ => ih (by rw [hBracket.precedence_eq]; decide)
  | enclosed hOpening =>
      cases hOpening <;> simp [Goal.Tight, precedence, unaryPrecedence, primaryPrecedence]
  | expression | noItem | item | assign | unassigned | conditional | unconditional | noArguments
      | arguments => trivial

/-- What was read before for a goal is well grouped, ends where the reading goes on, and holds
together as tightly as the next operator asks for. -/
def Goal.Holds (s : Source) : Goal → Prop
  | .operands _ start held =>
    Covered ⟨start, []⟩ s [held] ∧ (∀ X ∈ held.nodes, X.WellGrouped)
      ∧ s.BinaryEnds (held.precedence + 1)
  | .suffixes start held => Covered ⟨start, []⟩ s [held] ∧ ∀ X ∈ held.nodes, X.WellGrouped
  | _ => True

/-- A node is well grouped with all nodes below it if it is so with its operands. -/
theorem wellGrouped_nodes (hRow : Row e.range.start e.range.stop e.children)
    (hLevels : e.KeepsLevels) (hChildren : ∀ X ∈ nodesAll e.children, X.WellGrouped) :
    ∀ X ∈ e.nodes, X.WellGrouped := by
  intro X hX
  rcases mem_nodes.mp hX with rfl | hX
  · exact ⟨hRow, hLevels⟩
  · exact hChildren X hX

theorem Atom.levels {build : TokenRange → Expr} (h : Atom g s build m) : (build r).KeepsLevels := by
  cases h <;> trivial

theorem Prefix.levels {build : TokenRange → Expr → Expr} (h : Prefix g s build m) :
    (build r e).KeepsLevels := by
  cases h <;> trivial

theorem Opening.levels {build : TokenRange → Expr → Expr} (h : Opening s build m) :
    (build r e).KeepsLevels := by
  cases h <;> trivial

theorem Suffix.levels {build : TokenRange → Expr → Expr} (h : Suffix s build m) :
    (build r e).KeepsLevels := by
  cases h <;> trivial

theorem Bracket.levels {opener closer : String} {build : TokenRange → Expr → List Expr → Expr}
    (h : Bracket opener g closer build) : (build r base es).KeepsLevels := by
  cases h <;> trivial

theorem Goal.holds_of_prefix {build : TokenRange → Expr → Expr} {s' : Source}
    (h : Prefix g s build m) : g.Holds s' := by
  cases h <;> trivial

/-- What is read in brackets makes a row with what is in front of them. -/
theorem Bracket.row {opener closer : String} {build : TokenRange → Expr → List Expr → Expr}
    {start : Nat} (h : Bracket opener g closer build) (hBase : Covered ⟨start, []⟩ s [base])
    (hInner : Parses g s.next es m) (hClose : m.index < k) : Row start k (build r base es).children
      ∧ ∀ X ∈ nodesAll (build r base es).children, X ∈ base.nodes ∨ X ∈ nodesAll es := by
  have hNext : s.next.index = s.index + 1 := rfl
  have hLe := hInner.leads.index_le
  cases h with
  | call =>
      refine ⟨.cons hBase (Nat.le_refl _) (by omega) ?_, fun X hX => List.mem_append.mp hX⟩
      have hRow := hInner.row_arguments
      exact ⟨hRow.apart, fun e he => by have := hRow.inside e he; omega⟩
  | subscript =>
      have hSingle : ∃ e, es = [e] := by
        cases hInner with
        | expression => exact ⟨_, rfl⟩
        | atom hAtom => cases hAtom
        | prefixed hPrefix => cases hPrefix
      obtain ⟨e, rfl⟩ := hSingle
      refine ⟨.cons hBase (Nat.le_refl _) (by omega) (.single hInner.covers (by omega) (by omega)),
        fun X hX => ?_⟩
      simpa [children] using hX

theorem Goal.holds_of_bracket {opener closer : String}
    {build : TokenRange → Expr → List Expr → Expr} {s' : Source}
    (h : Bracket opener g closer build) : g.Holds s' := by
  cases h <;> trivial

/-- All nodes of what is read are well grouped, if what was read before is. -/
theorem Parses.wellGrouped (h : Parses g s es rest) (hHolds : g.Holds s) :
    ∀ X ∈ nodesAll es, X.WellGrouped := by
  induction h with
  | @expression e es s m rest hFirst hItems ihFirst ihItems =>
      simp only [nodesAll_singleton] at ihFirst ⊢
      have hRange := (Parses.expression hFirst hItems).covers.range_eq
      cases es with
      | nil => exact ihFirst trivial
      | cons e' es =>
          refine wellGrouped_nodes ?_ trivial fun X hX => ?_
          · rw [hRange]
            exact .cons hFirst.covers (Nat.le_refl _) hItems.leads.index_le hItems.row_items
          · rcases List.mem_append.mp hX with hX | hX
            · exact ihFirst trivial X hX
            · exact ihItems trivial X hX
  | noItem | noArguments => simp
  | item _ _ _ ihFirst ihItems | arguments _ _ _ ihFirst ihItems =>
      intro X hX
      simp only [nodesAll_singleton] at ihFirst
      rcases List.mem_append.mp hX with hX | hX
      · exact ihFirst trivial X hX
      · exact ihItems trivial X hX
  | atom hAtom =>
      rw [nodesAll_singleton]
      refine wellGrouped_nodes ?_ hAtom.levels ?_ <;> rw [hAtom.children_eq]
      · exact .nil _ _
      · simp
  | @prefixed g s m rest build e hPrefix hOperand ih =>
      rw [nodesAll_singleton]
      refine wellGrouped_nodes ?_ hPrefix.levels ?_ <;> rw [hPrefix.children_eq]
      · have hCovered : Covered m rest [e] := by
          have hCovers := hOperand.covers
          cases hPrefix <;> exact hCovers
        rw [hPrefix.range_eq]
        exact .single hCovered (Nat.le_of_lt hPrefix.index_lt) (Nat.le_refl _)
      · exact ih (Goal.holds_of_prefix hPrefix)
  | @assign s m rest op target value _ hTarget hOp hValue ihTarget ihValue =>
      have hNext : m.next.index = m.index + 1 := rfl
      have hLe := hValue.leads.index_le
      rw [nodesAll_singleton]
      refine wellGrouped_nodes ?_ trivial fun X hX => ?_
      · exact .cons hTarget.covers (Nat.le_refl _) (by dsimp only [range]; omega)
          (.single hValue.covers (by omega) (Nat.le_refl _))
      · rcases List.mem_append.mp hX with hX | hX
        · exact ihTarget trivial X (by simpa using hX)
        · exact ihValue trivial X hX
  | unassigned _ _ _ ih | unconditional _ _ ih => exact ih trivial
  | @conditional s m k l rest a b c hCondition hMark hTrue hColon hFalse ihCondition ihTrue
      ihFalse =>
      have hNext : m.next.index = m.index + 1 := rfl
      have hColonLt := (Source.leads_expect hColon).2
      have hSecond := hTrue.leads.index_le
      have hThird := hFalse.leads.index_le
      rw [nodesAll_singleton]
      refine wellGrouped_nodes ?_ trivial fun X hX => ?_
      · refine .cons hCondition.covers (Nat.le_refl _) ?_ (.cons hTrue.covers (by omega) ?_
          (.single hFalse.covers (by omega) (Nat.le_refl _))) <;>
        · dsimp only [range]
          omega
      · simp only [children, nodesAll_cons, nodesAll_nil, List.append_nil, List.mem_append] at hX
        rcases hX with hX | hX | hX
        · exact ihCondition trivial X (by simpa using hX)
        · exact ihTrue trivial X (by simpa using hX)
        · exact ihFalse trivial X (by simpa using hX)
  | @binary least s m rest left e hLeft hOperands ihLeft ihOperands =>
      refine ihOperands ⟨hLeft.covers, by simpa using ihLeft trivial, fun op _ => ?_⟩
      have hTight := hLeft.tight left (List.mem_singleton_self _)
      have hOp := precedence_lt_unary op
      omega
  | lastOperand => simpa using hHolds.2.1
  | @operand least start left right e op s m rest hOp hLeast hRight hOperands ihRight ihOperands =>
      obtain ⟨hHeld, hNodes, hEnds⟩ := hHolds
      have hNext : s.next.index = s.index + 1 := rfl
      have hLe := hRight.leads.index_le
      have hLevel := precedence_lt_unary op
      have hFrom := hHeld.1
      dsimp only at hFrom
      have hNode := wellGrouped_nodes (e := .binary ⟨start, m.index⟩ op left right)
        (.cons hHeld (Nat.le_refl _) (by dsimp only [range]; omega)
          (.single hRight.covers (by omega) (Nat.le_refl _)))
        ⟨Nat.lt_succ_iff.mp (hEnds op hOp), hRight.tight hLevel right (List.mem_singleton_self _)⟩
        fun X hX => by
          rcases List.mem_append.mp hX with hX | hX
          · exact hNodes X hX
          · exact ihRight trivial X hX
      exact ihOperands ⟨.single (by dsimp only; omega) rfl, hNode, hRight.ends⟩
  | @simple s m rest base e _ hBase hSuffixes ihBase ihSuffixes =>
      exact ihSuffixes ⟨hBase.covers, by simpa using ihBase trivial⟩
  | lastSuffix => simpa using hHolds.2
  | @suffix start base e s m rest build hSuffix hSuffixes ih =>
      obtain ⟨hHeld, hNodes⟩ := hHolds
      have hLt := hSuffix.index_lt
      have hFrom := hHeld.1
      dsimp only at hFrom
      refine ih ⟨.single (by dsimp only; omega) hSuffix.range_eq,
        wellGrouped_nodes ?_ hSuffix.levels ?_⟩
      · rw [hSuffix.children_eq, hSuffix.range_eq]
        exact .single hHeld (Nat.le_refl _) (Nat.le_of_lt hLt)
      · rw [hSuffix.children_eq]
        simpa using hNodes
  | @bracket start base e es s m k rest g opener closer build hBracket hOpen hInner hClose hSuffixes
      ihInner ihSuffixes =>
      obtain ⟨hHeld, hNodes⟩ := hHolds
      have hNext : s.next.index = s.index + 1 := rfl
      have hLe := hInner.leads.index_le
      have hLt := (Source.leads_expect hClose).2
      have hFrom := hHeld.1
      dsimp only at hFrom
      obtain ⟨hRow, hMem⟩ := hBracket.row (r := ⟨start, k.index⟩) hHeld hInner hLt
      refine ihSuffixes ⟨.single (by dsimp only; omega) hBracket.range_eq,
        wellGrouped_nodes ?_ hBracket.levels fun X hX => ?_⟩
      · rwa [hBracket.range_eq]
      · exact (hMem X hX).elim (hNodes X) (ihInner (Goal.holds_of_bracket hBracket) X)
  | @enclosed s m k rest build e hOpening hInner hClose ih =>
      have hLt := (Source.leads_expect hClose).2
      rw [nodesAll_singleton]
      refine wellGrouped_nodes ?_ hOpening.levels ?_ <;> rw [hOpening.children_eq]
      · rw [hOpening.range_eq]
        exact .single hInner.covers (Nat.le_of_lt hOpening.index_lt) (Nat.le_of_lt hLt)
      · exact ih trivial

end Demacro.Expr
