import Demacro.Proofs.Expr.Grouping
import Demacro.Proofs.Expr.Names
import Mathlib.Data.List.Pairwise

/-!
What operators ask for. One in front of an operand, and one between two, asks what stands behind it
to hold together as tightly as itself; everything that starts there does. Conversely, an expression
that starts at a place is part of what is read from there, for something that the operator in front
asks for.
-/

namespace Demacro.Expr

open Source

variable {g : Goal} {s m k rest : Source} {i j q start : Nat} {X Y c e : Expr} {es : List Expr}
  {all : List Token}

/-- What stands behind an operator in front of it. A cast that is one ends where its operand
does. -/
def operandBehind? : Expr → Option Expr
  | unary _ _ e | free _ e | measure _ _ (some e) => some e
  | cast r _ e => if e.range.stop = r.stop then some e else none
  | _ => none

/-- A node asks what starts at a place to hold together at least as tightly as a number says. -/
inductive Asks : Expr → Nat → Nat → Prop where
  | inFront {X c : Expr} (hOperand : X.operandBehind? = some c) :
      Asks X c.range.start unaryPrecedence
  | between {r : TokenRange} {op : BinaryOp} {a b : Expr} :
      Asks (.binary r op a b) b.range.start (op.precedence + 1)

/-- The nodes of an expression lie in it. -/
theorem inside_of_mem_nodes (h : ∀ Y ∈ e.nodes, Y.WellGrouped) (hX : X ∈ e.nodes) :
    e.range.start ≤ X.range.start ∧ X.range.stop ≤ e.range.stop := by
  induction e using induct_children with
  | h e ih =>
      rcases mem_nodes.mp hX with rfl | hX
      · exact ⟨Nat.le_refl _, Nat.le_refl _⟩
      obtain ⟨c, hc, hX⟩ := List.mem_flatMap.mp hX
      obtain ⟨hStart, -, hStop⟩ := (h e (mem_nodes_self e)).row.inside c hc
      obtain ⟨hStart', hStop'⟩ := ih c hc (fun Y hY => h Y (mem_nodes_of_child hc hY)) hX
      exact ⟨Nat.le_trans hStart hStart', Nat.le_trans hStop' hStop⟩

/-- One of two expressions ends before the other starts. -/
def Apart (X Y : Expr) : Prop :=
  X.range.stop ≤ Y.range.start ∨ Y.range.stop ≤ X.range.start

instance : Std.Symm Apart :=
  ⟨fun _ _ => Or.symm⟩

/-- Of two nodes one lies in the other, or they lie apart. -/
theorem nested_or_apart (h : ∀ Y ∈ e.nodes, Y.WellGrouped) (hX : X ∈ e.nodes) (hY : Y ∈ e.nodes) :
    X ∈ Y.nodes ∨ Y ∈ X.nodes ∨ X.Apart Y := by
  induction e using induct_children with
  | h e ih =>
      rcases mem_nodes.mp hX with rfl | hXc
      · exact .inr (.inl hY)
      rcases mem_nodes.mp hY with rfl | hYd
      · exact .inl hX
      obtain ⟨c, hc, hXc⟩ := List.mem_flatMap.mp hXc
      obtain ⟨d, hd, hYd⟩ := List.mem_flatMap.mp hYd
      have hGrouped : ∀ {c}, c ∈ e.children → ∀ Y ∈ c.nodes, Y.WellGrouped :=
        fun hc Y hY => h Y (mem_nodes_of_child hc hY)
      by_cases hSame : c = d
      · subst hSame
        exact ih c hc (hGrouped hc) hXc hYd
      obtain ⟨hStart, hStop⟩ := inside_of_mem_nodes (hGrouped hc) hXc
      obtain ⟨hStart', hStop'⟩ := inside_of_mem_nodes (hGrouped hd) hYd
      have hApart : e.children.Pairwise Apart := (h e (mem_nodes_self e)).row.apart.imp .inl
      rcases hApart.forall hc hd hSame with hLe | hLe
      · exact .inr (.inr (.inl (by omega)))
      · exact .inr (.inr (.inr (by omega)))

/-- The operands of a node hold together as tightly as it asks for, and as it does where they start
with it. -/
structure Levelled (X : Expr) : Prop where
  leading : ∀ c ∈ X.children, c.range.start = X.range.start →
    min X.precedence unaryPrecedence ≤ c.precedence
  operand : ∀ c, X.operandBehind? = some c →
    X.range.start < c.range.start ∧ unaryPrecedence ≤ c.precedence

/-- What starts with an expression holds together as tightly as it, or as an operand. -/
theorem le_precedence_of_start (hGrouped : ∀ Y ∈ e.nodes, Y.WellGrouped)
    (hLevelled : ∀ Y ∈ e.nodes, Y.Levelled) (hX : X ∈ e.nodes)
    (hStart : X.range.start = e.range.start) (hLe : q ≤ e.precedence)
    (hOperand : q ≤ unaryPrecedence) : q ≤ X.precedence := by
  induction e using induct_children with
  | h e ih =>
      rcases mem_nodes.mp hX with rfl | hX
      · exact hLe
      obtain ⟨c, hc, hX⟩ := List.mem_flatMap.mp hX
      have hGrouped' : ∀ Y ∈ c.nodes, Y.WellGrouped :=
        fun Y hY => hGrouped Y (mem_nodes_of_child hc hY)
      have hFrom := ((hGrouped e (mem_nodes_self e)).row.inside c hc).1
      have hFrom' := (inside_of_mem_nodes hGrouped' hX).1
      have hLevel := (hLevelled e (mem_nodes_self e)).leading c hc (by omega)
      exact ih c hc hGrouped' (fun Y hY => hLevelled Y (mem_nodes_of_child hc hY)) hX (by omega)
        (Nat.le_trans (Nat.le_min.mpr ⟨hLe, hOperand⟩) hLevel)

theorem start_lt_stop (hGrouped : ∀ Y ∈ e.nodes, Y.WellGrouped)
    (hSome : e.range.start < e.range.stop) (hX : X ∈ e.nodes) : X.range.start < X.range.stop := by
  induction e using induct_children with
  | h e ih =>
      rcases mem_nodes.mp hX with rfl | hX
      · exact hSome
      obtain ⟨c, hc, hX⟩ := List.mem_flatMap.mp hX
      have hInside := (hGrouped e (mem_nodes_self e)).row.inside c hc
      exact ih c hc (fun Y hY => hGrouped Y (mem_nodes_of_child hc hY)) hInside.2.1 hX

/-- The operand that a node asks for. It starts behind the node, and behind the other operands. -/
theorem Asks.exists_operand (h : X.Asks j q) (hGrouped : X.WellGrouped) (hLevelled : X.Levelled) :
    ∃ c ∈ X.children, X.range.start < c.range.start ∧ c.range.start = j ∧ q ≤ c.precedence
      ∧ q ≤ unaryPrecedence ∧ ∀ d ∈ X.children, d ≠ c → d.range.stop ≤ j := by
  cases h with
  | @inFront X c hOperand =>
      have hChildren : X.children = [c] := by
        cases X with
        | unary | free => simpa [operandBehind?, children] using hOperand
        | measure r keyword operand =>
            cases operand <;> simp_all [operandBehind?, children]
        | cast r type e =>
            simp only [operandBehind?, Option.ite_none_right_eq_some, Option.some.injEq] at hOperand
            rw [children, hOperand.2]
        | _ => cases hOperand
      obtain ⟨hStart, hLevel⟩ := hLevelled.operand c hOperand
      refine ⟨c, by simp [hChildren], hStart, rfl, hLevel, Nat.le_refl _, fun d hd hOther => ?_⟩
      rw [hChildren, List.mem_singleton] at hd
      exact absurd hd hOther
  | @between r op a b =>
      have hFirst := hGrouped.row.inside a (by simp [children])
      have hApart : a.range.stop ≤ b.range.start :=
        (List.pairwise_cons.mp hGrouped.row.apart).1 b (by simp)
      refine ⟨b, by simp [children], by omega, rfl, hGrouped.levels.2, precedence_lt_unary op,
        fun d hd hOther => ?_⟩
      simp only [children, List.mem_cons, List.not_mem_nil, or_false] at hd
      rw [hd.resolve_right hOther]
      exact hApart

/-- What starts where a node asks for something holds together as tightly as it asks for. -/
theorem Asks.le_precedence (hGrouped : ∀ Y ∈ e.nodes, Y.WellGrouped)
    (hLevelled : ∀ Y ∈ e.nodes, Y.Levelled) (hSome : e.range.start < e.range.stop)
    (hX : X ∈ e.nodes) (hY : Y ∈ e.nodes) (hAsks : Y.Asks X.range.start q) : q ≤ X.precedence := by
  have hRow := (hGrouped Y hY).row
  obtain ⟨c, hc, hBehind, hStart, hLevel, hLe, hOther⟩ :=
    hAsks.exists_operand (hGrouped Y hY) (hLevelled Y hY)
  have hInside := hRow.inside c hc
  have hLong := start_lt_stop hGrouped hSome hX
  rcases nested_or_apart hGrouped hX hY with hIn | hIn | hApart
  · -- The node lies in the operand, since it starts where that does.
    rcases mem_nodes.mp hIn with rfl | hIn
    · omega
    obtain ⟨d, hd, hIn⟩ := List.mem_flatMap.mp hIn
    have hMem : ∀ Z ∈ d.nodes, Z ∈ e.nodes :=
      fun Z hZ => mem_nodes_trans (mem_nodes_of_child hd hZ) hY
    by_cases hSame : d = c
    · subst hSame
      exact le_precedence_of_start (fun Z hZ => hGrouped Z (hMem Z hZ))
        (fun Z hZ => hLevelled Z (hMem Z hZ)) hIn hStart.symm hLevel hLe
    · have hStop := hOther d hd hSame
      have hIn' := inside_of_mem_nodes (fun Z hZ => hGrouped Z (hMem Z hZ)) hIn
      omega
  · have hIn' := inside_of_mem_nodes (fun Z hZ => hGrouped Z (mem_nodes_trans hZ hX)) hIn
    omega
  · rcases hApart with hLe | hLe <;> omega

/-- What loops go on with starts in front of what they read, and holds together as they need it. -/
def Goal.Firm (s : Source) : Goal → Prop
  | .operands _ start left => start < s.index ∧ s.BinaryEnds (left.precedence + 1)
  | .suffixes start base => start < s.index ∧ unaryPrecedence ≤ base.precedence
  | _ => True

theorem one_le_precedence (e : Expr) : 1 ≤ e.precedence := by
  cases e with
  | binary r op => cases op <;> simp [precedence, BinaryOp.precedence]
  | _ => simp [precedence, unaryPrecedence, primaryPrecedence]

theorem levelled_nodes (hNode : e.Levelled) (hChildren : ∀ X ∈ nodesAll e.children, X.Levelled) :
    ∀ X ∈ e.nodes, X.Levelled := by
  intro X hX
  rcases mem_nodes.mp hX with rfl | hX
  · exact hNode
  · exact hChildren X hX

/-- A node without an operator in front, of which only the first operand starts where it does. -/
theorem Levelled.of_cons (hNone : e.operandBehind? = none) (hChildren : e.children = c :: es)
    (hFirst : min e.precedence unaryPrecedence ≤ c.precedence)
    (hRest : ∀ d ∈ es, e.range.start < d.range.start) : e.Levelled where
  leading d hd hStart := by
    rw [hChildren] at hd
    rcases List.mem_cons.mp hd with rfl | hd
    · exact hFirst
    · exact absurd hStart (Nat.ne_of_gt (hRest d hd))
  operand d hd := by
    rw [hNone] at hd
    cases hd

theorem Parses.two_le_precedence (h : Parses .conditional s [e] rest) : 2 ≤ e.precedence := by
  cases h with
  | conditional => exact Nat.le_refl _
  | unconditional hOperand =>
      exact Nat.le_trans (by decide) (hOperand.tight (by decide) e (List.mem_singleton_self e))
  | atom hAtom => cases hAtom
  | prefixed hPrefix => cases hPrefix

theorem Parses.levelled (h : Parses g s es rest) (hFirm : g.Firm s)
    (hHeld : ∀ X ∈ nodesAll g.held, X.Levelled) : ∀ X ∈ nodesAll es, X.Levelled := by
  induction h with
  | @expression e es s m rest hFirst hItems ihFirst ihItems =>
      have hFirst' := ihFirst trivial (by simp [Goal.held])
      have hItems' := ihItems trivial (by simp [Goal.held])
      simp only [nodesAll_singleton] at hFirst' ⊢
      cases es with
      | nil => exact hFirst'
      | cons e' es =>
          refine levelled_nodes (.of_cons rfl rfl ?_ fun d hd => ?_) fun X hX => ?_
          · exact Nat.le_trans (Nat.min_le_left _ _) (one_le_precedence e)
          · have hRow := hItems.row_items.inside d hd
            have hLt := hFirst.covers.1
            exact Nat.lt_of_lt_of_le hLt hRow.1
          · exact (List.mem_append.mp hX).elim (hFirst' X) (hItems' X)
  | noItem | noArguments => simp
  | item _ _ _ ihFirst ihItems | arguments _ _ _ ihFirst ihItems =>
      intro X hX
      have hFirst' := ihFirst trivial (by simp [Goal.held])
      simp only [nodesAll_singleton] at hFirst'
      exact (List.mem_append.mp hX).elim (hFirst' X) (ihItems trivial (by simp [Goal.held]) X)
  | @atom g s rest build hAtom =>
      rw [nodesAll_singleton]
      refine levelled_nodes ⟨?_, ?_⟩ ?_
      · simp [hAtom.children_eq]
      · cases hAtom <;> exact fun c hc => by cases hc
      · simp [hAtom.children_eq]
  | @prefixed g s m rest build e hPrefix hOperand ih =>
      have hCovered : Covered m rest [e] := by
        have hCovers := hOperand.covers
        cases hPrefix <;> exact hCovers
      have hStart : (build ⟨s.index, rest.index⟩ e).range.start < e.range.start := by
        rw [hPrefix.range_eq, hCovered.range_eq]
        exact hPrefix.index_lt
      rw [nodesAll_singleton]
      refine levelled_nodes ⟨fun c hc hSame => ?_, fun c hc => ?_⟩ ?_
      · rw [hPrefix.children_eq, List.mem_singleton] at hc
        rw [hc] at hSame
        exact absurd hSame (Nat.ne_of_gt hStart)
      · obtain rfl : e = c := by
          cases hPrefix with
          | throw => cases hc
          | cast =>
              simp only [operandBehind?, Option.ite_none_right_eq_some, Option.some.injEq] at hc
              exact hc.2
          | _ => exact Option.some.inj hc
        refine ⟨hStart, ?_⟩
        cases hPrefix with
        | throw => cases hc
        | _ => exact hOperand.tight e (List.mem_singleton_self e)
      · rw [hPrefix.children_eq]
        cases hPrefix <;> exact ih trivial hHeld
  | @assign s m rest op target value hHead hTarget hOp hValue ihTarget ihValue =>
      have hTarget' := ihTarget trivial (by simp [Goal.held])
      have hValue' := ihValue trivial (by simp [Goal.held])
      rw [nodesAll_singleton] at hTarget' ⊢
      refine levelled_nodes (.of_cons rfl rfl ?_ fun d hd => ?_) fun X hX => ?_
      · exact Nat.le_trans (Nat.min_le_left _ _) hTarget.two_le_precedence
      · cases List.mem_singleton.mp hd
        rw [hValue.covers.range_eq]
        exact Nat.lt_succ_of_le hTarget.leads.index_le
      · exact (List.mem_append.mp hX).elim (hTarget' X) (hValue' X)
  | unassigned hHead hOperand hOp ih | unconditional hOperand hMark ih => exact ih trivial hHeld
  | @conditional s m k l rest condition whenTrue whenFalse hCondition hMark hTrue hColon hFalse
      ihCondition ihTrue ihFalse =>
      have hCondition' := ihCondition trivial (by simp [Goal.held])
      have hTrue' := ihTrue trivial (by simp [Goal.held])
      have hFalse' := ihFalse trivial (by simp [Goal.held])
      rw [nodesAll_singleton] at hCondition' hTrue' hFalse' ⊢
      have hFirst := hCondition.leads.index_le
      have hIndex : m.next.index = m.index + 1 := rfl
      have hSecond := hTrue.leads.index_le
      have hColonLt := (leads_expect hColon).2
      refine levelled_nodes (.of_cons rfl rfl ?_ fun d hd => ?_) fun X hX => ?_
      · have hTight := hCondition.tight (by decide) condition (List.mem_singleton_self condition)
        exact Nat.le_trans (Nat.min_le_left _ _)
          (Nat.le_trans (show 2 ≤ BinaryOp.or.precedence by decide) hTight)
      · have hStart : whenTrue.range.start = m.next.index := by rw [hTrue.covers.range_eq]
        have hStart' : whenFalse.range.start = l.index := by rw [hFalse.covers.range_eq]
        show s.index < d.range.start
        rcases List.mem_pair.mp hd with rfl | rfl <;> omega
      · simp only [children, nodesAll_cons, nodesAll_nil, List.append_nil, List.mem_append] at hX
        rcases hX with hX | hX | hX
        · exact hCondition' X hX
        · exact hTrue' X hX
        · exact hFalse' X hX
  | @binary least s m rest left e hLeft hOperands ihLeft ihOperands =>
      refine ihOperands ⟨hLeft.covers.1, fun op _ => ?_⟩ (ihLeft trivial (by simp [Goal.held]))
      have hTight := hLeft.tight left (List.mem_singleton_self left)
      have hOp := precedence_lt_unary op
      omega
  | lastOperand | lastSuffix => exact hHeld
  | @operand least start left right e op s m rest hOp hLeast hRight hOperands ihRight ihOperands =>
      obtain ⟨hStart, hEnds⟩ := hFirm
      have hIndex : s.next.index = s.index + 1 := rfl
      have hLe := hRight.leads.index_le
      have hRight' := ihRight trivial (by simp [Goal.held])
      refine ihOperands ⟨by omega, hRight.ends⟩ ?_
      simp only [Goal.held, nodesAll_singleton] at hHeld hRight' ⊢
      refine levelled_nodes (.of_cons rfl rfl ?_ fun d hd => ?_) fun X hX => ?_
      · exact Nat.le_trans (Nat.min_le_left _ _) (Nat.lt_succ_iff.mp (hEnds op hOp))
      · cases List.mem_singleton.mp hd
        rw [hRight.covers.range_eq]
        show start < s.next.index
        omega
      · simp only [children, nodesAll_cons, nodesAll_nil, List.append_nil, List.mem_append] at hX
        exact hX.elim (hHeld X) (hRight' X)
  | @simple s m rest base e hPlain hBase hSuffixes ihBase ihSuffixes =>
      have hTight := hBase.tight base (List.mem_singleton_self base)
      exact ihSuffixes ⟨hBase.covers.1, hTight⟩ (ihBase trivial (by simp [Goal.held]))
  | @suffix start base e s m rest build hSuffix hSuffixes ih =>
      obtain ⟨hStart, hLevel⟩ := hFirm
      have hLt := hSuffix.index_lt
      refine ih ⟨by omega, by rw [hSuffix.precedence_eq]; decide⟩ ?_
      simp only [Goal.held, nodesAll_singleton] at hHeld ⊢
      refine levelled_nodes (.of_cons ?_ hSuffix.children_eq ?_ (by simp)) ?_
      · cases hSuffix <;> rfl
      · exact Nat.le_trans (Nat.min_le_right _ _) hLevel
      · rwa [hSuffix.children_eq, nodesAll_singleton]
  | @bracket start base e es s m k rest g opener closer build hBracket hOpen hInner hClose hSuffixes
      ihInner ihSuffixes =>
      obtain ⟨hStart, hLevel⟩ := hFirm
      have hIndex : s.next.index = s.index + 1 := rfl
      have hLe := hInner.leads.index_le
      have hLt := (leads_expect hClose).2
      have hInner' :=
        ihInner (by cases hBracket <;> trivial) (by cases hBracket <;> simp [Goal.held])
      refine ihSuffixes ⟨by omega, by rw [hBracket.precedence_eq]; decide⟩ ?_
      simp only [Goal.held, nodesAll_singleton] at hHeld ⊢
      intro X hX
      rcases hBracket.mem_nodes hX with rfl | hX | hX
      · have hBehind : ∀ d ∈ es, start < d.range.start := fun d hd => by
          have hSpans := hInner.spans (List.mem_flatMap.mpr ⟨d, hd, mem_nodes_self d⟩)
          have hFrom : s.next.index ≤ d.range.start := by cases hBracket <;> exact hSpans.1
          omega
        cases hBracket with
        | call => exact .of_cons rfl rfl (Nat.le_trans (Nat.min_le_right _ _) hLevel) hBehind
        | subscript =>
            obtain ⟨d, rfl⟩ := hInner.exists_single trivial
            exact .of_cons rfl rfl (Nat.le_trans (Nat.min_le_right _ _) hLevel) hBehind
      · exact hHeld X hX
      · exact hInner' X hX
  | @enclosed s m k rest build e hOpening hInner hClose ih =>
      have hStart : (build ⟨s.index, rest.index⟩ e).range.start < e.range.start := by
        rw [hOpening.range_eq, hInner.covers.range_eq]
        exact hOpening.index_lt
      have hStop : e.range.stop < rest.index := by
        rw [hInner.covers.range_eq]
        exact (leads_expect hClose).2
      rw [nodesAll_singleton]
      refine levelled_nodes ⟨fun c hc hSame => ?_, fun c hc => ?_⟩ ?_
      · rw [hOpening.children_eq, List.mem_singleton] at hc
        rw [hc] at hSame
        exact absurd hSame (Nat.ne_of_gt hStart)
      · cases hOpening with
        | paren => cases hc
        | cast =>
            simp only [operandBehind?, Option.ite_none_right_eq_some] at hc
            exact absurd hc.1 (Nat.ne_of_lt hStop)
      · rw [hOpening.children_eq]
        exact ih trivial (by simp [Goal.held])

/-- Something is read at a place from some tokens as a part of what has the given nodes: an
expression on its own, or what an operator in front asks for. -/
def Goal.IsAsked (all : List Token) (nodes : List Expr) (place : Nat) : Goal → Prop
  | .expression | .assignment => True
  | .unary => ∃ X ∈ nodes, ∃ c, X.operandBehind? = some c ∧ c.range.start = place
  | .binary least => ∃ r op a b, .binary r op a b ∈ nodes ∧ b.range.start = place
    ∧ least = op.precedence + 1 ∧ ∃ i t, place = i + 1 ∧ all[i]? = some t
    ∧ operator? t = some op.symbol
  | _ => False

/-- Where a node starts something is read that is asked for. -/
def Reached (all : List Token) (nodes : List Expr) (X : Expr) : Prop :=
  ∃ (g : Goal) (s rest : Source) (e : Expr), Parses g s [e] rest ∧ s.tokens = all.drop s.index
    ∧ s.index = X.range.start ∧ (∀ Y ∈ e.nodes, Y ∈ nodes) ∧ g.IsAsked all nodes s.index

theorem Goal.IsAsked.mono {nodes nodes' : List Expr} (h : g.IsAsked all nodes i)
    (hSub : ∀ Y ∈ nodes, Y ∈ nodes') : g.IsAsked all nodes' i := by
  cases g with
  | expression | assignment => trivial
  | unary =>
      obtain ⟨Y, hY, c, hOperand, hStart⟩ := h
      exact ⟨Y, hSub Y hY, c, hOperand, hStart⟩
  | binary least =>
      obtain ⟨r, op, a, b, hY, hRest⟩ := h
      exact ⟨r, op, a, b, hSub _ hY, hRest⟩
  | _ => cases h

theorem Reached.mono {nodes nodes' : List Expr} (h : Reached all nodes X)
    (hSub : ∀ Y ∈ nodes, Y ∈ nodes') : Reached all nodes' X := by
  obtain ⟨g, s, rest, e, hParses, hs, hStart, hNodes, hAsked⟩ := h
  exact ⟨g, s, rest, e, hParses, hs, hStart, fun Y hY => hSub Y (hNodes Y hY), hAsked.mono hSub⟩

/-- Where a node starts: where the reading did, or with what was there before, or where something is
read that is asked for. -/
def Goal.Reaches (all : List Token) (s : Source) (es : List Expr) (X : Expr) : Goal → Prop
  | .operands _ start held | .suffixes start held =>
    X ∈ held.nodes ∨ X.range.start = start ∨ Reached all (nodesAll es) X
  | .items | .arguments => Reached all (nodesAll es) X
  | _ => X.range.start = s.index ∨ Reached all (nodesAll es) X

/-- What is read first for something that is asked for is reached. -/
theorem Reached.of_start {nodes : List Expr} (h : Parses g s [e] rest)
    (hs : s.tokens = all.drop s.index) (hAsked : g.IsAsked all nodes s.index)
    (hNodes : ∀ Y ∈ e.nodes, Y ∈ nodes) (hReaches : X.range.start = s.index ∨ Reached all
      (nodesAll [e]) X) : Reached all nodes X := by
  rcases hReaches with hStart | hReached
  · exact ⟨g, s, rest, e, h, hs, hStart.symm, hNodes, hAsked⟩
  · exact hReached.mono (by simpa using hNodes)

theorem Parses.reaches (h : Parses g s es rest) (hs : s.tokens = all.drop s.index)
    (hX : X ∈ nodesAll es) : g.Reaches all s es X := by
  induction h with
  | @expression e es s m rest hFirst hItems ihFirst ihItems =>
      simp only [nodesAll_singleton] at hX ihFirst
      have hFirst' : ∀ Y ∈ nodesAll [e], Y ∈ nodesAll [listed ⟨s.index, rest.index⟩ e es] := by
        simpa using fun Y hY => mem_nodes_listed_of_first hY
      have hItems' : ∀ Y ∈ nodesAll es, Y ∈ nodesAll [listed ⟨s.index, rest.index⟩ e es] := by
        simpa using fun Y hY => mem_nodes_listed_of_items hY
      rcases mem_nodes_listed hX with rfl | hX | hX
      · exact .inl (by rw [(expression hFirst hItems).covers.range_eq])
      · exact (ihFirst hs hX).imp_right (·.mono hFirst')
      · exact .inr ((ihItems (hFirst.leads.drop hs) hX).mono hItems')
  | noItem | noArguments => cases hX
  | @item e es s m rest hNext hFirst hItems ihFirst ihItems =>
      have hn := (leads_next (op?_of_isAt hNext)).drop hs
      rcases List.mem_append.mp hX with hX | hX
      · exact .of_start hFirst hn trivial (fun Y hY => List.mem_append_left _ hY)
          (ihFirst hn (by simpa using hX))
      · exact (ihItems (hFirst.leads.drop hn) hX).mono fun Y hY => List.mem_append_right _ hY
  | @atom g s rest build hAtom =>
      rw [nodesAll_singleton, mem_nodes_of_children hAtom.children_eq] at hX
      obtain rfl := hX.resolve_right List.not_mem_nil
      have hStart : (build ⟨s.index, rest.index⟩).range.start = s.index := by rw [hAtom.range_eq]
      cases hAtom <;> exact .inl hStart
  | @prefixed g s m rest build e hPrefix hOperand ih =>
      have hm := (isLocal_prefixed g build hPrefix).leads.drop hs
      have hStart : (build ⟨s.index, rest.index⟩ e).range.start = s.index := by
        rw [hPrefix.range_eq]
      have hMem : build ⟨s.index, rest.index⟩ e ∈ nodesAll [build ⟨s.index, rest.index⟩ e] := by
        simp [mem_nodes_self]
      have hNodes : ∀ Y ∈ e.nodes, Y ∈ nodesAll [build ⟨s.index, rest.index⟩ e] := fun Y hY =>
        mem_nodesAll_of_child (by rw [hPrefix.children_eq]; exact List.mem_singleton_self e) hY
      rw [nodesAll_singleton, mem_nodes_of_children hPrefix.children_eq] at hX
      rcases hX with rfl | hX
      · cases hPrefix <;> exact .inl hStart
      have hReaches := ih hm hX
      have hAsked : g.IsAsked all (nodesAll [build ⟨s.index, rest.index⟩ e]) m.index := by
        cases hPrefix with
        | throw => trivial
        | cast =>
            have hStop : e.range.stop = rest.index := by rw [hOperand.covers.range_eq]
            exact ⟨_, hMem, e, if_pos hStop, by rw [hOperand.covers.range_eq]⟩
        | _ => exact ⟨_, hMem, e, rfl, by rw [hOperand.covers.range_eq]⟩
      cases hPrefix <;> exact .inr (.of_start hOperand hm hAsked hNodes hReaches)
  | @assign s m rest op target value hHead hTarget hOp hValue ihTarget ihValue =>
      obtain ⟨symbol, hSymbol, -⟩ := op?_of_bind hOp
      have hn := (leads_next hSymbol).drop (hTarget.leads.drop hs)
      rw [nodesAll_singleton] at hX
      rcases mem_nodes.mp hX with rfl | hX
      · exact .inl rfl
      simp only [children, nodesAll_cons, nodesAll_nil, List.append_nil, List.mem_append] at hX
      rcases hX with hX | hX
      · exact (ihTarget hs (by simpa using hX)).imp_right
          (·.mono (by simpa using fun Y hY => mem_nodes_of_child List.mem_cons_self hY))
      · exact .inr (.of_start hValue hn trivial
          (fun Y hY => mem_nodesAll_of_child (by simp [children]) hY)
          (ihValue hn (by simpa using hX)))
  | unassigned hHead hOperand hOp ih | unconditional hOperand hMark ih => exact ih hs hX
  | @conditional s m k l rest condition whenTrue whenFalse hCondition hMark hTrue hColon hFalse
      ihCondition ihTrue ihFalse =>
      have hn := (leads_next (op?_of_isAt hMark)).drop (hCondition.leads.drop hs)
      have hl := (leads_expect hColon).1.drop (hTrue.leads.drop hn)
      rw [nodesAll_singleton] at hX
      rcases mem_nodes.mp hX with rfl | hX
      · exact .inl rfl
      simp only [children, nodesAll_cons, nodesAll_nil, List.append_nil, List.mem_append] at hX
      rcases hX with hX | hX | hX
      · exact (ihCondition hs (by simpa using hX)).imp_right
          (·.mono (by simpa using fun Y hY => mem_nodes_of_child List.mem_cons_self hY))
      · exact .inr (.of_start hTrue hn trivial
          (fun Y hY => mem_nodesAll_of_child (by simp [children]) hY)
          (ihTrue hn (by simpa using hX)))
      · exact .inr (.of_start hFalse hl trivial
          (fun Y hY => mem_nodesAll_of_child (by simp [children]) hY)
          (ihFalse hl (by simpa using hX)))
  | @binary least s m rest left e hLeft hOperands ihLeft ihOperands =>
      rcases ihOperands (hLeft.leads.drop hs) hX with hX | hReaches
      · exact (ihLeft hs (by simpa using hX)).imp_right
          (·.mono fun Y hY => hOperands.mem_of_held hY)
      · exact hReaches
  | lastOperand | lastSuffix => exact .inl (by simpa using hX)
  | @operand least start left right e op s m rest hOp hLeast hRight hOperands ihRight ihOperands =>
      obtain ⟨symbol, hSymbol, hOf⟩ := op?_of_bind hOp
      have hn := (leads_next hSymbol).drop hs
      rcases ihOperands (hRight.leads.drop hn) hX with hX | hReaches
      swap
      · exact .inr hReaches
      rcases mem_nodes.mp hX with rfl | hX
      · exact .inr (.inl rfl)
      simp only [children, nodesAll_cons, nodesAll_nil, List.append_nil, List.mem_append] at hX
      rcases hX with hX | hX
      · exact .inl hX
      have hHeld : .binary ⟨start, m.index⟩ op left right ∈ nodesAll [e] :=
        hOperands.mem_of_held (by simp [Goal.held, mem_nodes_self])
      have hAsked : (Goal.binary (op.precedence + 1)).IsAsked all (nodesAll [e]) s.next.index := by
        refine ⟨_, op, left, right, hHeld, by rw [hRight.covers.range_eq], rfl, ?_⟩
        obtain ⟨t, ht, hToken⟩ := Option.bind_eq_some_iff.mp hSymbol
        have hSame : op.symbol = symbol := by simpa using List.find?_some hOf
        refine ⟨s.index, t, rfl, ?_, by rw [hToken, hSame]⟩
        rw [← ht, peek?, hs, List.head?_drop]
      exact .inr (.inr (.of_start hRight hn hAsked (fun Y hY => hOperands.mem_of_held (by
        rw [Goal.held]
        exact mem_nodesAll_of_child (by simp [children]) hY)) (ihRight hn (by simpa using hX))))
  | @simple s m rest base e hPlain hBase hSuffixes ihBase ihSuffixes =>
      rcases ihSuffixes (hBase.leads.drop hs) hX with hX | hReaches
      · exact (ihBase hs (by simpa using hX)).imp_right
          (·.mono fun Y hY => hSuffixes.mem_of_held hY)
      · exact hReaches
  | @suffix start base e s m rest build hSuffix hSuffixes ih =>
      rcases ih ((isLocal_suffix build hSuffix).leads.drop hs) hX with hX | hReaches
      swap
      · exact .inr hReaches
      rw [mem_nodes_of_children hSuffix.children_eq, nodesAll_singleton] at hX
      rcases hX with rfl | hX
      · exact .inr (.inl (by rw [hSuffix.range_eq]))
      · exact .inl hX
  | @bracket start base e es s m k rest g opener closer build hBracket hOpen hInner hClose hSuffixes
      ihInner ihSuffixes =>
      have hn := (leads_next (op?_of_isAt hOpen)).drop hs
      have hk := (leads_expect hClose).1.drop (hInner.leads.drop hn)
      rcases ihSuffixes hk hX with hX | hReaches
      swap
      · exact .inr hReaches
      rcases hBracket.mem_nodes hX with rfl | hX | hX
      · exact .inr (.inl (by rw [hBracket.range_eq]))
      · exact .inl hX
      have hNodes : ∀ Y ∈ nodesAll es, Y ∈ nodesAll [e] := fun Y hY => hSuffixes.mem_of_held (by
        rw [Goal.held, nodesAll_singleton]
        exact hBracket.mem_nodes_of_inner hInner hY)
      have hReaches := ihInner hn hX
      cases hBracket with
      | call => exact .inr (.inr (hReaches.mono hNodes))
      | subscript =>
          obtain ⟨inner, rfl⟩ := hInner.exists_single trivial
          exact .inr (.inr (.of_start hInner hn trivial (by simpa using hNodes) hReaches))
  | @arguments e es s m rest hNext hFirst hItems ihFirst ihItems =>
      rcases List.mem_append.mp hX with hX | hX
      · exact .of_start hFirst hs trivial (fun Y hY => List.mem_append_left _ hY)
          (ihFirst hs (by simpa using hX))
      · exact (ihItems (hFirst.leads.drop hs) hX).mono fun Y hY => List.mem_append_right _ hY
  | @enclosed s m k rest build e hOpening hInner hClose ih =>
      have hm := (passes_opening hOpening).moves.leads.drop hs
      rw [nodesAll_singleton, mem_nodes_of_children hOpening.children_eq] at hX
      rcases hX with rfl | hX
      · exact .inl (by rw [hOpening.range_eq])
      · exact .inr (.of_start hInner hm trivial
          (fun Y hY => mem_nodesAll_of_child
            (by rw [hOpening.children_eq]; exact List.mem_singleton_self e) hY)
          (ih hm hX))

end Demacro.Expr
