import Demacro.Proofs.Expr.Extent
import Demacro.Proofs.Expr.Parsing
import Mathlib.Algebra.GroupWithZero.Nat
import Mathlib.Algebra.Order.BigOperators.Group.List
import Mathlib.Algebra.Order.Group.Nat

/-!
How often a run of an expression evaluates what stands for a name. A run leaves out the operand of a
measure, one branch of a conditional expression, and the right operand of a logical operator if the
left one decides. A name that stands in one leaf is evaluated exactly once in every run if and only
if no such operand holds the leaf.
-/

namespace Demacro.Expr

variable {p : String} {e c X : Expr} {es : List Expr} {n : Nat} {r : TokenRange}

/-- Whether a node is the given name and nothing else. -/
def isLeaf (p : String) : Expr → Bool
  | name _ text => text == p
  | _ => false

/-- How many leaves of an expression are the given name. -/
def leaves (p : String) (e : Expr) : Nat :=
  e.nodes.countP (isLeaf p)

/-- The operands of a node that a run may leave out. -/
def optional : Expr → List Expr
  | binary _ op _ b => if op = .and ∨ op = .or then [b] else []
  | conditional _ _ a b => [a, b]
  | measure _ _ a => a.toList
  | _ => []

/-- Which operands of a node a run evaluates. -/
inductive Takes : Expr → List Expr → Prop where
  | all {e : Expr} (h : e.optional = []) : Takes e e.children
  | decided {r : TokenRange} {op : BinaryOp} {a b : Expr} (h : op = .and ∨ op = .or) :
      Takes (binary r op a b) [a]
  | undecided {r : TokenRange} {op : BinaryOp} {a b : Expr} (h : op = .and ∨ op = .or) :
      Takes (binary r op a b) [a, b]
  | whenTrue {r : TokenRange} {c a b : Expr} : Takes (conditional r c a b) [c, a]
  | whenFalse {r : TokenRange} {c a b : Expr} : Takes (conditional r c a b) [c, b]
  | measure {r : TokenRange} {keyword : String} {a : Option Expr} : Takes (measure r keyword a) []

/-- A run of an expression evaluates what stands for a name the given number of times. -/
inductive Evaluates (p : String) : Expr → Nat → Prop where
  | leaf {e : Expr} (h : e.isLeaf p = true) : Evaluates p e 1
  | node {e : Expr} {es : List Expr} {ns : List Nat} (h : e.isLeaf p = false) (hTakes : Takes e es)
      (hEach : List.Forall₂ (Evaluates p) es ns) : Evaluates p e ns.sum

/-- The name stands in one leaf, and not in an operand that a run may leave out. -/
def StandsOnce (p : String) (e : Expr) : Prop :=
  e.leaves p = 1 ∧ ∀ X ∈ e.nodes, ∀ c ∈ X.optional, c.leaves p = 0

instance (p : String) (e : Expr) : Decidable (e.StandsOnce p) :=
  inferInstanceAs (Decidable (_ ∧ _))

theorem leaves_eq (p : String) (e : Expr) :
    e.leaves p = (if e.isLeaf p then 1 else 0) + (e.children.map (leaves p)).sum := by
  rw [leaves, nodes_eq, List.countP_cons, nodesAll, List.countP_flatMap, Nat.add_comm]
  rfl

/-- A leaf has no operands. -/
theorem children_of_isLeaf (h : e.isLeaf p = true) : e.children = [] ∧ e.optional = [] := by
  cases e with
  | name => exact ⟨rfl, rfl⟩
  | _ => cases h

theorem leaves_of_isLeaf (h : e.isLeaf p = true) : e.leaves p = 1 := by
  rw [leaves_eq, if_pos h, (children_of_isLeaf h).1]
  rfl

theorem leaves_of_not_isLeaf (h : e.isLeaf p = false) :
    e.leaves p = (e.children.map (leaves p)).sum := by
  rw [leaves_eq, h]
  simp

theorem Takes.sublist (h : Takes e es) : es.Sublist e.children := by
  cases h with
  | all => exact .refl _
  | decided | undecided | whenTrue | whenFalse | measure => simp [children]

theorem exists_takes (e : Expr) : ∃ es, Takes e es := by
  cases e with
  | binary r op a b =>
      by_cases h : op = .and ∨ op = .or
      · exact ⟨_, .decided h⟩
      · exact ⟨_, .all (if_neg h)⟩
  | conditional => exact ⟨_, .whenTrue⟩
  | measure => exact ⟨_, .measure⟩
  | _ => exact ⟨_, .all rfl⟩

/-- An operand that no run may leave out is evaluated in some run. -/
theorem exists_takes_mem (hc : c ∈ e.children) (hOptional : c ∉ e.optional) :
    ∃ es, Takes e es ∧ c ∈ es := by
  cases e with
  | binary r op a b =>
      by_cases h : op = .and ∨ op = .or
      · exact ⟨_, .undecided h, hc⟩
      · exact ⟨_, .all (if_neg h), hc⟩
  | conditional r test a b =>
      simp only [children, optional, List.mem_cons, List.not_mem_nil, or_false,
        not_or] at hc hOptional
      exact ⟨_, .whenTrue, by simp [hc.resolve_right (by tauto)]⟩
  | measure => exact absurd hc hOptional
  | _ => exact ⟨_, .all rfl, hc⟩

/-- An operand that a run may leave out is left out in some run. -/
theorem exists_takes_lt (hc : c ∈ e.optional) (hLeaf : 0 < c.leaves p) :
    ∃ es, Takes e es ∧ (es.map (leaves p)).sum < (e.children.map (leaves p)).sum := by
  cases e with
  | binary r op a b =>
      simp only [optional] at hc
      split at hc
      · rename_i h
        cases List.mem_singleton.mp hc
        exact ⟨_, .decided h, by simpa [children] using hLeaf⟩
      · cases hc
  | conditional r test a b =>
      simp only [optional, List.mem_cons, List.not_mem_nil, or_false] at hc
      rcases hc with rfl | rfl
      · exact ⟨_, .whenFalse, by simpa [children] using hLeaf⟩
      · exact ⟨_, .whenTrue, by simpa [children] using hLeaf⟩
  | measure r keyword a =>
      obtain rfl := Option.mem_toList.mp hc
      exact ⟨_, .measure, by simpa [children] using hLeaf⟩
  | _ => cases hc

/-- Runs of some expressions, one for each. -/
theorem exists_runs (h : ∀ e ∈ es, ∃ n, Evaluates p e n ∧ n ≤ e.leaves p) :
    ∃ ns, List.Forall₂ (Evaluates p) es ns ∧ ns.sum ≤ (es.map (leaves p)).sum := by
  induction es with
  | nil => exact ⟨[], .nil, Nat.le_refl _⟩
  | cons e es ih =>
      obtain ⟨n, hRun, hLe⟩ := h e List.mem_cons_self
      obtain ⟨ns, hRuns, hSum⟩ := ih fun c hc => h c (List.mem_cons_of_mem e hc)
      exact ⟨n :: ns, .cons hRun hRuns, Nat.add_le_add hLe hSum⟩

/-- If one of them runs with fewer evaluations than it has leaves, so do all together. -/
theorem exists_runs_lt (h : ∀ e ∈ es, ∃ n, Evaluates p e n ∧ n ≤ e.leaves p) (hc : c ∈ es)
    (hLess : ∃ n, Evaluates p c n ∧ n < c.leaves p) :
    ∃ ns, List.Forall₂ (Evaluates p) es ns ∧ ns.sum < (es.map (leaves p)).sum := by
  induction es with
  | nil => cases hc
  | cons e es ih =>
      have hRest := fun c hc => h c (List.mem_cons_of_mem e hc)
      rcases List.mem_cons.mp hc with rfl | hc
      · obtain ⟨n, hRun, hLt⟩ := hLess
        obtain ⟨ns, hRuns, hSum⟩ := exists_runs hRest
        exact ⟨n :: ns, .cons hRun hRuns, Nat.add_lt_add_of_lt_of_le hLt hSum⟩
      · obtain ⟨n, hRun, hLe⟩ := h e List.mem_cons_self
        obtain ⟨ns, hRuns, hSum⟩ := ih hRest hc
        exact ⟨n :: ns, .cons hRun hRuns, Nat.add_lt_add_of_le_of_lt hLe hSum⟩

theorem sum_leaves_le (h : Takes e es) :
    (es.map (leaves p)).sum ≤ (e.children.map (leaves p)).sum :=
  (h.sublist.map _).sum_le_sum fun _ _ => Nat.zero_le _

/-- Every expression runs, and no run evaluates more than the leaves. -/
theorem exists_evaluates (p : String) (e : Expr) : ∃ n, Evaluates p e n ∧ n ≤ e.leaves p := by
  induction e using induct_children with
  | h e ih =>
      cases hLeaf : e.isLeaf p
      · obtain ⟨es, hTakes⟩ := exists_takes e
        obtain ⟨ns, hRuns, hSum⟩ := exists_runs fun c hc => ih c (hTakes.sublist.subset hc)
        refine ⟨ns.sum, .node hLeaf hTakes hRuns, ?_⟩
        rw [leaves_of_not_isLeaf hLeaf]
        exact hSum.trans (sum_leaves_le hTakes)
      · exact ⟨1, .leaf hLeaf, (leaves_of_isLeaf hLeaf).ge⟩

/-- What each run of an operand evaluates bounds what they evaluate together. -/
theorem sum_le_of_runs {ns : List Nat} (hRuns : List.Forall₂ (Evaluates p) es ns)
    (h : ∀ c ∈ es, ∀ n, Evaluates p c n → n ≤ c.leaves p) : ns.sum ≤ (es.map (leaves p)).sum := by
  induction hRuns with
  | nil => exact Nat.le_refl _
  | cons hRun _ ih =>
      have hRest := ih fun c hc => h c (List.mem_cons_of_mem _ hc)
      exact Nat.add_le_add (h _ List.mem_cons_self _ hRun) hRest

theorem eq_map_of_runs {ns : List Nat} (hRuns : List.Forall₂ (Evaluates p) es ns)
    (h : ∀ c ∈ es, ∀ n, Evaluates p c n → n = c.leaves p) : ns = es.map (leaves p) := by
  induction hRuns with
  | nil => rfl
  | cons hRun _ ih =>
      rw [List.map_cons, h _ List.mem_cons_self _ hRun,
        ih fun c hc => h c (List.mem_cons_of_mem _ hc)]

/-- No run evaluates more than the leaves. -/
theorem Evaluates.le_leaves (h : Evaluates p e n) : n ≤ e.leaves p := by
  induction e using induct_children generalizing n with
  | h e ih =>
      cases h with
      | leaf hLeaf => exact (leaves_of_isLeaf hLeaf).ge
      | node hLeaf hTakes hEach =>
          rw [leaves_of_not_isLeaf hLeaf]
          have hSum := sum_le_of_runs hEach fun c hc _ hRun => ih c (hTakes.sublist.subset hc) hRun
          exact hSum.trans (sum_leaves_le hTakes)

/-- What a run leaves out holds no leaf if no operand does that may be left out. -/
theorem sum_leaves_eq (h : Takes e es) (hNone : ∀ c ∈ e.optional, c.leaves p = 0) :
    (es.map (leaves p)).sum = (e.children.map (leaves p)).sum := by
  cases h with
  | all | undecided => rfl
  | decided h => simpa [optional, h, children] using hNone
  | whenTrue | whenFalse =>
      simp only [optional, List.mem_cons, List.not_mem_nil, or_false, forall_eq_or_imp,
        forall_eq] at hNone
      simp [children, hNone]
  | measure =>
      rename_i a
      cases a with
      | none => rfl
      | some a => simpa [optional, children, eq_comm] using hNone

/-- Every run evaluates every leaf if no operand holds one that may be left out. -/
theorem Evaluates.eq_leaves (h : Evaluates p e n)
    (hNone : ∀ X ∈ e.nodes, ∀ c ∈ X.optional, c.leaves p = 0) : n = e.leaves p := by
  induction e using induct_children generalizing n with
  | h e ih =>
      cases h with
      | leaf hLeaf => exact (leaves_of_isLeaf hLeaf).symm
      | node hLeaf hTakes hEach =>
          have hRuns := eq_map_of_runs hEach fun c hc _ hRun =>
            ih c (hTakes.sublist.subset hc) hRun fun X hX =>
              hNone X (mem_nodes_of_child (hTakes.sublist.subset hc) hX)
          rw [hRuns, leaves_of_not_isLeaf hLeaf, sum_leaves_eq hTakes (hNone e (mem_nodes_self e))]

/-- Some run leaves a leaf out if an operand holds it that may be left out. -/
theorem exists_evaluates_lt (hX : X ∈ e.nodes) (hc : c ∈ X.optional) (hLeaf : 0 < c.leaves p) :
    ∃ n, Evaluates p e n ∧ n < e.leaves p := by
  induction e using induct_children with
  | h e ih =>
      have hOwn : e.isLeaf p = false := by
        by_contra hLeaf'
        obtain ⟨hChildren, hOptional⟩ := children_of_isLeaf (eq_true_of_ne_false hLeaf')
        rw [nodes_eq, hChildren, nodesAll_nil, List.mem_singleton] at hX
        rw [hX, hOptional] at hc
        cases hc
      have hLeftOut : ∀ d ∈ e.optional, 0 < d.leaves p → ∃ n, Evaluates p e n ∧ n < e.leaves p := by
        intro d hd hHolds
        obtain ⟨es, hTakes, hLess⟩ := exists_takes_lt hd hHolds
        have hRun : ∀ a ∈ es, ∃ n, Evaluates p a n ∧ n ≤ a.leaves p :=
          fun a _ => exists_evaluates p a
        obtain ⟨ns, hRuns, hSum⟩ := exists_runs hRun
        exact ⟨ns.sum, .node hOwn hTakes hRuns, leaves_of_not_isLeaf hOwn ▸ hSum.trans_lt hLess⟩
      rcases mem_nodes.mp hX with rfl | hX
      · exact hLeftOut c hc hLeaf
      · obtain ⟨d, hd, hX⟩ := List.mem_flatMap.mp hX
        obtain ⟨n, hRun, hLess⟩ := ih d hd hX
        by_cases hOptional : d ∈ e.optional
        · exact hLeftOut d hOptional (Nat.zero_lt_of_lt hLess)
        · obtain ⟨es, hTakes, hMem⟩ := exists_takes_mem hd hOptional
          obtain ⟨ns, hRuns, hSum⟩ := exists_runs_lt (fun a _ => exists_evaluates p a) hMem
            ⟨n, hRun, hLess⟩
          exact ⟨ns.sum, .node hOwn hTakes hRuns, leaves_of_not_isLeaf hOwn ▸ hSum.trans_le
            (sum_leaves_le hTakes)⟩

/-- A name with at most one leaf is evaluated once in every run exactly if it has a leaf, and no
operand holds it that a run may leave out. -/
theorem evaluates_once_iff (h : e.leaves p ≤ 1) :
    (∀ n, Evaluates p e n → n = 1) ↔ e.StandsOnce p := by
  constructor
  · intro hOnce
    obtain ⟨n, hRun, hLe⟩ := exists_evaluates p e
    have hLeaf : e.leaves p = 1 := by
      have := hOnce n hRun
      omega
    refine ⟨hLeaf, fun X hX c hc => Nat.eq_zero_of_not_pos fun hHolds => ?_⟩
    obtain ⟨m, hRun', hLess⟩ := exists_evaluates_lt hX hc hHolds
    have := hOnce m hRun'
    omega
  · rintro ⟨hLeaf, hNone⟩ n hRun
    rw [hRun.eq_leaves hNone, hLeaf]

/-- How many tokens are the name. -/
def spelled (p : String) (ts : List Token) : Nat :=
  ts.countP fun t => t.isIdentifier && t.spelling == p

theorem spelled_le {s rest : Source} (h : s.Leads rest) :
    spelled p rest.tokens ≤ spelled p s.tokens := by
  obtain ⟨used, hTokens, -⟩ := h
  rw [hTokens, spelled, spelled, List.countP_append]
  exact Nat.le_add_left _ _

/-- A name without a colon is one token. -/
theorem eq_of_nameParts {text : String} {i : Nat} {ts : List Token} {rest : Source}
    (hColon : ':' ∉ p.toList) (h : Source.nameParts text i ts = .ok (p, rest)) : text = p := by
  fun_induction Source.nameParts text i ts with
  | case1 | case3 | case6 => cases h; rfl
  | case2 | case5 => cases h
  | case4 text i t part ts hScope hPart ih =>
      refine absurd ?_ hColon
      rw [← ih h]
      simp

theorem leaves_listed : (listed r e es).leaves p = e.leaves p + (es.map (leaves p)).sum := by
  unfold listed
  split
  · rename_i hNone
    rw [List.isEmpty_iff.mp hNone]
    rfl
  · rw [leaves_of_not_isLeaf rfl]
    rfl

theorem leaves_binary {op : BinaryOp} {a b : Expr} :
    (binary r op a b).leaves p = a.leaves p + b.leaves p := by
  rw [leaves_of_not_isLeaf rfl]
  simp [children]

theorem leaves_assign {op : AssignOp} {a b : Expr} :
    (assign r op a b).leaves p = a.leaves p + b.leaves p := by
  rw [leaves_of_not_isLeaf rfl]
  simp [children]

theorem leaves_conditional {a b : Expr} :
    (conditional r c a b).leaves p = c.leaves p + a.leaves p + b.leaves p := by
  rw [leaves_of_not_isLeaf rfl]
  simp [children, Nat.add_assoc]

/-- An atom is at most one leaf, and then it is one token of the name. -/
theorem Atom.leaves_add_le {g : Goal} {s rest : Source} {build : TokenRange → Expr}
    (hColon : ':' ∉ p.toList) (h : Atom g s build rest) :
    (build r).leaves p + spelled p rest.tokens ≤ spelled p s.tokens := by
  have hRest := spelled_le (p := p) (isLocal_atom _ _ h).leads
  by_cases hLeaf : (build r).isLeaf p = true
  · rw [leaves_of_isLeaf hLeaf]
    cases h with
    | @name i t ts text rest hHead hCast hParts =>
        obtain rfl : text = p := eq_of_beq hLeaf
        have hName := eq_of_nameParts hColon hParts
        have hLater :=
          spelled_le (p := text) (Source.isLocal_nameParts t.spelling text (s :=
            ⟨i + 1, ts⟩) hParts).leads
        simp only [spelled, List.countP_cons, hHead, hName, BEq.rfl, Bool.and_self,
          if_true] at hLater ⊢
        omega
    | @qualified i t part ts text rest hHead hPart hParts =>
        obtain rfl : text = p := eq_of_beq hLeaf
        rw [← eq_of_nameParts hColon hParts] at hColon
        simp at hColon
    | raise | measure | allocate | constant | strings => cases hLeaf
  · rw [leaves_of_not_isLeaf (by simpa using hLeaf), h.children_eq]
    simpa using hRest

theorem Prefix.leaves_eq {g : Goal} {s m : Source} {build : TokenRange → Expr → Expr}
    (h : Prefix g s build m) : (build r e).leaves p = e.leaves p := by
  have hLeaf : (build r e).isLeaf p = false := by cases h <;> rfl
  rw [leaves_of_not_isLeaf hLeaf, h.children_eq, List.map_singleton, List.sum_singleton]

theorem Opening.leaves_eq {s m : Source} {build : TokenRange → Expr → Expr}
    (h : Opening s build m) : (build r e).leaves p = e.leaves p := by
  have hLeaf : (build r e).isLeaf p = false := by cases h <;> rfl
  rw [leaves_of_not_isLeaf hLeaf, h.children_eq, List.map_singleton, List.sum_singleton]

theorem Suffix.leaves_eq {s m : Source} {build : TokenRange → Expr → Expr} (h : Suffix s build m) :
    (build r e).leaves p = e.leaves p := by
  have hLeaf : (build r e).isLeaf p = false := by cases h <;> rfl
  rw [leaves_of_not_isLeaf hLeaf, h.children_eq, List.map_singleton, List.sum_singleton]

theorem Bracket.leaves_eq {opener closer : String} {g : Goal} {s m : Source}
    {build : TokenRange → Expr → List Expr → Expr} {base : Expr} (h : Bracket opener g closer build)
    (hInner : Parses g s es m) :
    (build r base es).leaves p = base.leaves p + (es.map (leaves p)).sum := by
  cases h with
  | call =>
      rw [leaves_of_not_isLeaf rfl]
      rfl
  | subscript =>
      cases hInner with
      | atom hAtom => cases hAtom
      | prefixed hPrefix => cases hPrefix
      | expression =>
          rw [leaves_of_not_isLeaf rfl]
          rfl

/-- No more leaves are read than tokens of the name, but for what was there before. -/
theorem Parses.leaves_add_le {g : Goal} {s rest : Source} (hColon : ':' ∉ p.toList)
    (h : Parses g s es rest) :
    (es.map (leaves p)).sum + spelled p rest.tokens ≤ (g.held.map (leaves p)).sum
    + spelled p s.tokens := by
  have hNext : ∀ s : Source, spelled p s.next.tokens ≤ spelled p s.tokens := fun s =>
    (List.drop_sublist 1 s.tokens).countP_le
  have hExpect : ∀ {s rest : Source} {wanted : String}, s.expect wanted = .ok rest →
      spelled p rest.tokens ≤ spelled p s.tokens :=
      fun hWanted => spelled_le (Source.leads_expect hWanted).1
  induction h with
  | noItem | noArguments | lastOperand | lastSuffix => exact Nat.le_refl _
  | expression _ _ ihFirst ihItems =>
      simp only [Goal.held, List.map_cons, List.map_nil, List.sum_cons, List.sum_nil,
        leaves_listed] at ihFirst ihItems ⊢
      omega
  | @item _ _ s _ _ _ _ _ ihFirst ihItems =>
      have hSkip := hNext s
      simp only [Goal.held, List.map_cons, List.map_nil, List.sum_cons,
        List.sum_nil] at ihFirst ihItems ⊢
      omega
  | arguments _ _ _ ihFirst ihItems =>
      simp only [Goal.held, List.map_cons, List.map_nil, List.sum_cons,
        List.sum_nil] at ihFirst ihItems ⊢
      omega
  | @atom g s rest build hAtom =>
      have hAtomLe := hAtom.leaves_add_le (r := ⟨s.index, rest.index⟩) hColon
      simp only [List.map_cons, List.map_nil, List.sum_cons, List.sum_nil]
      exact Nat.le_add_left_of_le (by simpa using hAtomLe)
  | @prefixed g s m rest build e hPrefix _ ih =>
      have hSkip := spelled_le (p := p) (isLocal_prefixed _ _ hPrefix).leads
      simp only [List.map_cons, List.map_nil, List.sum_cons, List.sum_nil,
        hPrefix.leaves_eq] at ih ⊢
      omega
  | @assign _ m _ _ _ _ _ _ _ _ ihTarget ihValue =>
      have hSkip := hNext m
      simp only [Goal.held, List.map_cons, List.map_nil, List.sum_cons, List.sum_nil,
        leaves_assign] at ihTarget ihValue ⊢
      omega
  | unassigned _ _ _ ih | unconditional _ _ ih => exact ih
  | @conditional _ m _ _ _ _ _ _ _ _ _ hEnd _ ihCondition ihTrue ihFalse =>
      have hSkip := hNext m
      have hSkip' := hExpect hEnd
      simp only [Goal.held, List.map_cons, List.map_nil, List.sum_cons, List.sum_nil,
        leaves_conditional] at ihCondition ihTrue ihFalse ⊢
      omega
  | binary _ _ ihLeft ihOperands =>
      simp only [Goal.held, List.map_cons, List.map_nil, List.sum_cons,
        List.sum_nil] at ihLeft ihOperands ⊢
      omega
  | @operand _ _ _ _ _ _ s _ _ _ _ _ _ ihRight ihOperands =>
      have hSkip := hNext s
      simp only [Goal.held, List.map_cons, List.map_nil, List.sum_cons, List.sum_nil,
        leaves_binary] at ihRight ihOperands ⊢
      omega
  | simple _ _ _ ihBase ihSuffixes =>
      simp only [Goal.held, List.map_cons, List.map_nil, List.sum_cons,
        List.sum_nil] at ihBase ihSuffixes ⊢
      omega
  | suffix hSuffix _ ih =>
      have hSkip := spelled_le (p := p) (isLocal_suffix _ hSuffix).leads
      simp only [Goal.held, List.map_cons, List.map_nil, List.sum_cons, List.sum_nil,
        hSuffix.leaves_eq] at ih ⊢
      omega
  | @bracket _ _ _ es s _ _ _ g _ _ _ hBracket _ hInner hClose _ ihInner ihSuffixes =>
      have hSkip := hNext s
      have hSkip' := hExpect hClose
      have hHeld : (g.held.map (leaves p)).sum = 0 := by cases hBracket <;> rfl
      rw [hHeld] at ihInner
      simp only [Goal.held, List.map_cons, List.map_nil, List.sum_cons, List.sum_nil,
        hBracket.leaves_eq hInner] at ihSuffixes ⊢
      omega
  | enclosed hOpening _ hClose ih =>
      have hSkip := spelled_le (p := p) (passes_opening hOpening).moves.leads
      have hSkip' := hExpect hClose
      simp only [Goal.held, List.map_cons, List.map_nil, List.sum_cons, List.sum_nil,
        hOpening.leaves_eq] at ih ⊢
      omega

/-- A tree has no more leaves of a name than its tokens spell it. -/
theorem leaves_le_spelled {tokens : List Token} (hColon : ':' ∉ p.toList)
    (h : parse tokens = .ok e) : e.leaves p ≤ spelled p tokens := by
  have hLe := (parse_eq_ok_iff.mp h).leaves_add_le hColon
  simpa [Goal.held, spelled] using hLe

end Demacro.Expr
