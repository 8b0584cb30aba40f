import Demacro.Expr.Parser
import Demacro.Proofs.Expr.Nodes
import Demacro.Proofs.Success
import Mathlib.Data.List.Lex

/-!
The side effect that is reported for an expression. It is that of the first node with one, in the
order in which a node stands in front of its operands and these in the order of the source. The
operand of a measure is not evaluated, but its nodes count: the report is about evaluated code
unless such an operand has an effect in front of all that are evaluated.
-/

namespace Demacro.Expr

/-- A node inside an expression: the numbers of the operands that lead to it. The smaller of two
places stands in front of the other. -/
abbrev Place := List Nat

/-- The node at a place. -/
def nodeAt? (e : Expr) : Place → Option Expr
  | [] => some e
  | i :: p => e.children[i]?.bind (nodeAt? · p)

/-- Whether a place is inside the operand of a measure. -/
def isMeasured (e : Expr) : Place → Bool
  | [] => false
  | i :: p => e.isMeasure || e.children[i]?.any (isMeasured · p)

/-- The side effect of the node at a place, in words. -/
def effectAt? (e : Expr) (p : Place) : Option String :=
  (e.nodeAt? p).bind ownEffect?

/-- Of the places of a kind that have a side effect, `p` is the first. -/
structure IsFirstEffect (e : Expr) (kind : Place → Prop) (p : Place) (effect : String) : Prop where
  hasEffect : e.effectAt? p = some effect
  isOfKind : kind p
  first : ∀ q other, e.effectAt? q = some other → kind q → ¬ q < p

/-- A node in the operand of a measure has a side effect, and no node that is evaluated has one in
front of it. -/
def MeasuresEffectFirst (e : Expr) : Prop :=
  ∃ q effect, e.effectAt? q = some effect ∧ e.isMeasured q = true
    ∧ ∀ p other, e.effectAt? p = some other → e.isMeasured p = false → ¬ p < q

variable {e c : Expr} {es : List Expr} {p q : Place} {i : Nat} {d d' : String}

@[simp]
theorem effectAt?_nil (e : Expr) : e.effectAt? [] = e.ownEffect? :=
  rfl

theorem effectAt?_cons (e : Expr) (i : Nat) (p : Place) :
    e.effectAt? (i :: p) = e.children[i]?.bind (effectAt? · p) := by
  rw [effectAt?, nodeAt?, Option.bind_assoc]
  rfl

theorem findSome?_nodesAll (es : List Expr) :
    (nodesAll es).findSome? ownEffect? = es.findSome? effect? := by
  induction es with
  | nil => rfl
  | cons e es ih =>
      rw [nodesAll_cons, List.findSome?_append, ih, List.findSome?_cons, ← effect?]
      cases e.effect? <;> rfl

/-- The effect of an expression is its own, or else that of the first operand with one. -/
theorem effect?_eq (e : Expr) : e.effect? = e.ownEffect?.or (e.children.findSome? effect?) := by
  rw [effect?, nodes_eq, List.findSome?_cons]
  cases e.ownEffect? with
  | some d => rfl
  | none => rw [Option.none_or, findSome?_nodesAll]

/-- The nodes of an expression are what stands at its places. -/
theorem mem_nodes_iff_exists_nodeAt? (X e : Expr) : X ∈ e.nodes ↔ ∃ p, e.nodeAt? p = some X := by
  induction e using induct_children with
  | h e ih =>
      rw [mem_nodes]
      constructor
      · rintro (rfl | h)
        · exact ⟨[], rfl⟩
        · obtain ⟨c, hc, h⟩ := List.mem_flatMap.mp h
          obtain ⟨i, hi⟩ := List.mem_iff_getElem?.mp hc
          obtain ⟨p, hp⟩ := (ih c hc).mp h
          exact ⟨i :: p, by rw [nodeAt?, hi]; exact hp⟩
      · rintro ⟨p, hp⟩
        cases p with
        | nil => exact .inl (Option.some.inj hp).symm
        | cons i p =>
            obtain ⟨c, hi, hp⟩ := Option.bind_eq_some_iff.mp hp
            have hc := List.mem_of_getElem? hi
            exact .inr (List.mem_flatMap.mpr ⟨c, hc, (ih c hc).mpr ⟨p, hp⟩⟩)

theorem effect?_eq_none_iff : e.effect? = none ↔ ∀ p, e.effectAt? p = none := by
  rw [effect?, List.findSome?_eq_none_iff]
  constructor
  · intro h p
    refine Option.eq_none_iff_forall_ne_some.mpr fun d hd => ?_
    obtain ⟨X, hX, hEffect⟩ := Option.bind_eq_some_iff.mp hd
    rw [h X ((mem_nodes_iff_exists_nodeAt? X e).mpr ⟨p, hX⟩)] at hEffect
    cases hEffect
  · intro h X hX
    obtain ⟨p, hp⟩ := (mem_nodes_iff_exists_nodeAt? X e).mp hX
    have hNone := h p
    rwa [effectAt?, hp] at hNone

/-- What is reported is the effect of the first node that has one, evaluated or not. -/
theorem exists_first_of_effect? (h : e.effect? = some d) :
    ∃ p, e.IsFirstEffect (fun _ => True) p d := by
  induction e using induct_children generalizing d with
  | h e ih =>
      rw [effect?_eq] at h
      cases hOwn : e.ownEffect? with
      | some own =>
          rw [hOwn] at h
          exact ⟨[], hOwn.trans h, trivial, fun q _ _ _ => List.not_lt_nil q⟩
      | none =>
          rw [hOwn, Option.none_or] at h
          obtain ⟨before, c, after, hChildren, hEffect, hSilent⟩ := List.findSome?_eq_some_iff.mp h
          have hc : e.children[before.length]? = some c := by
            rw [hChildren]
            simp
          obtain ⟨p, hp, -, hFirst⟩ := ih c (List.mem_of_getElem? hc) hEffect
          refine ⟨before.length :: p,
            by rw [effectAt?_cons, hc]; exact hp, trivial, fun q other hq _ hLess => ?_⟩
          cases q with
          | nil =>
              rw [effectAt?_nil, hOwn] at hq
              cases hq
          | cons j q =>
              rw [effectAt?_cons] at hq
              obtain ⟨c', hc', hq⟩ := Option.bind_eq_some_iff.mp hq
              rcases List.cons_lt_cons_iff.mp hLess with hBefore | ⟨rfl, hInside⟩
              · -- An operand in front of the one that was found has no effect anywhere.
                rw [hChildren, List.getElem?_append_left hBefore] at hc'
                rw [effect?_eq_none_iff.mp (hSilent c' (List.mem_of_getElem? hc')) q] at hq
                cases hq
              · obtain rfl := Option.some.inj (hc.symm.trans hc')
                exact hFirst q other hq trivial hInside

theorem exists_effect?_of_effectAt? (h : e.effectAt? p = some d) : ∃ d', e.effect? = some d' := by
  rw [← Option.isSome_iff_exists, Option.isSome_iff_ne_none]
  intro hNone
  rw [effect?_eq_none_iff.mp hNone p] at h
  cases h

/-- Of the places of a kind, one is the first. -/
theorem IsFirstEffect.eq {kind : Place → Prop} (h : e.IsFirstEffect kind p d)
    (h' : e.IsFirstEffect kind q d') : d = d' := by
  obtain rfl : p = q := by
    rcases lt_trichotomy p q with hLess | hSame | hLess
    · exact absurd hLess (h'.first p d h.hasEffect h.isOfKind)
    · exact hSame
    · exact absurd hLess (h.first q d' h'.hasEffect h'.isOfKind)
  exact Option.some.inj (h.hasEffect.symm.trans h'.hasEffect)

/-- The first node with an effect is evaluated, unless a measured one is in front of all those. -/
theorem isMeasured_first (h : e.IsFirstEffect (fun _ => True) p d) :
    e.isMeasured p = true ↔ e.MeasuresEffectFirst := by
  constructor
  · intro hMeasured
    exact ⟨p, d, h.hasEffect, hMeasured, fun q other hq _ => h.first q other hq trivial⟩
  · rintro ⟨q, other, hq, hMeasured, hNone⟩
    by_contra hEvaluated
    rcases lt_trichotomy p q with hLess | rfl | hLess
    · exact hNone p d h.hasEffect (Bool.not_eq_true _ ▸ hEvaluated) hLess
    · exact hEvaluated hMeasured
    · exact h.first q other hq trivial hLess

/-- If no measured effect is in front, the report is about the first node with an effect that is
evaluated. -/
theorem effect?_eq_some_iff_of_not_measuresEffectFirst (h : ¬ e.MeasuresEffectFirst) :
    e.effect? = some d ↔ ∃ p, e.IsFirstEffect (fun p => e.isMeasured p = false) p d := by
  have hEvaluated : ∀ d, e.effect? = some d → ∃ p, e.IsFirstEffect (fun p => e.isMeasured p = false)
      p d := by
    intro d hEffect
    obtain ⟨p, hFirst⟩ := exists_first_of_effect? hEffect
    have hMeasured : e.isMeasured p = false := Bool.eq_false_iff.mpr fun hMeasured =>
      h ((isMeasured_first hFirst).mp hMeasured)
    exact ⟨p, hFirst.hasEffect, hMeasured, fun q other hq _ => hFirst.first q other hq trivial⟩
  refine ⟨hEvaluated d, fun ⟨p, hFirst⟩ => ?_⟩
  obtain ⟨d', hEffect⟩ := exists_effect?_of_effectAt? hFirst.hasEffect
  obtain ⟨q, hFirst'⟩ := hEvaluated d' hEffect
  rw [hEffect, hFirst.eq hFirst']

/-- What has an effect in the operand of a measure is in an operand that has one as a whole. -/
theorem exists_measure_of_isMeasured (hMeasured : e.isMeasured p = true)
    (hEffect : e.effectAt? p = some d) :
    ∃ X ∈ e.nodes, X.isMeasure = true ∧ ∃ c ∈ X.children, c.effect? ≠ none := by
  induction p generalizing e with
  | nil => cases hMeasured
  | cons i p ih =>
      rw [effectAt?_cons] at hEffect
      obtain ⟨c, hc, hEffect⟩ := Option.bind_eq_some_iff.mp hEffect
      have hMem := List.mem_of_getElem? hc
      simp only [isMeasured, hc, Option.any_some, Bool.or_eq_true] at hMeasured
      rcases hMeasured with hHere | hBelow
      · obtain ⟨d', hOperand⟩ := exists_effect?_of_effectAt? hEffect
        exact ⟨e, mem_nodes_self e, hHere, c, hMem, by simp [hOperand]⟩
      · obtain ⟨X, hX, hMeasure⟩ := ih hBelow hEffect
        exact ⟨X, mem_nodes.mpr (.inr (List.mem_flatMap.mpr ⟨c, hMem, hX⟩)), hMeasure⟩

theorem not_measuresEffectFirst_of_operands
    (h : ∀ X ∈ e.nodes, X.isMeasure = true → ∀ c ∈ X.children, c.effect? = none) :
    ¬ e.MeasuresEffectFirst := by
  rintro ⟨q, d, hEffect, hMeasured, -⟩
  obtain ⟨X, hX, hMeasure, c, hc, hOperand⟩ := exists_measure_of_isMeasured hMeasured hEffect
  exact hOperand (h X hX hMeasure c hc)

/-- Nothing in a measure is evaluated. -/
theorem isMeasured_of_isMeasure (hMeasure : e.isMeasure = true) (hEffect : e.effectAt? p = some d) :
    e.isMeasured p = true := by
  cases p with
  | nil =>
      cases e with
      | measure => cases hEffect
      | _ => cases hMeasure
  | cons i p => simp [isMeasured, hMeasure]

/-- **Side effects.** The report is the effect of the first node that has one among all nodes. It is
that of the first evaluated node with an effect, and there is one only if there is such a node,
unless a node in the operand of a measure has an effect in front of all those; then the report is
the effect of a node in the operand of a measure. -/
theorem effect?_iff_first (e : Expr) :
    (∀ d, e.effect? = some d ↔ ∃ p, e.IsFirstEffect (fun _ => True) p d)
      ∧ (¬ e.MeasuresEffectFirst →
        (e.effect?.isSome = true ↔ ∃ p d, e.effectAt? p = some d ∧ e.isMeasured p = false)
        ∧ ∀ d, e.effect? = some d ↔ ∃ p, e.IsFirstEffect (fun p => e.isMeasured p = false) p d)
      ∧ (e.MeasuresEffectFirst → ∃ p d, e.effect? = some d ∧ e.effectAt? p = some d
        ∧ e.isMeasured p = true) := by
  refine ⟨fun d => ⟨exists_first_of_effect?, fun ⟨p, hFirst⟩ => ?_⟩, fun h => ⟨?_, fun d =>
    effect?_eq_some_iff_of_not_measuresEffectFirst h⟩, fun h => ?_⟩
  · obtain ⟨d', hEffect⟩ := exists_effect?_of_effectAt? hFirst.hasEffect
    obtain ⟨q, hFirst'⟩ := exists_first_of_effect? hEffect
    rw [hEffect, hFirst.eq hFirst']
  · rw [Option.isSome_iff_exists]
    constructor
    · rintro ⟨d, hEffect⟩
      obtain ⟨p, hFirst⟩ := (effect?_eq_some_iff_of_not_measuresEffectFirst h).mp hEffect
      exact ⟨p, d, hFirst.hasEffect, hFirst.isOfKind⟩
    · rintro ⟨p, d, hEffect, -⟩
      exact exists_effect?_of_effectAt? hEffect
  · obtain ⟨q, other, hq, -⟩ := id h
    obtain ⟨d, hEffect⟩ := exists_effect?_of_effectAt? hq
    obtain ⟨p, hFirst⟩ := exists_first_of_effect? hEffect
    exact ⟨p, d, hEffect, hFirst.hasEffect, (isMeasured_first hFirst).mpr h⟩

/-- An increment in a measured operand that is not parsed, and an operand without effects that
is. -/
theorem effect?_iff_first_call :
    ∃ tokens, Token.ofText "f.cpp" "sizeof(x++) + (sizeof y ? f(z--) : w)" = .ok tokens
      ∧ ∃ e, parse tokens = .ok e ∧ ¬ e.MeasuresEffectFirst
        ∧ ∃ p, e.IsFirstEffect (fun p => e.isMeasured p = false) p "function call" := by
  refine Except.exists_of_passes (fun tokens => (parse tokens).passes fun e =>
      decide ((∀ X ∈ e.nodes, X.isMeasure = true → ∀ c ∈ X.children, c.effect? = none)
        ∧ e.effect? = some "function call")) (by decide +kernel) fun tokens _ hTokens => ?_
  refine Except.exists_of_passes _ hTokens fun e _ hTest => ?_
  obtain ⟨hOperands, hEffect⟩ := of_decide_eq_true hTest
  have hNone := not_measuresEffectFirst_of_operands hOperands
  exact ⟨hNone, (((effect?_iff_first e).2.1 hNone).2 "function call").mp hEffect⟩

/-- An increment in a measured operand is reported though nothing is evaluated. -/
theorem exists_effect?_unevaluated :
    ∃ tokens, Token.ofText "f.cpp" "sizeof x++" = .ok tokens
      ∧ ∃ e, parse tokens = .ok e ∧ e.effect? = some "increment/decrement '++'"
        ∧ ¬ ∃ p d, e.effectAt? p = some d ∧ e.isMeasured p = false := by
  refine Except.exists_of_passes (fun tokens => (parse tokens).passes fun e =>
      decide (e.isMeasure = true ∧ e.effect? = some "increment/decrement '++'"))
    (by decide +kernel) fun tokens _ hTokens => ?_
  refine Except.exists_of_passes _ hTokens fun e _ hTest => ?_
  obtain ⟨hMeasure, hEffect⟩ := of_decide_eq_true hTest
  refine ⟨hEffect, fun ⟨p, d, hAt, hEvaluated⟩ => ?_⟩
  rw [isMeasured_of_isMeasure hMeasure hAt] at hEvaluated
  cases hEvaluated

end Demacro.Expr
