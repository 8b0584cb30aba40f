import Demacro.Proofs.Constant.Range
import Mathlib.Data.List.Forall2

/-!
How sure folded constants are. What folding knows comes from the literals, measures and names at the
ends of an expression, and an operator takes over what was assumed for each of its operands. The
main result is that a constant is as sure as the least sure of all values that were read, and rests
on the evidence of all of them.
-/

namespace Demacro

namespace Folded

/-- The confidence is that of the least sure of the constants. -/
def IsWeakest (confidence : Confidence) (fs : List Folded) : Prop :=
  (∀ f ∈ fs, confidence.rank ≤ f.confidence.rank) ∧ ∃ f ∈ fs, f.confidence = confidence

/-- The evidence of some constants, one after the other. -/
def evidenceOf (fs : List Folded) : List String :=
  fs.flatMap (·.evidence)

/-- A constant is as sure as the least sure of the values that were read for it, and rests on the
evidence of all of them. Evidence that one value repeats may still be repeated. -/
structure RestsOn (f : Folded) (values : List Folded) : Prop where
  weakest : IsWeakest f.confidence values
  evidence : f.evidence.eraseDups = (evidenceOf values).eraseDups
  nodup : (∀ v ∈ values, v.evidence.Nodup) → f.evidence.Nodup

end Folded

namespace Constant

/-- The parts of an expression whose values are read and not computed, in the order in which they
stand. -/
def sources : Expr → List Expr
  | .paren _ e | .unary _ _ e | .cast _ _ e => sources e
  | .binary _ _ left right => sources left ++ sources right
  | .conditional _ condition whenTrue whenFalse =>
      sources condition ++ sources whenTrue ++ sources whenFalse
  | e => [e]

/-- The value of a part is read: from its spelling, from what its name stands for, or, for a
measure, as one that the target decides. -/
inductive Reads (resolve : Option Resolver) : Expr → Folded → Prop where
  | literal (h : ofLiteral tokens = .ok f) : Reads resolve (.literal r tokens) f
  | name (h : ofName resolve text = .ok f) : Reads resolve (.name r text) f
  | measure : Reads resolve (.measure r keyword operand)
      ⟨.integral .size none, .medium, [keyword ++ " result depends on the target"]⟩

end Constant

theorem Confidence.rank_lower (a b : Confidence) : (a.lower b).rank = min a.rank b.rank :=
  apply_ite rank _ _ _

theorem Confidence.lower_eq (a b : Confidence) : a.lower b = a ∨ a.lower b = b := by
  unfold lower
  split
  · exact .inl rfl
  · exact .inr rfl

namespace Folded

variable {f g : Folded} {fs values values' : List Folded} {c : Constant} {confidence : Confidence}

@[simp]
theorem evidenceOf_append :
    evidenceOf (values ++ values') = evidenceOf values ++ evidenceOf values' :=
  List.flatMap_append

/-- One more operand leaves the weakest confidence. -/
theorem IsWeakest.withOperand (h : IsWeakest f.confidence fs) (g : Folded) :
    IsWeakest (f.withOperand g).confidence (fs ++ [g]) := by
  have hRank : (f.withOperand g).confidence.rank = min f.confidence.rank g.confidence.rank :=
    Confidence.rank_lower _ _
  constructor
  · intro x hx
    rw [hRank]
    rcases List.mem_append.mp hx with hOld | hNew
    · exact (min_le_left _ _).trans (h.1 x hOld)
    · rw [List.mem_singleton.mp hNew]
      exact min_le_right _ _
  · rcases Confidence.lower_eq f.confidence g.confidence with hSame | hSame
    · obtain ⟨x, hx, hWeak⟩ := h.2
      exact ⟨x, List.mem_append_left _ hx, hWeak.trans hSame.symm⟩
    · exact ⟨g, List.mem_append_right _ (List.mem_singleton_self g), hSame.symm⟩

theorem isWeakest_foldl (h : IsWeakest f.confidence fs) (gs : List Folded) :
    IsWeakest (gs.foldl withOperand f).confidence (fs ++ gs) := by
  induction gs generalizing f fs with
  | nil => simpa using h
  | cons g gs ih => simpa using ih (h.withOperand g)

/-- The confidence of what is computed from operands. The constant that enters is sure, and so it
never counts. -/
theorem isWeakest_ofOperands (c : Constant) (gs : List Folded) (hSome : gs ≠ []) :
    IsWeakest (ofOperands c gs).confidence gs := by
  obtain ⟨g, gs, rfl⟩ := List.exists_cons_of_ne_nil hSome
  have hFirst : (withOperand ⟨c, .high, []⟩ g).confidence = g.confidence := by
    cases hLevel : g.confidence <;> simp [withOperand, hLevel, Confidence.lower, Confidence.rank]
  have hOne : IsWeakest (withOperand ⟨c, .high, []⟩ g).confidence [g] :=
    ⟨by simp [hFirst], g, List.mem_singleton_self g, hFirst.symm⟩
  exact isWeakest_foldl hOne gs

theorem foldl_withOperand_evidence (f : Folded) (gs : List Folded) :
    (gs.foldl withOperand f).evidence = appendNew f.evidence (evidenceOf gs) := by
  induction gs generalizing f with
  | nil => rfl
  | cons g gs ih =>
      rw [List.foldl_cons, ih]
      exact appendNew_append.symm

/-- The evidence of what is computed from operands. -/
theorem ofOperands_evidence (c : Constant) (gs : List Folded) :
    (ofOperands c gs).evidence = (evidenceOf gs).eraseDups := by
  rw [ofOperands, foldl_withOperand_evidence, appendNew_eq_append, List.nil_append, List.removeAll]
  simp

/-- What is computed from operands rests on all values that the operands rest on. -/
theorem RestsOn.ofOperands (c : Constant) (operands : List (Folded × List Folded))
    (hSome : operands ≠ []) (h : ∀ x ∈ operands, x.1.RestsOn x.2) :
    (ofOperands c (operands.map Prod.fst)).RestsOn (operands.flatMap Prod.snd) where
  weakest := by
    have hWeakest := isWeakest_ofOperands c (operands.map Prod.fst) (by simpa using hSome)
    constructor
    · intro v hv
      obtain ⟨y, hy, hv⟩ := List.mem_flatMap.mp hv
      exact (hWeakest.1 y.1 (List.mem_map_of_mem hy)).trans ((h y hy).weakest.1 v hv)
    · obtain ⟨g, hg, hSame⟩ := hWeakest.2
      obtain ⟨y, hy, rfl⟩ := List.mem_map.mp hg
      obtain ⟨v, hv, hLevel⟩ := (h y hy).weakest.2
      exact ⟨v, List.mem_flatMap.mpr ⟨y, hy, hv⟩, hLevel.trans hSame⟩
  evidence := by
    rw [ofOperands_evidence, eraseDups_of_nodup (nodup_eraseDups _)]
    clear hSome
    induction operands with
    | nil => rfl
    | cons x operands ih =>
        obtain ⟨hFirst, hRest⟩ := List.forall_mem_cons.mp h
        rw [List.map_cons, List.flatMap_cons, evidenceOf_append]
        exact eraseDups_append_congr hFirst.evidence (ih hRest)
  nodup _ := by
    rw [ofOperands_evidence]
    exact nodup_eraseDups _

end Folded

namespace Constant

section

variable {resolve : Option Resolver} {e : Expr} {f : Folded}

/-- A value that is read rests on itself. -/
theorem restsOn_of_reads (f : Folded) : f.RestsOn [f] where
  weakest := by simp [Folded.IsWeakest]
  evidence := by simp [Folded.evidenceOf]
  nodup h := h f (List.mem_singleton_self f)

/-- Every node hands on what was assumed below it, also for a part whose value is not needed. -/
theorem exists_restsOn_of_fold (h : fold resolve e = .ok f) :
    ∃ values, List.Forall₂ (Reads resolve) (sources e) values ∧ f.RestsOn values := by
  fun_induction fold resolve e generalizing f with
  | case1 range tokens => exact ⟨[f], .cons (.literal h) .nil, restsOn_of_reads f⟩
  | case2 range text => exact ⟨[f], .cons (.name h) .nil, restsOn_of_reads f⟩
  | case3 range e ih => exact ih h
  | case4 range keyword =>
      cases h
      exact ⟨_, .cons .measure .nil, restsOn_of_reads _⟩
  | case5 | case6 | case7 => cases h
  | case8 range op e hStep hDereference hAddress ih =>
      obtain ⟨g, hOperand, h⟩ := Except.bind_eq_ok_iff.mp h
      obtain ⟨c, -, rfl⟩ := ofOperands_eq_ok (needArithmetic_bind_eq_ok h)
      obtain ⟨values, hReads, hRests⟩ := ih hOperand
      exact ⟨values, hReads, by simpa using Folded.RestsOn.ofOperands c [(g, values)] (by simp) (by
        simpa using hRests)⟩
  | case9 range type e words =>
      rename_i ih
      obtain ⟨t, -, h⟩ := Except.bind_eq_ok_iff.mp h
      obtain ⟨g, hOperand, h⟩ := Except.bind_eq_ok_iff.mp h
      obtain ⟨c, -, rfl⟩ := ofOperands_eq_ok (needArithmetic_bind_eq_ok h)
      obtain ⟨values, hReads, hRests⟩ := ih hOperand
      exact ⟨values, hReads, by simpa using Folded.RestsOn.ofOperands c [(g, values)] (by simp) (by
        simpa using hRests)⟩
  | case10 range op left right ihLeft ihRight =>
      obtain ⟨g, g', c, hLeft, hRight, -, rfl⟩ := fold_binary_eq_ok (r := range) h
      obtain ⟨values, hReads, hRests⟩ := ihLeft hLeft
      obtain ⟨values', hReads', hRests'⟩ := ihRight hRight
      refine ⟨values ++ values', List.rel_append hReads hReads', ?_⟩
      simpa using Folded.RestsOn.ofOperands c [(g, values), (g', values')] (by simp)
        (by simpa using ⟨hRests, hRests'⟩)
  | case11 range condition whenTrue whenFalse ihCondition ihTrue ihFalse =>
      obtain ⟨k, g, g', c, hCondition, hTrue, hFalse, -, rfl⟩ :=
        fold_conditional_eq_ok (r := range) h
      obtain ⟨known, hReads, hRests⟩ := ihCondition hCondition
      obtain ⟨values, hReads', hRests'⟩ := ihTrue hTrue
      obtain ⟨values', hReads'', hRests''⟩ := ihFalse hFalse
      refine ⟨known ++ values ++ values', List.rel_append (List.rel_append hReads hReads') hReads'',
        ?_⟩
      simpa using Folded.RestsOn.ofOperands c [(k, known), (g, values), (g', values')] (by simp)
        (by simpa using ⟨hRests, hRests', hRests''⟩)
  | _ => cases h

/-- A constant is as sure as the least sure of the values that are read anywhere in the expression.
If none of them repeats its own evidence, then its evidence is that of all of them, each item once,
in the order in which the items come first. -/
theorem certainty_of_fold (h : fold resolve e = .ok f) :
    ∃ values, List.Forall₂ (Reads resolve) (sources e) values
      ∧ Folded.IsWeakest f.confidence values
      ∧ ((∀ v ∈ values, v.evidence.Nodup) → f.evidence = (Folded.evidenceOf values).eraseDups) := by
  obtain ⟨values, hReads, hRests⟩ := exists_restsOn_of_fold h
  refine ⟨values, hReads, hRests.weakest, fun hOnce => ?_⟩
  calc
    f.evidence = f.evidence.eraseDups := (eraseDups_of_nodup (hRests.nodup hOnce)).symm
    _ = (Folded.evidenceOf values).eraseDups := hRests.evidence

/-- A branch that is not taken counts as well, and a name that comes twice counts once. -/
theorem certainty_of_fold_untaken :
    let resolve : Option Resolver := some fun _ => .ok ⟨.integral .int (some 3), .high, ["assumed"]⟩
    ∃ tokens, Token.ofText "f.cpp" "N ? N + 1 : sizeof N" = .ok tokens
    ∧ ∃ e, Expr.parse tokens = .ok e
      ∧ ∃ f, fold resolve e = .ok f
        ∧ f.confidence = .medium ∧ f.evidence = ["assumed", "sizeof result depends on the target"]
        ∧ ∃ values, List.Forall₂ (Reads resolve) (sources e) values
          ∧ Folded.IsWeakest f.confidence values
          ∧ ((∀ v ∈ values, v.evidence.Nodup) →
            f.evidence = (Folded.evidenceOf values).eraseDups) := by
  intro resolve
  refine Except.exists_of_passes (fun tokens => (Expr.parse tokens).passes fun e =>
    (fold resolve e).passes fun f => f.confidence == .medium
      && f.evidence == ["assumed", "sizeof result depends on the target"]) (by decide +kernel) ?_
  intro tokens _ hTokens
  refine Except.exists_of_passes _ hTokens fun e _ hTest => ?_
  refine Except.exists_of_passes _ hTest fun f hFold hKnown => ?_
  rw [Bool.and_eq_true, beq_iff_eq, beq_iff_eq] at hKnown
  exact ⟨hKnown.1, hKnown.2, certainty_of_fold hFold⟩

end

end Constant

end Demacro
