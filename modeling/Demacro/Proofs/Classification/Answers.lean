import Demacro.Classification.OfSurvey
import Demacro.Proofs.Lists
import Demacro.Proofs.Constant.Resolving

/-!
Folding a replacement with answers for its names. Every question is for another name of the
replacement, so the questions end before the bound on them does, and an answer that is a fault is
the last one.
-/

namespace Demacro

/-- The text of a name. -/
def Expr.name? : Expr → Option String
  | name _ text => some text
  | _ => none

/-- The fault with the question for `name` answered by `e`. -/
def FoldError.answer (name : String) (e : FoldError) : FoldError → FoldError
  | needs text => if text = name then e else needs text
  | fault => fault

variable {s : Survey} {name : String} {body : Expr}

namespace Survey

/-- What names stand for: the answer if there is one, and the question otherwise. -/
abbrev answered (known : List (String × Except FoldError Folded)) : Resolver :=
  fun name => (known.lookup name).getD (.error (.needs name))

/-- Answers for names of an expression, each name once. -/
structure Resolved (body : Expr) (known : List (String × Except FoldError Folded)) : Prop where
  nodup : (known.map Prod.fst).Nodup
  occurs : ∀ name ∈ known.map Prod.fst, ∃ range, Expr.name range name ∈ body.nodes
  settled : ∀ p ∈ known, ∀ name, Constant.Independent name p.2

variable {known : List (String × Except FoldError Folded)}

theorem resolved_nil : Resolved body [] :=
  ⟨List.nodup_nil, by simp, by simp⟩

/-- There are no more answers than nodes. -/
theorem Resolved.length_le (h : Resolved body known) : known.length ≤ body.nodes.length := by
  have hSubset : known.map Prod.fst ⊆ body.nodes.filterMap Expr.name? := by
    intro name hName
    obtain ⟨range, hNode⟩ := h.occurs name hName
    exact List.mem_filterMap.mpr ⟨_, hNode, rfl⟩
  calc known.length = (known.map Prod.fst).length := (List.length_map _).symm
    _ ≤ (body.nodes.filterMap Expr.name?).length := h.nodup.length_le_of_subset hSubset
    _ ≤ body.nodes.length := List.length_filterMap_le _ _

/-- A name that is still needed is one of the expression, and there is no answer for it. -/
theorem Resolved.of_needs (h : Resolved body known)
    (hNeeds : Constant.fold (some (answered known)) body = .error (.needs name)) :
    name ∉ known.map Prod.fst ∧ ∃ range, Expr.name range name ∈ body.nodes := by
  have hAnswered : ∀ text, ¬ Constant.Independent name (answered known text) →
      text = name ∧ text ∉ known.map Prod.fst := by
    intro text hText
    cases hLookup : known.lookup text with
    | none =>
        refine ⟨?_, lookup_eq_none_iff_notMem.mp hLookup⟩
        by_contra hNe
        refine hText fun hEq => hNe ?_
        simpa [answered, hLookup] using hEq
    | some v =>
        obtain ⟨before, after, rfl, -⟩ := List.lookup_eq_some_iff.mp hLookup
        refine absurd ?_ hText
        simpa [answered, hLookup] using h.settled (text, v) (by simp) name
  by_contra hNone
  refine Constant.independent_fold body (fun range text hNode => ?_) hNeeds
  by_contra hText
  obtain ⟨rfl, hNew⟩ := hAnswered text hText
  exact hNone ⟨hNew, range, hNode⟩

theorem Resolved.append (h : Resolved body known) (value : Except FoldError Folded)
    (hNeeds : Constant.fold (some (answered known)) body = .error (.needs name))
    (hValue : ∀ name, Constant.Independent name value) :
    Resolved body (known ++ [(name, value)]) := by
  obtain ⟨hNew, range, hNode⟩ := h.of_needs hNeeds
  refine ⟨?_, ?_, ?_⟩
  · rw [List.map_append]
    exact h.nodup.append (List.nodup_singleton _) (by simpa using hNew)
  · intro text hText
    rw [List.map_append, List.mem_append] at hText
    rcases hText with hText | hText
    · exact h.occurs text hText
    · rw [List.mem_singleton.mp hText]
      exact ⟨range, hNode⟩
  · intro p hp
    rcases List.mem_append.mp hp with hp | hp
    · exact h.settled p hp
    · rw [List.mem_singleton.mp hp]
      exact hValue

/-- An answer that is a fault is that of the expression. -/
theorem Resolved.fold_append_error (h : Resolved body known) {e : FoldError}
    (hNeeds : Constant.fold (some (answered known)) body = .error (.needs name)) :
    Constant.fold (some (answered (known ++ [(name, .error e)]))) body = .error e := by
  have hg : ∀ fault : FoldError, (∀ text, fault ≠ .needs text) →
      FoldError.answer name e fault = fault := by
    intro fault hFault
    cases fault with
    | needs text => exact absurd rfl (hFault text)
    | _ => rfl
  have hResolve : answered (known ++ [(name, .error e)])
      = fun text => (answered known text).mapError (FoldError.answer name e) := by
    funext text
    unfold answered
    rw [List.lookup_append]
    cases hLookup : known.lookup text with
    | none =>
        by_cases hText : text = name
        · simp [hText, FoldError.answer, Except.mapError]
        · simp [hText, FoldError.answer, Except.mapError, List.lookup_cons,
            beq_eq_false_iff_ne.mpr hText]
    | some v =>
        obtain ⟨before, after, rfl, -⟩ := List.lookup_eq_some_iff.mp hLookup
        have hSettled := h.settled (text, v) (by simp)
        cases v with
        | ok f => rfl
        | error fault =>
            exact congrArg Except.error
              (hg fault fun other hOther => hSettled other (congrArg _ hOther)).symm
  rw [hResolve, Constant.fold_mapError hg, hNeeds]
  simp [Except.mapError, FoldError.answer]

theorem independent_referenceValue (c : Classification) (name : String) :
    Constant.Independent name (referenceValue c) := by
  unfold Constant.Independent referenceValue
  grind

theorem referenceValue_of_unclassified {c : Classification} (h : ¬ c.isClassified) :
    ∃ other reason, referenceValue c = .error (.dependency other reason) := by
  unfold referenceValue
  exact ⟨_, _, if_pos (by simpa using h)⟩

theorem foldAsking_of_needs {ask : String → Classifying Classification} {budget : Nat}
    (hNeeds : Constant.fold (some (answered known)) body = .error (.needs name)) :
    s.foldAsking ask body (budget + 1) known =
      if s.isLive name then
        ask name >>= fun c => s.foldAsking ask body budget (known ++ [(name, referenceValue c)])
      else s.foldAsking ask body budget (known ++ [(name, .error (.foreignName name))]) := by
  rw [foldAsking, hNeeds]
  dsimp only [valueOf]
  split <;> simp

/-- Once a name stands for a fault, nothing more is asked. -/
theorem Resolved.foldAsking_append_error (h : Resolved body known) {e : FoldError}
    (hNeeds : Constant.fold (some (answered known)) body = .error (.needs name))
    (he : ∀ other, e ≠ .needs other) (ask : String → Classifying Classification) (budget : Nat) :
    s.foldAsking ask body (budget + 1) (known ++ [(name, .error e)]) = pure (.error e) := by
  rw [foldAsking, h.fold_append_error hNeeds]
  cases e with
  | needs other => exact absurd rfl (he other)
  | _ => rfl

/-- More questions than there are nodes are never asked. -/
theorem Resolved.foldAsking_succ (h : Resolved body known) {budget : Nat}
    (hBudget : body.nodes.length < budget + known.length)
    (ask : String → Classifying Classification) :
    s.foldAsking ask body (budget + 1) known = s.foldAsking ask body budget known := by
  induction budget generalizing known with
  | zero => exact absurd hBudget (by simpa using h.length_le)
  | succ budget ih =>
      have hNext : ∀ {name} (value : Except FoldError Folded),
          Constant.fold (some (answered known)) body = .error (.needs name) →
          (∀ other, Constant.Independent other value) →
          s.foldAsking ask body (budget + 1) (known ++ [(name, value)])
            = s.foldAsking ask body budget (known ++ [(name, value)]) := by
        intro name value hNeeds hValue
        refine ih (h.append value hNeeds hValue) ?_
        rw [List.length_append, List.length_singleton]
        omega
      cases hFold : Constant.fold (some (answered known)) body with
      | ok f => rw [foldAsking, foldAsking, hFold]
      | error e =>
          cases e with
          | needs name =>
              rw [foldAsking_of_needs hFold, foldAsking_of_needs hFold]
              simp only [hNext _ hFold (independent_referenceValue _),
                hNext (.error (.foreignName name)) hFold (by rintro _ ⟨⟩)]
          | _ => rw [foldAsking, foldAsking, hFold]

end Survey

end Demacro
