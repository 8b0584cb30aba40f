import Demacro.Proofs.Classification.Questions
import Demacro.Proofs.Plan.Reports
import Demacro.Proofs.Run

/-!
What the diagnostics of a run say of the merged plan. What a unit does not plan it holds back, and
what any unit holds back is not in the merged plan. So an entry says that a macro is replaced
exactly if the plan of all units replaces it.
-/

namespace Demacro

namespace Survey

variable {s : Survey} {name : String} {c : Classification}

/-- A macro that follows no pattern has a reason; one that follows a pattern is classified by its
first live definition. -/
theorem Outcome.refused_or_classified (h : s.Outcome name c) :
    c.isClassified = false ∧ c.reason.isSome = true
      ∨ c.isClassified = true ∧ c.skipped = false
        ∧ ∃ d, s.subject name = .ok d ∧ c.definition = some (s.record d) := by
  cases h with
  | unsuitable | rejected => exact .inl ⟨rfl, rfl⟩
  | constant hSubject => exact .inr ⟨isClassified_constantMacro _ _, rfl, _, hSubject, rfl⟩
  | function hSubject => exact .inr ⟨rfl, rfl, _, hSubject, rfl⟩

/-- A macro that holds nothing to replace has no definition to classify it by. -/
theorem Outcome.exists_refusal_of_skipped (h : s.Outcome name c) (hSkipped : c.skipped = true) :
    ∃ refusal, s.subject name = .error refusal := by
  cases h with
  | unsuitable hSubject => exact ⟨_, hSubject⟩
  | rejected hSubject hSkip => exact absurd (hSkip.symm.trans hSkipped) (by decide)
  | constant | function => cases hSkipped

end Survey

namespace Diagnostic

variable {plan : EditPlan} {d : Diagnostic}

theorem proposal_reconcile : (d.reconcile plan).proposal = d.proposal := by
  unfold reconcile
  split <;> rfl

/-- An entry still says that a macro is replaced unless the plan holds its proposal back. -/
theorem disposition_reconcile_eq_replaced_iff : (d.reconcile plan).disposition = .replaced ↔
    d.disposition = .replaced ∧ ∀ id ∈ d.proposal, id ∉ plan.withheld := by
  have hHeld : d.proposal.any plan.withheld.contains = true ↔
      ∃ id ∈ d.proposal, id ∈ plan.withheld := by
    simp [Option.any_eq_true]
  unfold reconcile
  split
  · rename_i hWithheld
    obtain ⟨id, hId, hMem⟩ := hHeld.mp hWithheld.2
    refine iff_of_false (fun h => nomatch h) fun h => h.2 id hId hMem
  · rename_i hKept
    refine (and_iff_left_of_imp fun hReplaced id hId hMem => ?_).symm
    exact hKept ⟨hReplaced, hHeld.mpr ⟨id, hId, hMem⟩⟩

end Diagnostic

namespace Analysis

variable {parse : List UInt8 → SyntaxNode} {settings : Settings} {u : CompilationUnit}
  {a : Analysis}

theorem diagnostics_eq (h : ofUnit parse settings u = .ok a) :
    a.diagnostics =
    a.classifications.map (Diagnostic.ofClassification u.path a.proposals a.plan) := by
  obtain ⟨classifications, -, h⟩ := Except.bind_eq_ok_iff.mp h
  cases h
  rfl

theorem emitted_or_withheld (h : ofUnit parse settings u = .ok a) {p : Proposal}
    (hp : p ∈ a.proposals) : p.id ∈ a.plan.emitted ∨ p.id ∈ a.plan.withheld := by
  rw [(ofUnit_eq_ok h).2.2.2]
  exact EditPlan.emitted_or_withheld_build hp

/-- There is no proposal for a macro that holds nothing to replace. -/
theorem not_skipped_of_mem_proposals (h : ofUnit parse settings u = .ok a) {p : Proposal}
    (hp : p ∈ a.proposals) {c : Classification} (hc : c ∈ a.classifications)
    (hName : p.macroName = c.name) : c.skipped = false := by
  obtain ⟨other, hOther, hMade⟩ := mem_proposals h hp
  obtain ⟨hClassified, hSame, -⟩ := Proposal.of_ofClassification? hMade
  have hOutcome := (Survey.exists_outcome (ofUnit_eq_ok h).2.1 hc).2
  rcases (Survey.exists_outcome (ofUnit_eq_ok h).2.1 hOther).2.refused_or_classified with hRefused
    | hAccepted
  · rw [hRefused.1] at hClassified
    cases hClassified
  · obtain ⟨-, -, d, hSubject, -⟩ := hAccepted
    rw [← hSame, hName] at hSubject
    by_contra hSkipped
    obtain ⟨refusal, hRefusal⟩ := hOutcome.exists_refusal_of_skipped (by simpa using hSkipped)
    rw [hSubject] at hRefusal
    cases hRefusal

/-- An entry with a proposal is about one of the unit, and says that the macro is replaced exactly
if the plan of the unit has it. -/
theorem replaced_iff_emitted (h : ofUnit parse settings u = .ok a) {d : Diagnostic}
    (hd : d ∈ a.diagnostics) {id : String} (hId : id ∈ d.proposal) :
    (∃ p ∈ a.proposals, p.id = id) ∧ (d.disposition = .replaced ↔ id ∈ a.plan.emitted) := by
  rw [diagnostics_eq h] at hd
  obtain ⟨c, hc, rfl⟩ := List.mem_map.mp hd
  obtain ⟨p, hp, rfl⟩ := Option.map_eq_some_iff.mp hId
  obtain ⟨hMem, hName⟩ := List.mem_filter.mp (List.mem_of_getLast? hp)
  refine ⟨⟨p, hMem, rfl⟩, ?_⟩
  have hSkipped := not_skipped_of_mem_proposals h hMem hc (by simpa using hName)
  have hDisposition : (Diagnostic.ofClassification u.path a.proposals a.plan c).disposition =
      if a.plan.emitted.contains p.id then .replaced else .reportedOnly := by
    simp only [Diagnostic.ofClassification, Diagnostic.disposition?, hSkipped, hp, Option.any_some]
    rfl
  rw [hDisposition, ← List.contains_iff_mem]
  split
  · rename_i hEmitted
    exact iff_of_true rfl hEmitted
  · rename_i hNot
    exact iff_of_false (fun h => nomatch h) hNot

end Analysis

namespace Run

variable {parse : List UInt8 → SyntaxNode} {settings : Settings}
  {read : String → Except AccessFault (List UInt8)} {paths : List String} {r : Run} {a : Analysis}
  {id : String}

theorem diagnostics_eq (h : ofPaths parse settings read paths = .ok r) :
    r.diagnostics = (analyses parse settings read paths).flatMap fun a =>
      a.diagnostics.map (Diagnostic.reconcile r.plan) := by
  obtain ⟨plan, hPlan, h⟩ := Except.bind_eq_ok_iff.mp h
  cases h
  rfl

/-- What a unit plans is in the merged plan, or held back by it. -/
theorem emitted_iff_not_withheld (h : ofPaths parse settings read paths = .ok r)
    (ha : a ∈ analyses parse settings read paths) (hId : id ∈ a.plan.emitted) :
    id ∈ r.plan.emitted ↔ id ∉ r.plan.withheld := by
  refine ⟨EditPlan.Merging.not_withheld_of_emitted (ofPaths_eq_ok h), fun hNot => ?_⟩
  by_contra hOut
  refine hNot ((EditPlan.Merging.mem_withheld_finish (ofPaths_eq_ok h)).mpr
    (.inr ⟨hOut, .inr (.inr ?_)⟩))
  exact EditPlan.mem_gathered_ids.mpr ⟨a.plan, List.mem_map_of_mem ha, hId⟩

/-- What a unit holds back is not in the merged plan. -/
theorem not_emitted_of_withheld (h : ofPaths parse settings read paths = .ok r)
    (ha : a ∈ analyses parse settings read paths) (hId : id ∈ a.plan.withheld) :
    id ∉ r.plan.emitted := by
  intro hEmitted
  refine (EditPlan.Merging.not_refused_of_emitted (ofPaths_eq_ok h) hEmitted).2 ?_
  exact EditPlan.mem_gathered_withheld.mpr ⟨a.plan, List.mem_map_of_mem ha, hId⟩

/-- An entry with a proposal says that the macro is replaced exactly if the proposal is in the
merged plan. No proposal is in that plan and held back by it, and each that a unit plans is one of
the two. -/
theorem diagnostics_truthful (h : ofPaths parse settings read paths = .ok r) :
    (∀ d ∈ r.diagnostics, ∀ id ∈ d.proposal, d.disposition = .replaced ↔ id ∈ r.plan.emitted)
      ∧ (∀ id ∈ r.plan.emitted, id ∉ r.plan.withheld)
      ∧ ∀ a ∈ analyses parse settings read paths, ∀ id ∈ a.plan.emitted,
        (id ∈ r.plan.emitted ↔ id ∉ r.plan.withheld) := by
  refine ⟨fun d hd id hId => ?_, fun id => EditPlan.Merging.not_withheld_of_emitted
    (ofPaths_eq_ok h), fun a ha id hId => emitted_iff_not_withheld h ha hId⟩
  rw [diagnostics_eq h] at hd
  obtain ⟨a, ha, hd⟩ := List.mem_flatMap.mp hd
  obtain ⟨own, hOwn, rfl⟩ := List.mem_map.mp hd
  rw [Diagnostic.proposal_reconcile] at hId
  have hUnit := ofUnit_of_mem_analyses ha
  obtain ⟨⟨p, hp, rfl⟩, hReplaced⟩ := Analysis.replaced_iff_emitted hUnit hOwn hId
  have hOnly : (∀ id ∈ own.proposal, id ∉ r.plan.withheld) ↔ p.id ∉ r.plan.withheld := by
    rw [Option.mem_def.mp hId]
    simp
  rw [Diagnostic.disposition_reconcile_eq_replaced_iff, hReplaced, hOnly]
  constructor
  · rintro ⟨hPlanned, hNot⟩
    exact (emitted_iff_not_withheld h ha hPlanned).mpr hNot
  · intro hEmitted
    refine ⟨?_, EditPlan.Merging.not_withheld_of_emitted (ofPaths_eq_ok h) hEmitted⟩
    exact (Analysis.emitted_or_withheld hUnit hp).resolve_right fun hHeld =>
      not_emitted_of_withheld h ha hHeld hEmitted

/-- In one unit the macro is replaced, another one cannot classify it, and the entries of both say
so. -/
theorem diagnostics_truthful_sharedHeader :
    ∃ r, ofPaths .scopeless {} (readFrom sharedHeader) ["u.cpp", "v.cpp"] = .ok r
      ∧ (∃ d ∈ r.diagnostics, d.proposal = some "a.h::N::SimpleConstant::L1"
        ∧ d.disposition ≠ .replaced)
      ∧ "a.h::N::SimpleConstant::L1" ∈ r.plan.withheld
      ∧ (∀ d ∈ r.diagnostics, ∀ id ∈ d.proposal, d.disposition = .replaced ↔ id ∈ r.plan.emitted)
      ∧ ∀ id ∈ r.plan.emitted, id ∉ r.plan.withheld := by
  refine Except.exists_of_passes (fun r => decide
    ((∃ d ∈ r.diagnostics, d.proposal = some "a.h::N::SimpleConstant::L1"
      ∧ d.disposition ≠ .replaced)
      ∧ "a.h::N::SimpleConstant::L1" ∈ r.plan.withheld)) (by decide +kernel) fun r h hTest => ?_
  obtain ⟨hReported, hWithheld⟩ := of_decide_eq_true hTest
  obtain ⟨hReplaced, hApart, -⟩ := diagnostics_truthful h
  exact ⟨hReported, hWithheld, hReplaced, hApart⟩

end Run

end Demacro
