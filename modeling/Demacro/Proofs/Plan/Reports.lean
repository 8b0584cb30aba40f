import Demacro.Proofs.Plan.Order

/-!
What becomes of the proposals that are not in a plan. Each is held back, and the report gives a
reason for its macro: it is no candidate or in a conflict, and in a merged plan also that a unit
holds it back or that its copies disagree. The report keeps every other remark it is given.
-/

namespace Demacro.EditPlan

variable {candidates proposals : List Proposal} {report warnings : List ReportEntry}
  {known : List Conflict} {leftovers : List Leftover} {minimum : SafetyTier} {p q : Proposal}
  {entry : ReportEntry} {m : Merging} {merged : EditPlan} {name id : String}

/-- A plan says why the macro is not replaced. -/
def Explains (plan : EditPlan) (name : String) : Prop :=
  ∃ entry ∈ plan.report, entry.macroName = name ∧ entry.reason.isSome = true

instance (plan : EditPlan) (name : String) : Decidable (plan.Explains name) :=
  inferInstanceAs
    (Decidable (∃ entry ∈ plan.report, entry.macroName = name ∧ entry.reason.isSome = true))

theorem mem_report_assemble : entry ∈ (assemble candidates report known).report ↔ entry ∈ report
    ∨ ∃ p ∈ candidates, ∃ other,
      (partners (assemble candidates report known).conflicts).lookup p.id = some other
        ∧ entry = { macroName := p.macroName, reason := some (conflictReason p.id other) } := by
  simp only [assemble, mem_appendNew, List.mem_filterMap, Option.map_eq_some_iff]
  simp only [eq_comm]

/-- A candidate is in the plan or its macro is in the report. -/
theorem explains_assemble (hp : p ∈ candidates) :
    p ∈ (assemble candidates report known).proposals
      ∨ (assemble candidates report known).Explains p.macroName := by
  cases hPartner : (partners (assemble candidates report known).conflicts).lookup p.id with
  | none =>
      have hFree := lookup_eq_none_iff_notMem.mp hPartner
      exact .inl (mem_proposals_assemble hp
        (mem_emitted_assemble.mpr ⟨List.mem_map_of_mem hp, hFree⟩))
  | some other =>
      exact .inr ⟨_, mem_report_assemble.mpr (.inr ⟨p, hp, other, hPartner, rfl⟩), rfl, rfl⟩

theorem mem_withheld_assemble : id ∈ (assemble candidates report known).withheld ↔
    id ∈ involved (assemble candidates report known).conflicts := by
  have hWithheld : (assemble candidates report known).withheld =
      appendNew [] (involved (assemble candidates report known).conflicts) := rfl
  rw [hWithheld, mem_appendNew, or_iff_right List.not_mem_nil]

/-- A proposal of a unit is in its plan or held back. -/
theorem emitted_or_withheld_build (hp : p ∈ proposals) :
    p.id ∈ (build proposals leftovers minimum warnings).emitted
      ∨ p.id ∈ (build proposals leftovers minimum warnings).withheld := by
  cases hRefusal : refusal? minimum p with
  | none =>
      have hCandidate : p ∈ proposals.filter fun p => (refusal? minimum p).isNone :=
        List.mem_filter.mpr ⟨hp, by simp [hRefusal]⟩
      refine (Classical.em _).imp_right fun hNot => mem_appendNew.mpr (.inl ?_)
      rw [mem_withheld_assemble]
      by_contra hFree
      exact hNot (mem_emitted_assemble.mpr ⟨List.mem_map_of_mem hCandidate, hFree⟩)
  | some reason =>
      refine .inr (mem_appendNew.mpr (.inr (List.mem_map_of_mem (List.mem_filter.mpr ⟨hp, ?_⟩))))
      simp [hRefusal]

/-- What is said of a proposal of a unit before any conflict stays in the report of its plan. -/
theorem mem_report_build (hp : p ∈ proposals) (h : entry ∈ proposalEntries minimum p) :
    entry ∈ (build proposals leftovers minimum warnings).report := by
  refine mem_report_assemble.mpr (.inl (mem_appendNew.mpr (.inr ?_)))
  exact List.mem_append_left _ (List.mem_append_right _ (List.mem_flatMap.mpr ⟨p, hp, h⟩))

/-- A proposal of a unit is in its plan or its macro is in the report. -/
theorem explains_build (hp : p ∈ proposals) :
    p ∈ (build proposals leftovers minimum warnings).proposals
      ∨ (build proposals leftovers minimum warnings).Explains p.macroName := by
  cases hRefusal : refusal? minimum p with
  | none => exact explains_assemble (List.mem_filter.mpr ⟨hp, by simp [hRefusal]⟩)
  | some reason =>
      have hSaid : { macroName := p.macroName, reason := some reason }
          ∈ proposalEntries minimum p :=
        List.mem_append_right _ (by simp [hRefusal])
      exact .inr ⟨_, mem_report_build hp hSaid, rfl, rfl⟩

/-- A macro that follows no pattern is in the report if it has a reason. -/
theorem explains_leftover {l : Leftover} (hl : l ∈ leftovers) (hReason : l.reason.isSome = true) :
    (build proposals leftovers minimum warnings).Explains l.macroName := by
  refine ⟨⟨l.macroName, l.reason, none⟩, ?_, rfl, hReason⟩
  refine mem_report_assemble.mpr (.inl (mem_appendNew.mpr (.inr ?_)))
  exact List.mem_append_left _ (List.mem_append_left _ (List.mem_map_of_mem hl))

namespace Merging

/-- A merged plan keeps what the units report, and adds why a proposal is not taken over and which
candidates are in conflicts. -/
theorem mem_report_finish (h : m.finish = .ok merged) : entry ∈ merged.report ↔ entry ∈ m.report
    ∨ (∃ q ∈ m.proposals, ∃ reason, m.refusal? q = .ok (some reason)
      ∧ entry = { macroName := q.macroName, reason := some reason })
    ∨ ∃ q ∈ m.candidates, ∃ other, (partners merged.conflicts).lookup q.id = some other
      ∧ entry = { macroName := q.macroName, reason := some (conflictReason q.id other) } := by
  obtain ⟨judged, hJudged, h⟩ := Except.bind_eq_ok_iff.mp h
  have hForall := Except.mapM_eq_ok_iff.mp hJudged
  have hCandidates := map_fst_filter_judged hForall
  have hJudgment : ∀ q reason, (q, reason) ∈ judged ↔ q ∈ m.proposals
      ∧ m.refusal? q = .ok reason := by
    intro q reason
    constructor
    · intro hMem
      obtain ⟨x, hx, hy⟩ := hForall.exists_left hMem
      obtain ⟨r, hr, hPair⟩ := Except.bind_eq_ok_iff.mp hy
      cases hPair
      exact ⟨hx, hr⟩
    · rintro ⟨hq, hReason⟩
      obtain ⟨y, hMem, hy⟩ := hForall.exists_right hq
      obtain ⟨r, hr, hPair⟩ := Except.bind_eq_ok_iff.mp hy
      cases hPair
      cases hReason.symm.trans hr
      exact hMem
  cases h
  dsimp only
  rw [mem_report_assemble, mem_appendNew, or_assoc, hCandidates]
  refine or_congr_right (or_congr_left ?_)
  simp only [List.mem_map, List.mem_filterMap, Option.map_eq_some_iff]
  constructor
  · rintro ⟨_, ⟨⟨q, _⟩, hMem, reason, rfl, rfl⟩, rfl⟩
    exact ⟨q, ((hJudgment q _).mp hMem).1, reason, ((hJudgment q _).mp hMem).2, rfl⟩
  · rintro ⟨q, hq, reason, hReason, rfl⟩
    exact ⟨(q, reason), ⟨(q, some reason), (hJudgment q _).mpr ⟨hq, hReason⟩, reason, rfl, rfl⟩,
      rfl⟩

/-- No proposal in a merged plan is held back. -/
theorem not_withheld_of_emitted (h : m.finish = .ok merged) (hEmitted : id ∈ merged.emitted) :
    id ∉ merged.withheld := by
  rw [mem_withheld_finish h, not_or]
  refine ⟨?_, fun hNot => hNot.1 hEmitted⟩
  rw [emitted, (finish_eq_ok h).2.1] at hEmitted
  rw [(finish_eq_ok h).2.2]
  exact (mem_emitted_assemble.mp hEmitted).2

/-- No copies of a proposal in a merged plan disagree, and no unit holds it back. -/
theorem not_refused_of_emitted (h : m.finish = .ok merged) (hEmitted : id ∈ merged.emitted) :
    id ∉ m.diverged ∧ id ∉ m.withheld := by
  rw [emitted, (finish_eq_ok h).2.1] at hEmitted
  obtain ⟨q, hq, rfl⟩ := List.mem_map.mp (mem_emitted_assemble.mp hEmitted).1
  obtain ⟨hDiverged, hWithheld, -⟩ := refusal?_eq_none.mp (mem_candidates.mp hq).2
  exact ⟨hDiverged, hWithheld⟩

/-- A proposal that was gathered is in the merged plan or its macro is in the report. -/
theorem explains_finish (h : m.finish = .ok merged) (hq : q ∈ m.proposals) :
    q ∈ merged.proposals ∨ merged.Explains q.macroName := by
  cases hRefusal : m.refusal? q with
  | error fault =>
      obtain ⟨other, hOther⟩ := finish_eq_error_iff.mpr ⟨q, hq, fault, hRefusal⟩
      rw [h] at hOther
      cases hOther
  | ok refusal =>
      cases refusal with
      | some reason =>
          exact .inr ⟨_, (mem_report_finish h).mpr (.inr (.inl ⟨q, hq, reason, hRefusal, rfl⟩)),
            rfl, rfl⟩
      | none =>
          have hCandidate := mem_candidates.mpr ⟨hq, hRefusal⟩
          obtain ⟨_, _, rfl⟩ := exists_assemble_of_finish h
          exact explains_assemble hCandidate

end Merging

end Demacro.EditPlan
