import Demacro.Proofs.Plan.Reports

/-!
What merging makes of the copies of one proposal. Where two copies disagree, the proposal is held
back. Where none do, the merged plan does not say that they differ, and if the proposal is in it,
then with the changes of all copies and as safe as the least safe of them. This needs that the
copies ask for the same change the same number of times, as the comparison goes by the number of
edits.
-/

namespace Demacro.EditPlan

variable {plans : List EditPlan} {merged : EditPlan} {m : Merging} {p q : Proposal} {id : String}

/-- What is said of a proposal with copies that disagree. -/
def differing : Text :=
  "differing proposals for the same definition across translation units"

namespace Merging

theorem mem_diverged_of_refusal? (h : m.refusal? p = .ok (some differing)) : p.id ∈ m.diverged := by
  unfold refusal? at h
  split at h
  · rename_i hDiverged
    exact List.contains_iff_mem.mp hDiverged
  split at h
  · exact absurd (Option.some.inj (Except.ok.inj h)) (by decide)
  · obtain ⟨parsed, -, h⟩ := Except.bind_eq_ok_iff.mp h
    obtain ⟨why, -, hWhy⟩ := Option.map_eq_some_iff.mp (Except.ok.inj h)
    cases hWhy

theorem conflictReason_ne_differing (id other : String) :
    Text.ofString (conflictReason id other) ≠ differing := by
  unfold conflictReason
  split
  · decide
  · intro h
    rw [Text.ofString, String.toList_append] at h
    cases h

/-- A proposal of which copies disagree is held back. -/
theorem withheld_of_diverged (h : m.finish = .ok merged) (hDiverged : id ∈ m.diverged) :
    id ∉ merged.emitted ∧ id ∈ merged.withheld := by
  have hNot : id ∉ merged.emitted := fun hEmitted => (not_refused_of_emitted h hEmitted).1 hDiverged
  exact ⟨hNot, (mem_withheld_finish h).mpr (.inr ⟨hNot, .inr (.inl hDiverged)⟩)⟩

end Merging

/-- No plan holds the proposal back or blocks its definition. -/
structure Unopposed (plans : List EditPlan) (id : String) : Prop where
  withheld : ∀ plan ∈ plans, id ∉ plan.withheld
  blocked : ∀ parsed, ProposalId.parse id = .ok parsed →
    ∀ plan ∈ plans, ⟨parsed.path, parsed.macroName, parsed.line⟩ ∉ plan.blockedSites

/-- What a merged plan makes of the copies of a proposal that agree. -/
structure UnitesCopies (plans : List EditPlan) (id : String) (merged : EditPlan) : Prop where
  /-- It does not say that they differ: only the units do, or it is another proposal that is held
  back. -/
  unreported : ∀ entry ∈ merged.report, entry.reason = some differing →
    (∃ plan ∈ plans, entry ∈ plan.report)
      ∨ ∃ q ∈ copies plans, q.id ≠ id ∧ q.id ∈ merged.withheld ∧ q.macroName = entry.macroName
  /-- Only a conflict keeps the proposal out. -/
  emitted_iff : id ∈ merged.emitted ↔
    (∃ p ∈ copies plans, p.id = id) ∧ id ∉ involved merged.conflicts
  /-- It asks for the changes of all copies. -/
  asks : ∀ q ∈ merged.proposals, q.id = id → ∀ c, q.Asks c ↔ ∃ p ∈ copiesOf plans id, p.Asks c
  /-- It is as safe as the least safe copy. -/
  weakest : ∀ q ∈ merged.proposals, q.id = id → (∃ p ∈ copiesOf plans id, p.tier = q.tier)
    ∧ ∀ p ∈ copiesOf plans id, q.tier.rank ≤ p.tier.rank

/-- If a merge succeeds, a proposal that nothing speaks against has a well-formed identifier. -/
theorem exists_parse_of_merge (hMerge : merge plans = .ok merged) (hUnopposed : Unopposed plans id)
    (hAgree : id ∉ (gathered plans).diverged) (hq : q ∈ (gathered plans).proposals)
    (hId : q.id = id) : ∃ parsed, ProposalId.parse id = .ok parsed := by
  cases hParse : ProposalId.parse id with
  | ok parsed => exact ⟨parsed, rfl⟩
  | error fault =>
      subst hId
      have hWithheld : q.id ∉ (gathered plans).withheld := by
        rw [mem_gathered_withheld]
        rintro ⟨plan, hPlan, hWithheld⟩
        exact hUnopposed.withheld plan hPlan hWithheld
      have hRefusal := Merging.exists_refusal?_eq_error.mpr ⟨hAgree, hWithheld, fault, hParse⟩
      obtain ⟨other, hOther⟩ := Merging.finish_eq_error_iff.mpr ⟨q, hq, hRefusal⟩
      cases hOther.symm.trans hMerge

/-- What is gathered of copies that agree goes into the merged plan unchanged. -/
theorem unitesCopies_of_merge (hMerge : merge plans = .ok merged) (hUnopposed : Unopposed plans id)
    (hUnites : (gathered plans).Unites id (copiesOf plans id))
    (hAgree : id ∉ (gathered plans).diverged) : UnitesCopies plans id merged := by
  have hFinish : (gathered plans).finish = .ok merged := hMerge
  obtain ⟨-, hProposals, hConflicts⟩ := Merging.finish_eq_ok hFinish
  have hGathered : ∀ q ∈ merged.proposals, q ∈ (gathered plans).proposals := by
    intro q hq
    rw [hProposals] at hq
    exact (Merging.mem_candidates.mp (List.mem_filter.mp hq).1).1
  refine ⟨fun entry hEntry hDiffering => ?_, ?_, fun q hq hId => hUnites.asks q
    (hGathered q hq) hId hAgree, fun q hq hId => hUnites.weakest q (hGathered q hq) hId hAgree⟩
  · rcases (Merging.mem_report_finish hFinish).mp hEntry with hUnit | ⟨q, hq, reason, hReason, rfl⟩
      | ⟨q, -, other, -, rfl⟩
    · exact .inl (mem_gathered_report.mp hUnit)
    · obtain rfl := Option.some.inj hDiffering
      have hDiverged := Merging.mem_diverged_of_refusal? hReason
      obtain ⟨p, hp, hId, hName⟩ := (gathered_gathers plans).named q hq
      refine .inr ⟨p, hp, ?_, ?_, hName⟩
      · rintro rfl
        exact hAgree (hId ▸ hDiverged)
      · exact hId ▸ (Merging.withheld_of_diverged hFinish hDiverged).2
    · exact absurd (Option.some.inj hDiffering) (Merging.conflictReason_ne_differing _ _)
  · rw [emitted, hProposals, ← emitted, mem_emitted_assemble, hConflicts, ← mem_ids_gathered]
    refine and_congr_left fun _ => ⟨fun h => ?_, fun h => ?_⟩
    · obtain ⟨q, hq, rfl⟩ := List.mem_map.mp h
      exact List.mem_map_of_mem (Merging.mem_candidates.mp hq).1
    · obtain ⟨q, hq, hId⟩ := List.mem_map.mp h
      obtain ⟨parsed, hParsed⟩ := exists_parse_of_merge hMerge hUnopposed hAgree hq hId
      subst hId
      refine List.mem_map_of_mem (Merging.mem_candidates.mpr ⟨hq, Merging.refusal?_eq_none.mpr ?_⟩)
      refine ⟨hAgree, ?_, parsed, hParsed, ?_⟩
      · rw [mem_gathered_withheld]
        rintro ⟨plan, hPlan, hWithheld⟩
        exact hUnopposed.withheld plan hPlan hWithheld
      · rw [mem_gathered_blocked]
        rintro ⟨plan, hPlan, hBlocked⟩
        exact hUnopposed.blocked parsed hParsed plan hPlan hBlocked

/-- A proposal that no plan holds back or blocks is held back by the merged plan if two of its
copies disagree in a file that both change. If none do, the merged plan does not say so and has,
unless there is a conflict, the proposal with the changes of all copies. Plans can be merged unless
some identifier is none. -/
theorem merge_copies (plans : List EditPlan) (id : String)
    (hAlike : (copiesOf plans id).Pairwise Proposal.RepeatsAlike)
    (hUnopposed : Unopposed plans id) : (∀ merged, merge plans = .ok merged →
        (Diverges (copies plans) id → id ∉ merged.emitted ∧ id ∈ merged.withheld)
        ∧ (¬ Diverges (copies plans) id → UnitesCopies plans id merged))
      ∧ ((∃ p ∈ copies plans, ∃ fault, ProposalId.parse p.id = .error fault)
        ∨ ∃ merged, merge plans = .ok merged) := by
  have hUnites := gathered_unites hAlike
  have hDiverged := hUnites.diverged.trans diverges_iff.symm
  refine ⟨fun merged hMerge => ⟨fun h => ?_, fun h => ?_⟩, (merge_total plans).imp_left ?_⟩
  · exact Merging.withheld_of_diverged hMerge (hDiverged.mpr h)
  · exact unitesCopies_of_merge hMerge hUnopposed hUnites fun hNot => h (hDiverged.mp hNot)
  · rintro ⟨plan, hPlan, p, hp, hFault⟩
    exact ⟨p, List.mem_flatMap.mpr ⟨plan, hPlan, hp⟩, hFault⟩

theorem unopposed_of_blocked_nil (hWithheld : ∀ plan ∈ plans, id ∉ plan.withheld)
    (hBlocked : ∀ plan ∈ plans, plan.blockedSites = []) : Unopposed plans id := by
  refine ⟨hWithheld, fun parsed _ plan hPlan => ?_⟩
  rw [hBlocked plan hPlan]
  exact List.not_mem_nil

/-- A macro of a header. -/
def headerMacro : String :=
  "m.h::F::FunctionLikeMacro::L1"

/-- The plan of a unit that includes the header and uses the macro at some places of its own. -/
def userPlan (path : String) (tier : SafetyTier) (uses : List Int) : EditPlan :=
  build [{ id := headerMacro, macroName := "F", pattern := .functionLikeMacro, tier
           edits := ⟨⟨"m.h", 0, 20⟩, "int f();", headerMacro, .replace⟩
             :: uses.map fun start => ⟨⟨path, start, start + 1⟩, "f", headerMacro, .replace⟩ }]
    [] .medium []

/-- Two units with uses of their own. -/
def userPlans : List EditPlan :=
  [userPlan "a.cpp" .high [8], userPlan "b.cpp" .medium [8, 30]]

/-- The uses of both units are replaced, and with the lower tier. -/
theorem merge_copies_userPlans : ∃ merged, merge userPlans = .ok merged
    ∧ UnitesCopies userPlans headerMacro merged ∧ headerMacro ∈ merged.emitted
    ∧ ∀ q ∈ merged.proposals, q.tier = .medium ∧ q.edits.length = 4 := by
  obtain ⟨merged, hMerged, hTest⟩ := Except.exists_of_passes (x := merge userPlans)
    (Q := fun merged => headerMacro ∈ merged.emitted
      ∧ ∀ q ∈ merged.proposals, q.tier = .medium ∧ q.edits.length = 4)
    (fun merged => decide (headerMacro ∈ merged.emitted
      ∧ ∀ q ∈ merged.proposals, q.tier = .medium ∧ q.edits.length = 4)) (by decide +kernel)
    fun _ _ => of_decide_eq_true
  obtain ⟨hMade, -⟩ := merge_copies userPlans headerMacro
    (repeatsAlike_of_asksOnce (by decide +kernel) _)
    (unopposed_of_blocked_nil (by decide +kernel) (by decide +kernel))
  exact ⟨merged, hMerged, (hMade merged hMerged).2 (by decide +kernel), hTest⟩

/-- Two units whose copies disagree, where one asks for the change of the header twice. -/
def repeatingPlans : List EditPlan :=
  let id := headerMacro
  [build [{ id, macroName := "F", pattern := .functionLikeMacro, tier := .high
            edits := [⟨⟨"m.h", 0, 20⟩, "int f();", id, .replace⟩,
              ⟨⟨"m.h", 0, 20⟩, "int f();", id, .replace⟩] }] [] .high [],
    build [{ id, macroName := "F", pattern := .functionLikeMacro, tier := .high
             edits := [⟨⟨"m.h", 0, 20⟩, "int f();", id, .replace⟩,
               ⟨⟨"m.h", 30, 31⟩, "f", id, .replace⟩] }] [] .high []]

/-- A change that is asked for twice stands for one that the other copy lacks, and makes a copy
differ from one that asks for it once. -/
theorem not_merge_copies_repeating :
    Unopposed repeatingPlans headerMacro ∧ Diverges (copies repeatingPlans) headerMacro
      ∧ (∃ merged, merge repeatingPlans = .ok merged ∧ headerMacro ∈ merged.emitted)
      ∧ Unopposed (repeatingPlans.take 1 ++ [userPlan "m.h" .high []]) headerMacro
      ∧ ¬ Diverges (copies (repeatingPlans.take 1 ++ [userPlan "m.h" .high []])) headerMacro
      ∧ ∃ merged, merge (repeatingPlans.take 1 ++ [userPlan "m.h" .high []]) = .ok merged
        ∧ ⟨"F", some differing, none⟩ ∈ merged.report := by
  refine ⟨unopposed_of_blocked_nil (by decide +kernel) (by decide +kernel), by decide +kernel, ?_,
    unopposed_of_blocked_nil (by decide +kernel) (by decide +kernel), by decide +kernel, ?_⟩
  · exact Except.exists_of_passes (fun merged => decide (headerMacro ∈ merged.emitted))
      (by decide +kernel) fun _ _ => of_decide_eq_true
  · exact Except.exists_of_passes
      (fun merged => decide (⟨"F", some differing, none⟩ ∈ merged.report))
      (by decide +kernel) fun _ _ => of_decide_eq_true

end Demacro.EditPlan
