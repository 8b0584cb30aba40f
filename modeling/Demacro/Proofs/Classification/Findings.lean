import Demacro.Proofs.Classification.Outcome
import Demacro.Proofs.Lists

/-!
What a classification that leaves room for a change rules out. The confidence is that of the weakest
finding, so a macro that is not blocked has no finding that blocks it.
-/

namespace Demacro

theorem Confidence.lower_eq_blocked_iff {a b : Confidence} :
    a.lower b = .blocked ↔ a = .blocked ∨ b = .blocked := by
  cases a <;> cases b <;> decide

theorem Finding.confidence_eq_blocked_iff {findings : List Finding} :
    Finding.confidence findings = .blocked ↔ ∃ f ∈ findings, f.limit = .blocked := by
  have hFold : ∀ (c : Confidence) (fs : List Finding),
      fs.foldl (fun c f => c.lower f.limit) c = .blocked ↔
        c = .blocked ∨ ∃ f ∈ fs, f.limit = .blocked := by
    intro c fs
    induction fs generalizing c with
    | nil => simp
    | cons f fs ih => simp [ih, Confidence.lower_eq_blocked_iff, or_assoc]
  simp [confidence, hFold]

theorem Finding.confidence_eq_high {findings : List Finding} (h : ∀ f ∈ findings, f.limit = .high) :
    Finding.confidence findings = .high := by
  unfold confidence
  induction findings with
  | nil => rfl
  | cons f findings ih =>
      rw [List.foldl_cons, h f List.mem_cons_self]
      exact ih fun g hg => h g (List.mem_cons_of_mem f hg)

namespace Survey

variable {s : Survey} {name : String} {c : Classification}

/-- A macro that is classified by its replacement agrees on all its live definitions, and the first
of them is no include guard and holds something to replace. -/
theorem subject_eq_ok {d : ActiveSpan} (h : s.subject name = .ok d) :
    s.table.isAmbiguous name = false
      ∧ (∃ others, (s.table.definitions name).filter (·.reachability != .disabled) = d :: others)
      ∧ s.guards.lookup d.definition.span.path ≠ some name
      ∧ s.tokenRefusal? d.definition = none := by
  unfold subject at h
  dsimp only at h
  split at h
  · cases h
  rename_i hAmbiguous
  split at h
  · cases h
  rename_i first others hLive
  split at h
  · cases h
  rename_i hGuard
  split at h
  · cases h
  split at h
  · cases h
  rename_i hTokens
  cases h
  exact ⟨by simpa using hAmbiguous, ⟨others, hLive⟩, hGuard, hTokens⟩

/-- A macro is classified by its first live definition. -/
theorem find?_of_subject {d : ActiveSpan} (h : s.subject name = .ok d) :
    (s.table.definitions name).find? (·.reachability != .disabled) = some d := by
  obtain ⟨others, hLive⟩ := (subject_eq_ok h).2.1
  rw [← List.head?_filter, hLive, List.head?_cons]

/-- What a macro that may be changed rests on: its first live definition, its uses, and sites none
of which blocks it. -/
theorem Outcome.of_ne_blocked (h : s.Outcome name c) (hConfidence : c.confidence ≠ .blocked) :
    ∃ d, s.subject name = .ok d ∧ c.definition = some (s.record d)
      ∧ c.usages = s.uses.usages name
      ∧ ∀ f ∈ s.siteFindings name (s.record d), f.limit ≠ .blocked := by
  cases h with
  | unsuitable | rejected => exact absurd rfl hConfidence
  | @constant d _ _ _ hSubject =>
      refine ⟨d, hSubject, rfl, rfl, fun f hf hLimit => hConfidence ?_⟩
      refine Finding.confidence_eq_blocked_iff.mpr ⟨f, ?_, hLimit⟩
      simp only [List.mem_append]
      tauto
  | @function d _ _ _ hSubject =>
      refine ⟨d, hSubject, rfl, rfl, fun f hf hLimit => hConfidence ?_⟩
      refine Finding.confidence_eq_blocked_iff.mpr ⟨f, ?_, hLimit⟩
      simp only [List.mem_append]
      tauto

theorem name_of_mem_definitions {t : MacroTable} {d : ActiveSpan} (h : d ∈ t.definitions name) :
    d ∈ t.spans ∧ d.definition.name = name := by
  simpa [MacroTable.definitions] using h

/-- The definition that a macro is classified by is a live one of that name. -/
theorem mem_definitions_of_subject {d : ActiveSpan} (h : s.subject name = .ok d) :
    d ∈ s.table.definitions name ∧ d.reachability ≠ .disabled := by
  obtain ⟨others, hLive⟩ := (subject_eq_ok h).2.1
  have hMem : d ∈ (s.table.definitions name).filter (·.reachability != .disabled) :=
    hLive ▸ List.mem_cons_self
  simpa using List.mem_filter.mp hMem

/-- A macro that may be changed is tested by no conditional directive, is spelled nowhere that it
does not expand, and its definitions are seen once. -/
theorem Outcome.sites_of_ne_blocked (h : s.Outcome name c) (hConfidence : c.confidence ≠ .blocked) :
    s.uses.tested name = [] ∧ s.uses.strays name = [] ∧ s.uses.unresolved name = []
      ∧ isSeenTwice (s.table.history name) = false := by
  obtain ⟨d, hSubject, -, -, hSites⟩ := h.of_ne_blocked hConfidence
  have hName := (name_of_mem_definitions (mem_definitions_of_subject hSubject).1).2
  have hBlocker : ∀ remark, Finding.blocker remark ∉ s.siteFindings name (s.record d) :=
    fun remark hMem => hSites _ hMem rfl
  simp only [siteFindings, record, hName, List.mem_append, List.mem_map, not_or, not_exists,
    not_and] at hBlocker
  refine ⟨?_, ?_, ?_, ?_⟩
  · refine List.eq_nil_iff_forall_not_mem.mpr fun line hLine => ?_
    exact (hBlocker _).1.1.1.1.1.2 line hLine rfl
  · refine List.eq_nil_iff_forall_not_mem.mpr fun stray hStray => ?_
    exact (hBlocker _).1.1.1.1.2 stray hStray rfl
  · refine List.eq_nil_iff_forall_not_mem.mpr fun call hCall => ?_
    exact (hBlocker _).1.1.1.2 call hCall rfl
  · by_contra hTwice
    refine (hBlocker (.includedAgain d.definition.span.path)).2 ?_
    rw [if_pos (by simpa using hTwice)]
    exact List.mem_singleton.mpr rfl

end Survey

end Demacro
