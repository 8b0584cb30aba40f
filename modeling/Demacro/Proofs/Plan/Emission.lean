import Demacro.Proofs.Plan.Applicability

/-!
What a plan makes of the proposals in it. A change that several proposals ask for is made for the
first of them, whether that one is in the plan or not. So a proposal in the plan lacks a change
exactly if the first to ask for it is held back.
-/

namespace Demacro

/-- All edits of a proposal are made for it. -/
def Proposal.OwnsEdits (p : Proposal) : Prop :=
  ∀ e ∈ p.edits, e.proposal = p.id

instance (p : Proposal) : Decidable p.OwnsEdits :=
  inferInstanceAs (Decidable (∀ e ∈ p.edits, e.proposal = p.id))

namespace EditPlan

instance (plan : EditPlan) (c : Extent × Text × EditKind) : Decidable (plan.Makes c) :=
  inferInstanceAs (Decidable (∃ e ∈ plan.allEdits, e.change = c))

/-- A plan makes a proposal whole if it makes all changes that the proposal asks for. -/
def MakesWhole (plan : EditPlan) (p : Proposal) : Prop :=
  ∀ e ∈ p.edits, plan.Makes e.change

instance (plan : EditPlan) (p : Proposal) : Decidable (plan.MakesWhole p) :=
  inferInstanceAs (Decidable (∀ e ∈ p.edits, plan.Makes e.change))

/-- The first of some proposals that asks for a change. -/
def asking? (candidates : List Proposal) (c : Extent × Text × EditKind) : Option Proposal :=
  candidates.find? (·.edits.any (decide <| ·.change = c))

section

variable {candidates : List Proposal} {report : List ReportEntry} {known : List Conflict}
  {p q : Proposal} {e : Edit} {c : Extent × Text × EditKind}

theorem mem_of_asking? (h : asking? candidates c = some q) : q ∈ candidates :=
  List.mem_of_find?_eq_some h

theorem exists_asking (hp : p ∈ candidates) (he : e ∈ p.edits) :
    ∃ q, asking? candidates e.change = some q :=
  Option.isSome_iff_exists.mp
    (List.find?_isSome.mpr ⟨p, hp, List.any_eq_true.mpr ⟨e, he, decide_eq_true rfl⟩⟩)

/-- The first edit that makes a change is one of the first proposal that asks for it. -/
theorem firstMaking?_eq_some (h : firstMaking? candidates c = some e) :
    ∃ q, asking? candidates c = some q ∧ e ∈ q.edits := by
  induction candidates with
  | nil => cases h
  | cons p candidates ih =>
      rw [firstMaking?, List.flatMap_cons, List.find?_append] at h
      rw [asking?, List.find?_cons]
      cases hOwn : p.edits.find? (decide <| ·.change = c) with
      | some d =>
          rw [hOwn, Option.some_or, Option.some.injEq] at h
          subst h
          have hMem := List.mem_of_find?_eq_some hOwn
          have hChange : d.change = c := by simpa using List.find?_some hOwn
          have hAsks : p.edits.any (decide <| ·.change = c) = true :=
            List.any_eq_true.mpr ⟨d, hMem, decide_eq_true hChange⟩
          rw [hAsks]
          exact ⟨p, rfl, hMem⟩
      | none =>
          rw [hOwn, Option.none_or] at h
          have hSilent : p.edits.any (decide <| ·.change = c) = false :=
            List.any_eq_false.mpr (List.find?_eq_none.mp hOwn)
          rw [hSilent]
          exact ih h

theorem exists_firstMaking (h : asking? candidates c = some q) :
    ∃ e, firstMaking? candidates c = some e := by
  have hAsks : q.edits.any (decide <| ·.change = c) = true :=
    List.find?_some (p := fun p : Proposal => p.edits.any (decide <| ·.change = c)) h
  obtain ⟨e, he, hChange⟩ := List.any_eq_true.mp hAsks
  exact Option.isSome_iff_exists.mp
    (List.find?_isSome.mpr ⟨e, List.mem_flatMap.mpr ⟨q, mem_of_asking? h, he⟩, hChange⟩)

theorem mem_proposals_assemble (hp : p ∈ candidates)
    (hEmitted : p.id ∈ (assemble candidates report known).emitted) :
    p ∈ (assemble candidates report known).proposals := by
  have hFree := lookup_eq_none_iff_notMem.mpr (mem_emitted_assemble.mp hEmitted).2
  exact List.mem_filter.mpr ⟨hp, Option.isNone_iff_eq_none.mpr hFree⟩

/-- A change is made exactly if the first proposal that asks for it is in the plan. -/
theorem makes_assemble_iff (hOwn : ∀ p ∈ candidates, p.OwnsEdits) :
    (assemble candidates report known).Makes c ↔
      ∃ q, asking? candidates c = some q ∧ q.id ∈ (assemble candidates report known).emitted := by
  rw [makes_assemble]
  constructor
  · rintro ⟨e, hFirst, hOwner⟩
    obtain ⟨q, hq, he⟩ := firstMaking?_eq_some hFirst
    exact ⟨q, hq, hOwn q (mem_of_asking? hq) e he ▸ hOwner⟩
  · rintro ⟨q, hq, hEmitted⟩
    obtain ⟨e, hFirst⟩ := exists_firstMaking hq
    obtain ⟨r, hr, he⟩ := firstMaking?_eq_some hFirst
    obtain rfl : r = q := Option.some.inj (hr.symm.trans hq)
    exact ⟨e, hFirst, hOwn r (mem_of_asking? hr) e he ▸ hEmitted⟩

end

/-- What a plan made from candidates makes of some copies of them. -/
structure Emission (plan : EditPlan) (candidates copies : List Proposal) : Prop where
  /-- The plan has no edits but those of its proposals. -/
  owned : ∀ e ∈ plan.allEdits, ∃ p ∈ plan.proposals, e ∈ p.edits
  /-- A copy of a proposal in the plan is made whole unless a candidate that is held back is the
  first to ask for one of its changes. -/
  whole_iff : ∀ p ∈ copies, p.id ∈ plan.emitted →
    (plan.MakesWhole p ↔ ∀ e ∈ p.edits, ∀ q ∈ asking? candidates e.change, q.id ∈ plan.emitted)

/-- Only the edits and the proposals of a plan count. -/
theorem Emission.congr {a b : EditPlan} {candidates copies : List Proposal}
    (h : a.Emission candidates copies) (hEdits : b.edits = a.edits)
    (hProposals : b.proposals = a.proposals) : b.Emission candidates copies where
  owned := by
    simpa only [allEdits, hEdits, hProposals] using h.owned
  whole_iff := by
    simpa only [MakesWhole, Makes, allEdits, emitted, hEdits, hProposals] using h.whole_iff

theorem emission_assemble {candidates copies : List Proposal} (report : List ReportEntry)
    (known : List Conflict) (hOwn : ∀ p ∈ candidates, p.OwnsEdits)
    (hCopies : ∀ p ∈ copies, p.id ∈ (assemble candidates report known).emitted →
      ∀ e ∈ p.edits, ∃ q ∈ candidates, ∃ d ∈ q.edits, d.change = e.change) :
    (assemble candidates report known).Emission candidates copies where
  owned e he := by
    obtain ⟨hPool, hOwner⟩ := mem_allEdits_assemble.mp he
    obtain ⟨p, hp, hMem⟩ := mem_pool hPool
    exact ⟨p, mem_proposals_assemble hp (hOwn p hp e hMem ▸ hOwner), hMem⟩
  whole_iff p hp hEmitted := by
    refine forall₂_congr fun e he => ?_
    obtain ⟨q, hq, d, hd, hChange⟩ := hCopies p hp hEmitted e he
    obtain ⟨first, hFirst⟩ := exists_asking hq hd
    rw [hChange] at hFirst
    rw [makes_assemble_iff hOwn, hFirst]
    simp

section

variable {plans : List EditPlan}

theorem ownsEdits_gathered (h : ∀ plan ∈ plans, ∀ p ∈ plan.proposals, p.OwnsEdits) :
    ∀ q ∈ (gathered plans).proposals, q.OwnsEdits := by
  intro q hq e he
  obtain ⟨p, hp, hId, hMem⟩ := (gathered_gathers plans).sound q hq e he
  obtain ⟨plan, hPlan, hp⟩ := List.mem_flatMap.mp hp
  exact (h plan hPlan p hp e hMem).trans hId

/-- A candidate of a merge has the changes of every unit's copy of it. -/
theorem exists_candidate_change {p : Proposal} {e : Edit}
    (hp : p ∈ plans.flatMap EditPlan.proposals)
    (hId : p.id ∈ (gathered plans).candidates.map Proposal.id) (he : e ∈ p.edits) :
    ∃ q ∈ (gathered plans).candidates, ∃ d ∈ q.edits, d.change = e.change := by
  obtain ⟨r, hr, hSame⟩ := List.mem_map.mp hId
  have hAdmitted := Merging.refusal?_eq_none.mp (Merging.mem_candidates.mp hr).2
  rw [hSame] at hAdmitted
  rcases (gathered_gathers plans).complete p hp with hDiverged | ⟨q, hq, hCopy, hEdits⟩
  · exact absurd hDiverged hAdmitted.1
  · refine ⟨q, Merging.mem_candidates.mpr ⟨hq, ?_⟩, hEdits e he⟩
    rw [Merging.refusal?_eq_none, hCopy]
    exact hAdmitted

end

/-- Plans have no edits but those of their proposals. A proposal in a plan lacks only changes that a
proposal that is held back was the first to ask for, and it does lack those. This goes for the plan
of a unit and for merged plans, where each unit's copy of the proposal counts; plans can be merged
unless some identifier is none. -/
theorem made_emission (proposals : List Proposal) (leftovers : List Leftover) (minimum : SafetyTier)
    (warnings : List ReportEntry) (plans : List EditPlan) (hOwn : ∀ p ∈ proposals, p.OwnsEdits)
    (hPlans : ∀ plan ∈ plans, ∀ p ∈ plan.proposals, p.OwnsEdits) :
    (build proposals leftovers minimum warnings).Emission (admitted minimum proposals)
        (build proposals leftovers minimum warnings).proposals
      ∧ (∀ merged, merge plans = .ok merged →
        merged.Emission (gathered plans).candidates (plans.flatMap EditPlan.proposals))
      ∧ ((∃ plan ∈ plans, ∃ p ∈ plan.proposals, ∃ fault, ProposalId.parse p.id = .error fault)
        ∨ ∃ merged, merge plans = .ok merged) := by
  refine ⟨?_, fun merged hMerged => ?_, merge_total plans⟩
  · have hAdmitted : ∀ p ∈ admitted minimum proposals, p.OwnsEdits :=
      fun p hp => hOwn p (List.mem_filter.mp hp).1
    refine (emission_assemble [] [] hAdmitted fun p hp _ e he => ?_).congr rfl rfl
    exact ⟨p, (List.mem_filter.mp hp).1, e, he, rfl⟩
  · obtain ⟨report, withheld, rfl⟩ := exists_assemble_of_merge hMerged
    have hCandidates : ∀ q ∈ (gathered plans).candidates, q.OwnsEdits :=
      fun q hq => ownsEdits_gathered hPlans q (Merging.mem_candidates.mp hq).1
    refine (emission_assemble report _ hCandidates fun p hp hEmitted e he => ?_).congr rfl rfl
    exact exists_candidate_change hp (mem_emitted_assemble.mp hEmitted).1 he

/-- Two proposals that ask for one change and for another change each. -/
def sharing : List Proposal :=
  [{ id := "a.cpp::A::SimpleConstant::L1", macroName := "A"
     pattern := .simpleConstant, tier := .high
     edits := [⟨⟨"a.cpp", 0, 4⟩, "same", "a.cpp::A::SimpleConstant::L1", .replace⟩,
       ⟨⟨"a.cpp", 10, 20⟩, "x", "a.cpp::A::SimpleConstant::L1", .replace⟩] },
   { id := "a.cpp::B::SimpleConstant::L2", macroName := "B"
     pattern := .simpleConstant, tier := .high
     edits := [⟨⟨"a.cpp", 0, 4⟩, "same", "a.cpp::B::SimpleConstant::L2", .replace⟩,
       ⟨⟨"a.cpp", 30, 31⟩, "y", "a.cpp::B::SimpleConstant::L2", .replace⟩] }]

/-- The plans of two units that propose both, in different orders. -/
def sharingPlans : List EditPlan :=
  [build sharing [] .high [], build sharing.reverse [] .high []]

/-- Where nothing is held back, the change that both ask for is made for both, in the plan of a unit
and in merged plans. -/
theorem makesWhole_sharing :
    (build sharing [] .high []).emitted = sharing.map Proposal.id
      ∧ (∀ p ∈ (build sharing [] .high []).proposals, (build sharing [] .high []).MakesWhole p)
      ∧ ∃ merged, merge sharingPlans = .ok merged
        ∧ ∀ plan ∈ sharingPlans, ∀ p ∈ plan.proposals, p.id ∈ merged.emitted
        ∧ merged.MakesWhole p := by
  obtain ⟨hUnit, hMerge, -⟩ := made_emission sharing [] .high [] sharingPlans
    (by decide +kernel) (by decide +kernel)
  refine ⟨by decide +kernel, fun p hp => (hUnit.whole_iff p hp (List.mem_map_of_mem hp)).mpr ?_, ?_⟩
  · revert p
    decide +kernel
  · refine Except.exists_of_passes
      (fun merged => decide (∀ plan ∈ sharingPlans, ∀ p ∈ plan.proposals,
      p.id ∈ merged.emitted ∧ ∀ e ∈ p.edits,
      ∀ q ∈ asking? (gathered sharingPlans).candidates e.change,
        q.id ∈ merged.emitted)) (by decide +kernel) fun merged hMerged hTest plan hPlan p hp => ?_
    obtain ⟨hEmitted, hFirst⟩ := of_decide_eq_true hTest plan hPlan p hp
    have hCopy : p ∈ sharingPlans.flatMap EditPlan.proposals :=
      List.mem_flatMap.mpr ⟨plan, hPlan, hp⟩
    exact ⟨hEmitted, ((hMerge merged hMerged).whole_iff p hCopy hEmitted).mpr hFirst⟩

/-- The two, and a third one that collides with the first. -/
def contested : List Proposal :=
  sharing ++
    [{ id := "a.cpp::C::SimpleConstant::L3", macroName := "C"
       pattern := .simpleConstant, tier := .high
       edits := [⟨⟨"a.cpp", 15, 18⟩, "z", "a.cpp::C::SimpleConstant::L3", .replace⟩] }]

/-- The change that both ask for is gone with the first of them, though the second is in the
plan. -/
theorem not_makesWhole_contested :
    (contested.map Proposal.id).Nodup ∧ (∀ p ∈ contested, p.OwnsEdits)
      ∧ ∃ p ∈ (build contested [] .high []).proposals,
      ¬ (build contested [] .high []).MakesWhole p := by
  decide +kernel

end EditPlan

end Demacro
