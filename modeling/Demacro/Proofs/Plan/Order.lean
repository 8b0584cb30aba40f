import Demacro.Proofs.Plan.Divergence

/-!
Merging plans in any order. A change that several proposals ask for goes to the first of them, so
the order shows only where one of these is in a conflict. Where none is, a merged plan holds back
exactly the candidates in a conflict and makes all changes of the others.
-/

namespace Demacro.EditPlan

section

variable {candidates : List Proposal} {report : List ReportEntry} {known : List Conflict}
  {p q : Proposal} {d e : Edit} {id : String} {c : Extent × Text × EditKind}

/-- The proposals in conflicts. -/
def involved (conflicts : List Conflict) : List String :=
  (partners conflicts).map Prod.fst

theorem mem_involved {conflicts : List Conflict} : id ∈ involved conflicts ↔
    ∃ c ∈ conflicts, id = c.first.proposal ∨ id = c.second.proposal := by
  simp only [involved, partners, List.map_flatMap, List.mem_flatMap, List.map_cons, List.map_nil,
    List.mem_cons, List.not_mem_nil, or_false]

/-- A candidate is contested if it is known to be in a conflict or asks for a change that collides
with another one that a candidate asks for. -/
def Contested (candidates : List Proposal) (known : List Conflict) (id : String) : Prop :=
  id ∈ involved known ∨ ∃ p ∈ candidates, p.id = id ∧ ∃ e ∈ p.edits, ∃ q ∈ candidates,
    ∃ d ∈ q.edits, e.change ≠ d.change ∧ e.overlaps d = true

instance (candidates : List Proposal) (known : List Conflict) (id : String) :
    Decidable (Contested candidates known id) :=
  inferInstanceAs (Decidable (_ ∨ ∃ p ∈ candidates, p.id = id ∧ ∃ e ∈ p.edits, ∃ q ∈ candidates,
    ∃ d ∈ q.edits, e.change ≠ d.change ∧ e.overlaps d = true))

/-- Some proposal with the identifier asks for the change. -/
def Requested (proposals : List Proposal) (id : String) (c : Extent × Text × EditKind) : Prop :=
  ∃ p ∈ proposals, p.id = id ∧ p.Asks c

/-- A candidate that asks for a change together with another one is not contested. -/
def SharesFreely (candidates : List Proposal) (known : List Conflict) : Prop :=
  ∀ p ∈ candidates, ∀ q ∈ candidates, p.id ≠ q.id → ∀ e ∈ p.edits, ∀ d ∈ q.edits,
    e.change = d.change → ¬ Contested candidates known p.id

instance (candidates : List Proposal) (known : List Conflict) :
    Decidable (SharesFreely candidates known) :=
  inferInstanceAs (Decidable (∀ p ∈ candidates, ∀ q ∈ candidates, p.id ≠ q.id → ∀ e ∈ p.edits,
    ∀ d ∈ q.edits, e.change = d.change → ¬ Contested candidates known p.id))

/-- Only what two edits change decides whether they overlap. -/
theorem overlaps_congr {d' e' : Edit} (hd : d'.change = d.change) (he : e'.change = e.change) :
    d'.overlaps e' = d.overlaps e := by
  obtain ⟨x, text, owner, kind⟩ := d
  obtain ⟨y, text', owner', kind'⟩ := e
  cases hd
  cases he
  rfl

theorem contested_iff : Contested candidates known id ↔ id ∈ involved known ∨
    ∃ d e : Edit, Requested candidates id e.change ∧ (∃ other, Requested candidates other d.change)
      ∧ e.change ≠ d.change ∧ e.overlaps d = true := by
  refine or_congr_right ?_
  constructor
  · rintro ⟨p, hp, hId, e, he, q, hq, d, hd, hCollide⟩
    exact ⟨d, e, ⟨p, hp, hId, e, he, rfl⟩, ⟨q.id, q, hq, rfl, d, hd, rfl⟩, hCollide⟩
  · rintro ⟨d, e, ⟨p, hp, hId, e', he, hChange⟩, ⟨_, q, hq, -, d', hd, hChange'⟩, hNe, hOverlaps⟩
    refine ⟨p, hp, hId, e', he, q, hq, d', hd, ?_,
      (overlaps_congr hChange hChange').trans hOverlaps⟩
    rwa [hChange, hChange']

theorem sharesFreely_iff : SharesFreely candidates known ↔ ∀ id other c, id ≠ other →
    Requested candidates id c → Requested candidates other c → ¬ Contested candidates known id := by
  constructor
  · rintro h _ _ c hNe ⟨p, hp, rfl, e, he, rfl⟩ ⟨q, hq, rfl, d, hd, hChange⟩
    exact h p hp q hq hNe e he d hd hChange.symm
  · intro h p hp q hq hNe e he d hd hChange
    exact h p.id q.id e.change hNe ⟨p, hp, rfl, e, he, rfl⟩ ⟨q, hq, rfl, d, hd, hChange.symm⟩

/-- The pool has an edit for each change that a candidate asks for, which belongs to a candidate
that asks for it too. -/
theorem exists_mem_pool (hOwn : ∀ p ∈ candidates, p.OwnsEdits) (hp : p ∈ candidates)
    (he : e ∈ p.edits) :
    ∃ e' ∈ pool candidates, e'.change = e.change ∧ ∃ q ∈ candidates, e' ∈ q.edits
    ∧ e'.proposal = q.id := by
  obtain ⟨q, hq⟩ := exists_asking hp he
  obtain ⟨e', hFirst⟩ := exists_firstMaking hq
  have hChange : e'.change = e.change := by simpa using List.find?_some hFirst
  have hPool : e' ∈ pool candidates := mem_pool_iff.mpr (hChange ▸ hFirst)
  obtain ⟨r, hr, hMem⟩ := mem_pool hPool
  exact ⟨e', hPool, hChange, r, hr, hMem, hOwn r hr e' hMem⟩

/-- Two edits that are reported as a conflict make different changes. -/
theorem change_ne_of_mem_conflicts {c : Conflict}
    (h : c ∈ (assemble candidates report known).conflicts) :
    c ∈ known ∨ c.first ∈ pool candidates ∧ c.second ∈ pool candidates
      ∧ c.first.change ≠ c.second.change ∧ c.first.overlaps c.second = true := by
  refine (mem_conflicts_assemble.mp h).imp_right fun hConflict => ?_
  obtain ⟨hSublist, hOverlaps⟩ := hConflict
  have hFirst := mem_fileEdits.mp (hSublist.subset List.mem_cons_self)
  have hSecond := mem_fileEdits.mp (hSublist.subset (by simp : c.second ∈ [c.first, c.second]))
  refine ⟨hFirst.1, hSecond.1, fun hSame => ?_, hOverlaps⟩
  have hNodup : ((fileEdits candidates c.path).map Edit.change).Nodup :=
    ((Edit.sorted_perm _).map Edit.change).nodup_iff.mpr
      ((changes_pool_nodup candidates).sublist (List.filter_sublist.map Edit.change))
  have hPair := hNodup.sublist (hSublist.map Edit.change)
  simp [hSame] at hPair

/-- There are no conflicts exactly if only edits overlap that make the same change. -/
theorem conflicts_assemble_eq_nil_iff (hOwn : ∀ p ∈ candidates, p.OwnsEdits) :
    (assemble candidates report []).conflicts = [] ↔ ∀ p ∈ candidates, ∀ q ∈ candidates,
    ∀ d ∈ p.edits,
      ∀ e ∈ q.edits, d.overlaps e = true → d.change = e.change := by
  rw [List.eq_nil_iff_forall_not_mem]
  constructor
  · intro hNone p hp q hq d hd e he hOverlaps
    by_contra hNe
    obtain ⟨d', hPool, hChange, -⟩ := exists_mem_pool hOwn hp hd
    obtain ⟨e', hPool', hChange', -⟩ := exists_mem_pool hOwn hq he
    have hNe' : d' ≠ e' := by
      rintro rfl
      exact hNe (hChange.symm.trans hChange')
    have hOverlaps' := (overlaps_congr hChange hChange').trans hOverlaps
    rcases (reports_assemble candidates report []).complete d' hPool e' hPool' hNe'
      hOverlaps' with hc | hc
    · exact hNone _ hc
    · exact hNone _ hc
  · intro hApart c hc
    rcases change_ne_of_mem_conflicts hc with hKnown | ⟨hFirst, hSecond, hNe, hOverlaps⟩
    · cases hKnown
    · obtain ⟨p, hp, hd⟩ := mem_pool hFirst
      obtain ⟨q, hq, he⟩ := mem_pool hSecond
      exact hNe (hApart p hp q hq _ hd _ he hOverlaps)

/-- The proposals in conflicts are the contested ones, if candidates share changes freely. -/
theorem mem_involved_assemble (hOwn : ∀ p ∈ candidates, p.OwnsEdits)
    (hShares : SharesFreely candidates known) :
    id ∈ involved (assemble candidates report known).conflicts ↔ Contested candidates known id := by
  have hReports := reports_assemble candidates report known
  constructor
  · intro h
    obtain ⟨c, hc, hId⟩ := mem_involved.mp h
    rcases change_ne_of_mem_conflicts hc with hKnown | ⟨hFirst, hSecond, hNe, hOverlaps⟩
    · exact .inl (mem_involved.mpr ⟨c, hKnown, hId⟩)
    · obtain ⟨p, hp, hpFirst⟩ := mem_pool hFirst
      obtain ⟨q, hq, hqSecond⟩ := mem_pool hSecond
      rcases hId with rfl | rfl
      · exact .inr ⟨p, hp, (hOwn p hp _ hpFirst).symm, _, hpFirst, q, hq, _, hqSecond, hNe,
          hOverlaps⟩
      · exact .inr ⟨q, hq, (hOwn q hq _ hqSecond).symm, _, hqSecond, p, hp, _, hpFirst, hNe.symm,
          Edit.overlaps_comm.trans hOverlaps⟩
  · intro h
    rcases h with hKnown | hCollides
    · obtain ⟨c, hc, hId⟩ := mem_involved.mp hKnown
      exact mem_involved.mpr ⟨c, hReports.recalls c hc, hId⟩
    · have hContested : Contested candidates known id := .inr hCollides
      obtain ⟨p, hp, rfl, e, he, q, hq, d, hd, hNe, hOverlaps⟩ := hCollides
      obtain ⟨e', hPool, hChange, p', hp', he', hOwner⟩ := exists_mem_pool hOwn hp he
      obtain ⟨d', hPool', hChange', -⟩ := exists_mem_pool hOwn hq hd
      -- The edit in the pool is one of `p`, as no other candidate asks for that change.
      have hSame : p'.id = p.id := by
        by_contra hOther
        exact hShares p hp p' hp' (Ne.symm hOther) e he e' he' hChange.symm hContested
      have hNe' : e' ≠ d' := by
        rintro rfl
        exact hNe (hChange.symm.trans hChange')
      have hOverlaps' := (overlaps_congr hChange hChange').trans hOverlaps
      rcases hReports.complete e' hPool d' hPool' hNe' hOverlaps' with hc | hc
      · exact mem_involved.mpr ⟨_, hc, .inl (hSame.symm.trans hOwner.symm)⟩
      · exact mem_involved.mpr ⟨_, hc, .inr (hSame.symm.trans hOwner.symm)⟩

theorem asks_of_asking? (h : asking? candidates c = some q) : q.Asks c := by
  have hAsks : q.edits.any (decide <| ·.change = c) = true :=
    List.find?_some (p := fun p : Proposal => p.edits.any (decide <| ·.change = c)) h
  obtain ⟨e, he, hChange⟩ := List.any_eq_true.mp hAsks
  exact ⟨e, he, of_decide_eq_true hChange⟩

/-- If candidates share changes freely, those that are not contested are in the plan. -/
theorem mem_emitted_iff_not_contested (hOwn : ∀ p ∈ candidates, p.OwnsEdits)
    (hShares : SharesFreely candidates known) :
    id ∈ (assemble candidates report known).emitted ↔
      id ∈ candidates.map Proposal.id ∧ ¬ Contested candidates known id := by
  rw [mem_emitted_assemble, ← mem_involved_assemble hOwn hShares]
  rfl

/-- If candidates share changes freely, the plan makes all changes of those that are not
contested. -/
theorem makes_iff_not_contested (hOwn : ∀ p ∈ candidates, p.OwnsEdits)
    (hShares : SharesFreely candidates known) :
    (assemble candidates report known).Makes c ↔
      ∃ p ∈ candidates, p.Asks c ∧ ¬ Contested candidates known p.id := by
  rw [makes_assemble_iff hOwn]
  constructor
  · rintro ⟨q, hq, hEmitted⟩
    exact ⟨q, mem_of_asking? hq, asks_of_asking? hq,
      ((mem_emitted_iff_not_contested hOwn hShares).mp hEmitted).2⟩
  · rintro ⟨p, hp, ⟨e, he, rfl⟩, hFree⟩
    obtain ⟨q, hq⟩ := exists_asking hp he
    obtain ⟨d, hd, hChange⟩ := asks_of_asking? hq
    have hMem := mem_of_asking? hq
    refine ⟨q, hq, (mem_emitted_iff_not_contested hOwn hShares).mpr ⟨List.mem_map_of_mem hMem, ?_⟩⟩
    by_cases hId : q.id = p.id
    · exact hId ▸ hFree
    · exact hShares q hMem p hp hId d hd e he hChange

end

namespace Merging

variable {m : Merging} {p q : Proposal} {id : String} {S : String → Prop}

theorem mem_of_firstDifference? {c : Conflict} (h : q.firstDifference? p = some c) :
    c.first ∈ q.edits ∧ c.second ∈ p.edits := by
  obtain ⟨e, he, h⟩ := List.exists_of_findSome?_eq_some h
  split at h
  · cases h
  · obtain ⟨partner, hPartner, rfl⟩ := Option.map_eq_some_iff.mp h
    exact ⟨List.mem_of_find?_eq_some hPartner, he⟩

/-- The merging knows that just the proposals in `S` are in conflicts, apart from those with copies
that disagree. -/
structure Recalls (m : Merging) (S : String → Prop) : Prop where
  owns : ∀ q ∈ m.proposals, q.OwnsEdits
  involved_iff : ∀ id ∉ m.diverged, id ∈ involved m.conflicts ↔ S id

theorem Recalls.addProposal (h : m.Recalls S) (hp : p.OwnsEdits) : (m.addProposal p).Recalls S := by
  unfold Merging.addProposal
  split
  · refine ⟨fun q hq => ?_, h.involved_iff⟩
    rcases List.mem_append.mp hq with hq | hq
    · exact h.owns q hq
    · exact List.mem_singleton.mp hq ▸ hp
  · rename_i known hKnown
    have hMem := List.mem_of_find?_eq_some hKnown
    have hId : known.id = p.id := by simpa using List.find?_some hKnown
    split
    · refine ⟨fun q hq => ?_, h.involved_iff⟩
      obtain ⟨old, hOld, rfl⟩ := List.mem_map.mp hq
      split
      · rename_i hOldId
        intro e he
        rcases mem_union he with he | he
        · exact h.owns old hOld e he
        · exact (hp e he).trans hOldId.symm
      · exact h.owns old hOld
    · refine ⟨h.owns, fun id hDiverged => ?_⟩
      rw [mem_appendNew, List.mem_singleton, not_or] at hDiverged
      rw [← h.involved_iff id hDiverged.1]
      -- The difference is one between copies of the proposal that has now diverged.
      have hDifference : ∀ c ∈ ((known.firstDifference? p).orElse fun _ =>
          p.firstDifference? known).toList, c.first.proposal = p.id ∧ c.second.proposal = p.id := by
        intro c hc
        rw [Option.mem_toList] at hc
        cases hForward : known.firstDifference? p with
        | some d =>
            rw [hForward] at hc
            cases hc
            obtain ⟨hFirst, hSecond⟩ := mem_of_firstDifference? hForward
            exact ⟨(h.owns known hMem _ hFirst).trans hId, hp _ hSecond⟩
        | none =>
            rw [hForward] at hc
            obtain ⟨hFirst, hSecond⟩ := mem_of_firstDifference? (show _ = some c from hc)
            exact ⟨hp _ hFirst, (h.owns known hMem _ hSecond).trans hId⟩
      simp only [mem_involved, List.mem_append]
      constructor
      · rintro ⟨c, hc | hc, hInvolved⟩
        · exact ⟨c, hc, hInvolved⟩
        · obtain ⟨hFirst, hSecond⟩ := hDifference c hc
          rw [hFirst, hSecond, or_self] at hInvolved
          exact absurd hInvolved hDiverged.2
      · rintro ⟨c, hc, hInvolved⟩
        exact ⟨c, .inl hc, hInvolved⟩

theorem Recalls.addPlan {plan : EditPlan} (h : m.Recalls S)
    (hPlan : ∀ p ∈ plan.proposals, p.OwnsEdits) :
    (m.addPlan plan).Recalls fun id => S id ∨ id ∈ involved plan.conflicts := by
  have hFold : ∀ (m : Merging) (T : String → Prop) (proposals : List Proposal), m.Recalls T →
      (∀ p ∈ proposals, p.OwnsEdits) → (proposals.foldl Merging.addProposal m).Recalls T := by
    intro m T proposals h hOwn
    induction proposals generalizing m with
    | nil => exact h
    | cons p proposals ih =>
        exact ih _ (h.addProposal (hOwn p List.mem_cons_self)) fun q hq =>
          hOwn q (List.mem_cons_of_mem p hq)
  refine hFold _ _ plan.proposals ⟨h.owns, fun id hDiverged => ?_⟩ hPlan
  rw [← h.involved_iff id hDiverged]
  simp only [mem_involved, mem_appendNew, or_and_right, exists_or]

end Merging

section

variable {plans : List EditPlan} {p q : Proposal} {id : String} {c : Extent × Text × EditKind}

theorem gathered_recalls (h : ∀ p ∈ copies plans, p.OwnsEdits) :
    (gathered plans).Recalls fun id => ∃ plan ∈ plans, id ∈ involved plan.conflicts := by
  have hFold : ∀ (m : Merging) (S : String → Prop), m.Recalls S →
      (plans.foldl Merging.addPlan m).Recalls fun id =>
        S id ∨ ∃ plan ∈ plans, id ∈ involved plan.conflicts := by
    unfold copies at h
    induction plans with
    | nil =>
        intro m S hRecalls
        simpa using hRecalls
    | cons plan plans ih =>
        intro m S hRecalls
        rw [List.flatMap_cons] at h
        have hStep := ih (fun p hp => h p (List.mem_append_right _ hp)) _ _
          (hRecalls.addPlan fun p hp => h p (List.mem_append_left _ hp))
        simpa only [List.foldl_cons, List.exists_mem_cons_iff, or_assoc] using hStep
  have hEmpty : ({} : Merging).Recalls fun _ => False :=
    ⟨by simp, fun _ _ => iff_of_false List.not_mem_nil id⟩
  rw [gathered]
  simpa only [false_or] using hFold {} _ hEmpty

/-- Nothing in the plans speaks against the proposal. -/
def Admits (plans : List EditPlan) (id : String) : Prop :=
  (∃ p ∈ copies plans, p.id = id) ∧ ¬ Diverges (copies plans) id
    ∧ (∀ plan ∈ plans, id ∉ plan.withheld)
    ∧ ∃ parsed, ProposalId.parse id = .ok parsed
      ∧ ∀ plan ∈ plans, ⟨parsed.path, parsed.macroName, parsed.line⟩ ∉ plan.blockedSites

theorem mem_ids_gathered : id ∈ (gathered plans).proposals.map Proposal.id ↔
    ∃ p ∈ copies plans, p.id = id := by
  rw [mem_gathered_ids]
  simp only [emitted, copies, List.mem_map, List.mem_flatMap]
  constructor
  · rintro ⟨plan, hPlan, p, hp, hId⟩
    exact ⟨p, ⟨plan, hPlan, hp⟩, hId⟩
  · rintro ⟨p, ⟨plan, hPlan, hp⟩, hId⟩
    exact ⟨plan, hPlan, p, hp, hId⟩

theorem refusal?_gathered (hOnce : ∀ p ∈ copies plans, p.AsksOnce)
    (hq : q ∈ (gathered plans).proposals) :
    (gathered plans).refusal? q = .ok none ↔ Admits plans q.id := by
  have hIds := mem_ids_gathered.mp (List.mem_map_of_mem hq)
  rw [Merging.refusal?_eq_none, mem_gathered_diverged hOnce, mem_gathered_withheld]
  simp only [mem_gathered_blocked, Admits, hIds, true_and, not_exists, not_and]

theorem mem_candidate_ids (hOnce : ∀ p ∈ copies plans, p.AsksOnce) :
    id ∈ (gathered plans).candidates.map Proposal.id ↔ Admits plans id := by
  simp only [List.mem_map, Merging.mem_candidates]
  constructor
  · rintro ⟨q, ⟨hq, hRefusal⟩, rfl⟩
    exact (refusal?_gathered hOnce hq).mp hRefusal
  · intro h
    obtain ⟨q, hq, rfl⟩ := List.mem_map.mp (mem_ids_gathered.mpr h.1)
    exact ⟨q, ⟨hq, (refusal?_gathered hOnce hq).mpr h⟩, rfl⟩

/-- The candidates ask for what the copies of admitted proposals ask for. -/
theorem requested_candidates (hOnce : ∀ p ∈ copies plans, p.AsksOnce) :
    Requested (gathered plans).candidates id c ↔
    Admits plans id ∧ Requested (copies plans) id c := by
  have hAsks : ∀ q ∈ (gathered plans).candidates, q.Asks c ↔
      ∃ p, (p ∈ copies plans ∧ p.id = q.id) ∧ p.Asks c := by
    intro q hq
    obtain ⟨hMem, hRefusal⟩ := Merging.mem_candidates.mp hq
    have hUnites := gathered_unites (repeatsAlike_of_asksOnce hOnce q.id)
    simp only [← mem_copiesOf]
    refine hUnites.asks q hMem rfl (fun hDiverged => ?_) c
    exact ((refusal?_gathered hOnce hMem).mp hRefusal).2.1
      ((mem_gathered_diverged hOnce).mp hDiverged)
  constructor
  · rintro ⟨q, hq, rfl, hc⟩
    obtain ⟨p, ⟨hp, hId⟩, hc⟩ := (hAsks q hq).mp hc
    exact ⟨(mem_candidate_ids hOnce).mp (List.mem_map_of_mem hq), p, hp, hId, hc⟩
  · rintro ⟨hAdmits, p, hp, hId, hc⟩
    obtain ⟨q, hq, hqId⟩ := List.mem_map.mp ((mem_candidate_ids hOnce).mpr hAdmits)
    exact ⟨q, hq, hqId, (hAsks q hq).mpr ⟨p, ⟨hp, hId.trans hqId.symm⟩, hc⟩⟩

end

namespace Merging

variable {m : Merging} {p : Proposal} {merged : EditPlan} {id : String}

theorem exists_refusal?_eq_error : (∃ fault, m.refusal? p = .error fault) ↔
    p.id ∉ m.diverged ∧ p.id ∉ m.withheld ∧ ∃ fault, ProposalId.parse p.id = .error fault := by
  unfold refusal?
  split
  · rename_i hDiverged
    simp [List.contains_iff_mem.mp hDiverged]
  split
  · rename_i hWithheld
    simp [List.contains_iff_mem.mp hWithheld]
  rename_i hDiverged hWithheld
  rw [List.contains_iff_mem] at hDiverged hWithheld
  simp only [hDiverged, hWithheld, not_false_eq_true, true_and]
  cases ProposalId.parse p.id with
  | error fault => simp [bind, Except.bind]
  | ok parsed => simp [bind, Except.bind, pure, Except.pure]

theorem finish_eq_error_iff : (∃ fault, m.finish = .error fault) ↔
    ∃ p ∈ m.proposals, ∃ fault, m.refusal? p = .error fault := by
  constructor
  · rintro ⟨fault, h⟩
    rcases Except.bind_eq_error_iff.mp h with hJudged | ⟨judged, -, h⟩
    · obtain ⟨p, hp, hFault⟩ := Except.exists_of_mapM_eq_error hJudged
      rcases Except.bind_eq_error_iff.mp hFault with hRefusal | ⟨reason, -, h⟩
      · exact ⟨p, hp, fault, hRefusal⟩
      · cases h
    · cases h
  · rintro ⟨p, hp, fault, hFault⟩
    cases hFinish : m.finish with
    | error other => exact ⟨other, rfl⟩
    | ok merged =>
        obtain ⟨judged, hJudged, -⟩ := Except.bind_eq_ok_iff.mp hFinish
        obtain ⟨y, -, hy⟩ := (Except.mapM_eq_ok_iff.mp hJudged).exists_right hp
        obtain ⟨reason, hReason, -⟩ := Except.bind_eq_ok_iff.mp hy
        rw [hFault] at hReason
        cases hReason

/-- A merged plan holds back the proposals in conflicts, and those that are not in it although some
unit holds them back or proposes them. -/
theorem mem_withheld_finish (h : m.finish = .ok merged) : id ∈ merged.withheld ↔
    id ∈ involved merged.conflicts ∨ id ∉ merged.emitted ∧ (id ∈ m.withheld ∨ id ∈ m.diverged
      ∨ id ∈ m.proposals.map Proposal.id) := by
  obtain ⟨judged, hJudged, h⟩ := Except.bind_eq_ok_iff.mp h
  have hForall := Except.mapM_eq_ok_iff.mp hJudged
  cases h
  dsimp only
  generalize hPlan : assemble _ _ m.conflicts = plan
  have hEmitted : id ∈ plan.emitted ↔ _ := hPlan ▸ mem_emitted_assemble
  have hWithheld : plan.withheld = appendNew [] (involved plan.conflicts) := hPlan ▸ rfl
  change _ ↔ id ∈ involved plan.conflicts ∨ id ∉ plan.emitted ∧ _
  simp only [hWithheld, mem_appendNew, List.not_mem_nil, false_or, List.mem_filter, List.mem_append,
    Bool.not_eq_true', List.contains_eq_mem, decide_eq_false_iff_not]
  constructor
  · rintro (h | ⟨(h | h) | h, hNot⟩)
    · exact .inl h
    · exact .inr ⟨hNot, .inl h⟩
    · exact .inr ⟨hNot, .inr (.inl h)⟩
    · obtain ⟨⟨p, r⟩, hRefused, rfl⟩ := List.mem_map.mp h
      obtain ⟨⟨p', reason⟩, hMem, hReason⟩ := List.mem_filterMap.mp hRefused
      obtain ⟨r', -, hPair⟩ := Option.map_eq_some_iff.mp hReason
      cases hPair
      obtain ⟨x, hx, hy⟩ := hForall.exists_left hMem
      obtain ⟨_, -, hPair⟩ := Except.bind_eq_ok_iff.mp hy
      cases hPair
      exact .inr ⟨hNot, .inr (.inr (List.mem_map_of_mem hx))⟩
  · rintro (h | ⟨hNot, h | h | h⟩)
    · exact .inl h
    · exact .inr ⟨.inl (.inl h), hNot⟩
    · exact .inr ⟨.inl (.inr h), hNot⟩
    · obtain ⟨p, hp, rfl⟩ := List.mem_map.mp h
      obtain ⟨y, hMem, hy⟩ := hForall.exists_right hp
      obtain ⟨reason, -, hPair⟩ := Except.bind_eq_ok_iff.mp hy
      cases hPair
      cases reason with
      | some r =>
          refine .inr ⟨.inr ?_, hNot⟩
          exact List.mem_map.mpr ⟨(p, r), List.mem_filterMap.mpr ⟨_, hMem, rfl⟩, rfl⟩
      | none =>
          -- A candidate that is not in the plan is in a conflict.
          by_contra hFree
          refine hNot (hEmitted.mpr ⟨?_, fun h => hFree (.inl h)⟩)
          exact List.mem_map.mpr
            ⟨p, List.mem_map.mpr ⟨(p, none), List.mem_filter.mpr ⟨hMem, rfl⟩, rfl⟩, rfl⟩

end Merging

section

variable {plans plans' : List EditPlan} {p q : Proposal} {id : String}
  {c : Extent × Text × EditKind}

/-- What merging comes to depends on what is in the plans, but not on their order. -/
theorem mem_copies_congr (h : plans.Perm plans') : p ∈ copies plans ↔ p ∈ copies plans' :=
  (h.flatMap_right _).mem_iff

theorem admits_congr (h : plans.Perm plans') : Admits plans id ↔ Admits plans' id := by
  simp only [Admits, Diverges, mem_copies_congr h, h.mem_iff]

theorem requested_congr (h : plans.Perm plans') (hOnce : ∀ p ∈ copies plans, p.AsksOnce) :
    Requested (gathered plans).candidates id c ↔ Requested (gathered plans').candidates id c := by
  rw [requested_candidates hOnce, requested_candidates fun p hp => hOnce p
    ((mem_copies_congr h).mpr hp), admits_congr h]
  simp only [Requested, mem_copies_congr h]

theorem involved_gathered (hOwn : ∀ p ∈ copies plans, p.OwnsEdits)
    (hOnce : ∀ p ∈ copies plans, p.AsksOnce) (hId : ¬ Diverges (copies plans) id) :
    id ∈ involved (gathered plans).conflicts ↔ ∃ plan ∈ plans, id ∈ involved plan.conflicts := by
  refine (gathered_recalls hOwn).involved_iff id fun hDiverged => hId ?_
  exact (mem_gathered_diverged hOnce).mp hDiverged

theorem contested_congr (h : plans.Perm plans') (hOwn : ∀ p ∈ copies plans, p.OwnsEdits)
    (hOnce : ∀ p ∈ copies plans, p.AsksOnce) (hId : ¬ Diverges (copies plans) id) :
    Contested (gathered plans).candidates (gathered plans).conflicts id ↔
      Contested (gathered plans').candidates (gathered plans').conflicts id := by
  have hOwn' : ∀ p ∈ copies plans', p.OwnsEdits := fun p hp => hOwn p ((mem_copies_congr h).mpr hp)
  have hOnce' : ∀ p ∈ copies plans', p.AsksOnce := fun p hp => hOnce p ((mem_copies_congr h).mpr hp)
  have hId' : ¬ Diverges (copies plans') id := by
    simpa only [Diverges, mem_copies_congr h] using hId
  rw [contested_iff, contested_iff, involved_gathered hOwn hOnce hId,
    involved_gathered hOwn' hOnce' hId']
  simp only [requested_congr h hOnce, h.mem_iff]

/-- What a merged plan says that holds what `plans` say, if candidates share changes freely. -/
structure Merges (plans : List EditPlan) (merged : EditPlan) : Prop where
  emitted : ∀ id, id ∈ merged.emitted ↔
    Admits plans id ∧ ¬ Contested (gathered plans).candidates (gathered plans).conflicts id
  withheld : ∀ id, id ∈ merged.withheld ↔
    Contested (gathered plans).candidates (gathered plans).conflicts id
      ∨ ¬ Admits plans id ∧ ((∃ plan ∈ plans, id ∈ plan.withheld) ∨ ∃ p ∈ copies plans, p.id = id)
  makes : ∀ c, merged.Makes c ↔ ∃ id ∈ merged.emitted, Requested (copies plans) id c

theorem merges_of_merge (hOwn : ∀ p ∈ copies plans, p.OwnsEdits)
    (hOnce : ∀ p ∈ copies plans, p.AsksOnce)
    (hShares : SharesFreely (gathered plans).candidates (gathered plans).conflicts)
    {merged : EditPlan} (h : merge plans = .ok merged) : Merges plans merged := by
  have hFinish : (gathered plans).finish = .ok merged := h
  have hCandidates : ∀ p ∈ (gathered plans).candidates, p.OwnsEdits := fun p hp =>
    (gathered_recalls hOwn).owns p (Merging.mem_candidates.mp hp).1
  obtain ⟨hEdits, hProposals, hConflicts⟩ := Merging.finish_eq_ok hFinish
  have hEmitted : ∀ id, id ∈ merged.emitted ↔
      Admits plans id ∧ ¬ Contested (gathered plans).candidates (gathered plans).conflicts id := by
    intro id
    rw [emitted, hProposals, ← emitted, mem_emitted_iff_not_contested hCandidates hShares,
      mem_candidate_ids hOnce]
  refine ⟨hEmitted, fun id => ?_, fun c => ?_⟩
  · rw [Merging.mem_withheld_finish hFinish, hConflicts, mem_involved_assemble hCandidates hShares,
      mem_ids_gathered, mem_gathered_withheld, mem_gathered_diverged hOnce, hEmitted]
    have hDiverges : Diverges (copies plans) id → ∃ p ∈ copies plans, p.id = id := by
      intro h
      obtain ⟨p, hp, _, _, hId, _⟩ := h
      exact ⟨p, hp, hId⟩
    rw [or_iff_right_of_imp hDiverges]
    by_cases hContested : Contested (gathered plans).candidates (gathered plans).conflicts id
    · simp only [hContested, true_or]
    · simp only [hContested, false_or, not_false_eq_true, and_true]
  · have hMakes : merged.Makes c ↔ (assemble (gathered plans).candidates []
        (gathered plans).conflicts).Makes c := by
      rw [Makes, Makes, hEdits]
    rw [hMakes, makes_iff_not_contested hCandidates hShares]
    have hRequested : ∀ id, Requested (gathered plans).candidates id c ↔ _ :=
      fun id => requested_candidates hOnce
    constructor
    · rintro ⟨p, hp, hc, hFree⟩
      obtain ⟨hAdmits, hCopies⟩ := (hRequested p.id).mp ⟨p, hp, rfl, hc⟩
      exact ⟨p.id, (hEmitted _).mpr ⟨hAdmits, hFree⟩, hCopies⟩
    · rintro ⟨id, hId, hCopies⟩
      obtain ⟨hAdmits, hFree⟩ := (hEmitted id).mp hId
      obtain ⟨p, hp, rfl, hc⟩ := (hRequested id).mpr ⟨hAdmits, hCopies⟩
      exact ⟨p, hp, hc, hFree⟩

theorem sharesFreely_congr (h : plans.Perm plans') (hOwn : ∀ p ∈ copies plans, p.OwnsEdits)
    (hOnce : ∀ p ∈ copies plans, p.AsksOnce)
    (hShares : SharesFreely (gathered plans).candidates (gathered plans).conflicts) :
    SharesFreely (gathered plans').candidates (gathered plans').conflicts := by
  rw [sharesFreely_iff] at hShares ⊢
  intro id other c hNe hId hOther
  rw [← requested_congr h hOnce] at hId hOther
  rw [← contested_congr h hOwn hOnce ((requested_candidates hOnce).mp hId).1.2.1]
  exact hShares id other c hNe hId hOther

/-- Plans cannot be merged exactly if the identifier of some proposal that nothing else speaks
against is none. -/
theorem exists_merge_eq_error (hOnce : ∀ p ∈ copies plans, p.AsksOnce) :
    (∃ fault, merge plans = .error fault) ↔ ∃ id, (∃ p ∈ copies plans, p.id = id)
      ∧ ¬ Diverges (copies plans) id ∧ (∀ plan ∈ plans, id ∉ plan.withheld)
      ∧ ∃ fault, ProposalId.parse id = .error fault := by
  have hFinish : (∃ fault, merge plans = .error fault) ↔ ∃ p ∈ (gathered plans).proposals,
      ∃ fault, (gathered plans).refusal? p = .error fault := Merging.finish_eq_error_iff
  rw [hFinish]
  simp only [Merging.exists_refusal?_eq_error, mem_gathered_diverged hOnce, mem_gathered_withheld,
    not_exists, not_and]
  constructor
  · rintro ⟨p, hp, h⟩
    exact ⟨p.id, mem_ids_gathered.mp (List.mem_map_of_mem hp), h⟩
  · rintro ⟨id, hId, h⟩
    obtain ⟨p, hp, rfl⟩ := List.mem_map.mp (mem_ids_gathered.mpr hId)
    exact ⟨p, hp, h⟩

/-- Plans may be merged in any order, if no proposal asks for a change twice and candidates share
changes freely: either no order can be merged, or all give the same proposals, hold back the same
ones and make the same changes. -/
theorem merge_perm (h : plans.Perm plans') (hOwn : ∀ p ∈ copies plans, p.OwnsEdits)
    (hOnce : ∀ p ∈ copies plans, p.AsksOnce)
    (hShares : SharesFreely (gathered plans).candidates (gathered plans).conflicts) :
    ((∃ fault, merge plans = .error fault) ∧ ∃ fault, merge plans' = .error fault)
      ∨ ∃ merged merged', merge plans = .ok merged ∧ merge plans' = .ok merged'
        ∧ (∀ id, id ∈ merged.emitted ↔ id ∈ merged'.emitted)
        ∧ (∀ id, id ∈ merged.withheld ↔ id ∈ merged'.withheld)
        ∧ ∀ c, merged.Makes c ↔ merged'.Makes c := by
  have hOwn' : ∀ p ∈ copies plans', p.OwnsEdits := fun p hp => hOwn p ((mem_copies_congr h).mpr hp)
  have hOnce' : ∀ p ∈ copies plans', p.AsksOnce := fun p hp => hOnce p ((mem_copies_congr h).mpr hp)
  have hErrors : (∃ fault, merge plans = .error fault) ↔ ∃ fault, merge plans' = .error fault := by
    rw [exists_merge_eq_error hOnce, exists_merge_eq_error hOnce']
    simp only [Diverges, mem_copies_congr h, h.mem_iff]
  cases hMerge : merge plans with
  | error fault => exact .inl ⟨⟨fault, rfl⟩, hErrors.mp ⟨fault, hMerge⟩⟩
  | ok merged =>
      cases hMerge' : merge plans' with
      | error fault =>
          obtain ⟨_, hFault⟩ := hErrors.mpr ⟨fault, hMerge'⟩
          rw [hMerge] at hFault
          cases hFault
      | ok merged' =>
          have hMerges := merges_of_merge hOwn hOnce hShares hMerge
          have hMerges' :=
            merges_of_merge hOwn' hOnce' (sharesFreely_congr h hOwn hOnce hShares) hMerge'
          have hEmitted : ∀ id, id ∈ merged.emitted ↔ id ∈ merged'.emitted := by
            intro id
            rw [hMerges.emitted, hMerges'.emitted, ← admits_congr h]
            refine and_congr_right fun hAdmits => ?_
            rw [contested_congr h hOwn hOnce hAdmits.2.1]
          refine .inr ⟨merged, merged', rfl, rfl, hEmitted, fun id => ?_, fun c => ?_⟩
          · rw [hMerges.withheld, hMerges'.withheld, ← admits_congr h]
            simp only [← mem_copies_congr h, ← h.mem_iff]
            by_cases hDiverges : Diverges (copies plans) id
            · have hCopy : ∃ p ∈ copies plans, p.id = id := by
                obtain ⟨p, hp, _, _, hId, _⟩ := hDiverges
                exact ⟨p, hp, hId⟩
              have hRefused : ¬ Admits plans id ∧ ((∃ plan ∈ plans, id ∈ plan.withheld)
                  ∨ ∃ p ∈ copies plans, p.id = id) := ⟨fun h => h.2.1 hDiverges, .inr hCopy⟩
              exact iff_of_true (.inr hRefused) (.inr hRefused)
            · rw [contested_congr h hOwn hOnce hDiverges]
          · rw [hMerges.makes, hMerges'.makes]
            simp only [hEmitted, Requested, mem_copies_congr h]

end

/-- The plan of a unit with one proposal. -/
def unitPlan (name : String) (line : Nat) (edits : List (Int × Int × String)) : EditPlan :=
  let id := "a.cpp::" ++ name ++ "::SimpleConstant::L" ++ toString line
  build [{ id, macroName := name, pattern := .simpleConstant, tier := .high
           edits := edits.map fun (start, stop, text) =>
           ⟨⟨"a.cpp", start, stop⟩, text, id, .replace⟩ }]
    [] .high []

/-- Two proposals that ask for one change, and two others that collide. -/
def freelySharingPlans : List EditPlan :=
  [unitPlan "A" 1 [(0, 4, "same"), (10, 20, "x")], unitPlan "B" 2 [(0, 4, "same")],
    unitPlan "C" 3 [(30, 40, "y")], unitPlan "D" 4 [(35, 36, "z")]]

theorem merge_perm_freelySharing :
    ∃ merged merged', merge freelySharingPlans = .ok merged
      ∧ merge freelySharingPlans.reverse = .ok merged'
      ∧ (∀ id, id ∈ merged.emitted ↔ id ∈ merged'.emitted)
      ∧ (∀ id, id ∈ merged.withheld ↔ id ∈ merged'.withheld)
      ∧ (∀ c, merged.Makes c ↔ merged'.Makes c)
      ∧ "a.cpp::B::SimpleConstant::L2" ∈ merged.emitted
      ∧ "a.cpp::C::SimpleConstant::L3" ∈ merged.withheld := by
  obtain ⟨merged, hMerged, hB, hC⟩ := Except.exists_of_passes (x := merge freelySharingPlans)
    (Q := fun merged => "a.cpp::B::SimpleConstant::L2" ∈ merged.emitted
      ∧ "a.cpp::C::SimpleConstant::L3" ∈ merged.withheld)
    (fun merged => decide ("a.cpp::B::SimpleConstant::L2" ∈ merged.emitted
      ∧ "a.cpp::C::SimpleConstant::L3" ∈ merged.withheld)) (by decide +kernel)
    fun _ _ => of_decide_eq_true
  rcases merge_perm (List.reverse_perm freelySharingPlans).symm (by decide +kernel)
    (by decide +kernel) (by decide +kernel) with
    ⟨⟨fault, hFault⟩, -⟩ | ⟨made, made', hMade, hMade', hEmitted, hWithheld, hMakes⟩
  · rw [hMerged] at hFault
    cases hFault
  · obtain rfl : made = merged := Except.ok.inj (hMade.symm.trans hMerged)
    exact ⟨made, made', hMade, hMade', hEmitted, hWithheld, hMakes, hB, hC⟩

/-- Two proposals that ask for one change, with which a third one collides. -/
def contestedPlans : List EditPlan :=
  [unitPlan "A" 1 [(0, 4, "same")], unitPlan "B" 2 [(0, 4, "same")], unitPlan "C" 3 [(2, 6, "z")]]

/-- Of the proposals that share the contested change, the one that comes second is in the plan. -/
theorem not_merge_perm_contested : ∃ merged merged', merge contestedPlans = .ok merged
    ∧ merge contestedPlans.reverse = .ok merged'
    ∧ merged.emitted = ["a.cpp::B::SimpleConstant::L2"]
    ∧ merged'.emitted = ["a.cpp::A::SimpleConstant::L1"]
    ∧ ¬ ∀ id, id ∈ merged.withheld ↔ id ∈ merged'.withheld := by
  obtain ⟨merged, hMerged, hEmitted, hWithheld⟩ := Except.exists_of_passes
    (x := merge contestedPlans)
    (Q := fun merged => merged.emitted = ["a.cpp::B::SimpleConstant::L2"]
      ∧ "a.cpp::A::SimpleConstant::L1" ∈ merged.withheld)
    (fun merged => decide (merged.emitted = ["a.cpp::B::SimpleConstant::L2"]
      ∧ "a.cpp::A::SimpleConstant::L1" ∈ merged.withheld)) (by decide +kernel)
    fun _ _ => of_decide_eq_true
  obtain ⟨merged', hMerged', hEmitted', hWithheld'⟩ := Except.exists_of_passes
    (x := merge contestedPlans.reverse)
    (Q := fun merged => merged.emitted = ["a.cpp::A::SimpleConstant::L1"]
      ∧ "a.cpp::A::SimpleConstant::L1" ∉ merged.withheld)
    (fun merged => decide (merged.emitted = ["a.cpp::A::SimpleConstant::L1"]
      ∧ "a.cpp::A::SimpleConstant::L1" ∉ merged.withheld)) (by decide +kernel)
    fun _ _ => of_decide_eq_true
  exact ⟨merged, merged', hMerged, hMerged', hEmitted, hEmitted',
    fun h => hWithheld' ((h _).mp hWithheld)⟩

end Demacro.EditPlan
