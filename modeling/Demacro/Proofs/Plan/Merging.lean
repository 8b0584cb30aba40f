import Demacro.Plan
import Demacro.Plan.Merge
import Demacro.Proofs.Lists
import Demacro.Proofs.Success
import Mathlib.Data.List.Nodup

/-!
The edits of an assembled plan. Of several edits that make the same change the first stands for all,
so a change is made exactly if the proposal of the first one is in the plan. Where plans are merged,
what some unit holds back is remembered whatever comes later, and the merged copy of a proposal has
the edits of all copies that agree; the merged plan is assembled from the proposals that nothing
speaks against.
-/

namespace Demacro

namespace Edit

/-- What an edit does to its file. -/
def change (e : Edit) : Extent × Text × EditKind :=
  (e.toExtent, e.text, e.kind)

theorem sameChange_iff {d e : Edit} : d.sameChange e = true ↔ d.change = e.change := by
  simp [sameChange, change, and_assoc]

end Edit

namespace EditPlan

section

variable {candidates : List Proposal} {report : List ReportEntry} {known : List Conflict} {e : Edit}
  {c : Extent × Text × EditKind}

/-- All edits of a plan. -/
def allEdits (p : EditPlan) : List Edit :=
  p.edits.flatMap Prod.snd

/-- A plan makes a change if one of its edits does. -/
def Makes (p : EditPlan) (c : Extent × Text × EditKind) : Prop :=
  ∃ e ∈ p.allEdits, e.change = c

/-- The first edit among those of some proposals that makes a change. -/
def firstMaking? (proposals : List Proposal) (c : Extent × Text × EditKind) : Option Edit :=
  (proposals.flatMap Proposal.edits).find? (decide <| ·.change = c)

private theorem foldl_pool (acc es : List Edit) (hAcc : (acc.map Edit.change).Nodup) :
    let all := es.foldl (fun es e => if es.any (·.sameChange e) then es else es ++ [e]) acc
    (all.map Edit.change).Nodup
      ∧ (∀ e ∈ all, e ∈ acc ∨ e ∈ es)
      ∧ ∀ c, all.find? (decide <| ·.change = c) = (acc ++ es).find? (decide <| ·.change = c) := by
  induction es generalizing acc with
  | nil => simp [hAcc]
  | cons x es ih =>
      rw [List.foldl_cons]
      by_cases hKnown : acc.any (·.sameChange x) = true
      · rw [if_pos hKnown]
        obtain ⟨hNodup, hMem, hFind⟩ := ih acc hAcc
        refine ⟨hNodup, fun e he => (hMem e he).imp_right (List.mem_cons_of_mem x), fun c => ?_⟩
        rw [hFind, List.find?_append, List.find?_append, List.find?_cons]
        split
        · rename_i hx
          obtain ⟨y, hy, hSame⟩ := List.any_eq_true.mp hKnown
          have hFound : (acc.find? (decide <| ·.change = c)).isSome = true := by
            refine List.find?_isSome.mpr ⟨y, hy, ?_⟩
            rw [Edit.sameChange_iff.mp hSame]
            exact hx
          obtain ⟨z, hz⟩ := Option.isSome_iff_exists.mp hFound
          rw [hz]
          rfl
        · rfl
      · rw [if_neg hKnown]
        have hNew : x.change ∉ acc.map Edit.change := by
          intro hx
          obtain ⟨y, hy, hSame⟩ := List.mem_map.mp hx
          exact hKnown (List.any_eq_true.mpr ⟨y, hy, Edit.sameChange_iff.mpr hSame⟩)
        have hNext : ((acc ++ [x]).map Edit.change).Nodup := by
          rw [List.map_append, List.map_singleton]
          exact List.nodup_append.mpr ⟨hAcc, List.nodup_singleton _, by grind⟩
        obtain ⟨hNodup, hMem, hFind⟩ := ih (acc ++ [x]) hNext
        refine ⟨hNodup, fun e he => ?_, fun c => ?_⟩
        · rcases hMem e he with h | h
          · rcases List.mem_append.mp h with h | h
            · exact .inl h
            · exact .inr (List.mem_singleton.mp h ▸ List.mem_cons_self)
          · exact .inr (List.mem_cons_of_mem x h)
        · rw [hFind, List.append_assoc, List.singleton_append]

theorem mem_pool (h : e ∈ pool candidates) : ∃ p ∈ candidates, e ∈ p.edits := by
  have hMem := (foldl_pool [] _ .nil).2.1 e h
  simpa using hMem

theorem changes_pool_nodup (candidates : List Proposal) :
    ((pool candidates).map Edit.change).Nodup :=
  (foldl_pool [] _ .nil).1

/-- The pool holds one edit for each change, the first that makes it. -/
theorem mem_pool_iff : e ∈ pool candidates ↔ firstMaking? candidates e.change = some e := by
  obtain ⟨hNodup, -, hFind⟩ := foldl_pool [] (candidates.flatMap Proposal.edits) .nil
  have hFirst : firstMaking? candidates e.change = (pool candidates).find? (decide <|
      ·.change = e.change) :=
    (hFind e.change).symm
  rw [hFirst]
  constructor
  · intro h
    obtain ⟨d, hd⟩ := Option.isSome_iff_exists.mp
      (List.find?_isSome (p := (decide <| ·.change = e.change)).mpr ⟨e, h, by simp⟩)
    have hSame : d.change = e.change := by simpa using List.find?_some hd
    rw [hd, List.inj_on_of_nodup_map hNodup (List.mem_of_find?_eq_some hd) h hSame]
  · exact List.mem_of_find?_eq_some

/-- Sorting edits by their files loses none of them. -/
theorem mem_byPath (es : List Edit) : (∃ file ∈ byPath es, e ∈ file.2) ↔ e ∈ es := by
  simp only [byPath, List.mem_map, List.mem_eraseDups]
  constructor
  · rintro ⟨file, ⟨path, -, rfl⟩, he⟩
    rw [Edit.sorted, Sorting.mem_sort] at he
    exact (List.mem_filter.mp he).1
  · intro he
    refine ⟨_, ⟨e.path, ⟨e, he, rfl⟩, rfl⟩, ?_⟩
    rw [Edit.sorted, Sorting.mem_sort]
    exact List.mem_filter.mpr ⟨he, by simp⟩

private theorem mem_kept {files : List (String × List Edit)} (keep : Edit → Bool) :
    e ∈ ((files.map fun (path, es) => (path, es.filter keep)).filter fun (_, es) =>
      !es.isEmpty).flatMap
        Prod.snd ↔ ∃ file ∈ files, e ∈ file.2 ∧ keep e = true := by
  simp only [List.mem_flatMap, List.mem_filter, List.mem_map]
  constructor
  · rintro ⟨kept, ⟨⟨file, hFile, rfl⟩, -⟩, he⟩
    exact ⟨file, hFile, List.mem_filter.mp he⟩
  · rintro ⟨file, hFile, he⟩
    have hStays := List.mem_filter.mpr he
    exact ⟨_, ⟨⟨file, hFile, rfl⟩, by simpa using List.ne_nil_of_mem hStays⟩, hStays⟩

/-- The edits of an assembled plan are those of the pool whose proposals are in the plan. -/
theorem mem_allEdits_assemble : e ∈ (assemble candidates report known).allEdits ↔
    e ∈ pool candidates ∧ e.proposal ∈ (assemble candidates report known).emitted := by
  have hSorted : e ∈ (assemble candidates report known).allEdits ↔
    ∃ file ∈ byPath (pool candidates),
      e ∈ file.2 ∧ (assemble candidates report known).emitted.contains e.proposal = true := by
    refine Iff.trans ?_ (mem_kept
      fun e => (assemble candidates report known).emitted.contains e.proposal)
    simp only [allEdits, assemble, emitted, List.mem_flatMap, Sorting.mem_sort]
  rw [hSorted, ← mem_byPath (pool candidates), List.contains_iff_mem]
  constructor
  · rintro ⟨file, hFile, he, hOwner⟩
    exact ⟨⟨file, hFile, he⟩, hOwner⟩
  · rintro ⟨⟨file, hFile, he⟩, hOwner⟩
    exact ⟨file, hFile, he, hOwner⟩

/-- A change is in an assembled plan exactly if the proposal of the first edit that makes it is. -/
theorem makes_assemble : (assemble candidates report known).Makes c ↔
    ∃ e, firstMaking? candidates c = some e
      ∧ e.proposal ∈ (assemble candidates report known).emitted := by
  constructor
  · rintro ⟨e, he, rfl⟩
    obtain ⟨hPool, hOwner⟩ := mem_allEdits_assemble.mp he
    exact ⟨e, mem_pool_iff.mp hPool, hOwner⟩
  · rintro ⟨e, hFirst, hOwner⟩
    have hChange : e.change = c := by simpa using List.find?_some hFirst
    exact ⟨e, mem_allEdits_assemble.mpr ⟨mem_pool_iff.mpr (hChange ▸ hFirst), hOwner⟩, hChange⟩

/-- A proposal is in an assembled plan if it is a candidate and in no conflict. -/
theorem mem_emitted_assemble {id : String} : id ∈ (assemble candidates report known).emitted ↔
    id ∈ candidates.map Proposal.id
      ∧ id ∉ (partners (assemble candidates report known).conflicts).map Prod.fst := by
  rw [← lookup_eq_none_iff_notMem, ← Option.isNone_iff_eq_none]
  simp only [emitted, assemble, List.mem_map, List.mem_filter]
  constructor
  · rintro ⟨p, ⟨hp, hNone⟩, rfl⟩
    exact ⟨⟨p, hp, rfl⟩, hNone⟩
  · rintro ⟨⟨p, hp, rfl⟩, hNone⟩
    exact ⟨p, ⟨hp, hNone⟩, rfl⟩

end

/-- What the plans of several units say together. -/
def gathered (plans : List EditPlan) : Merging :=
  plans.foldl Merging.addPlan {}

/-- The definitions of a plan that follow no pattern. -/
def blockedSites (p : EditPlan) : List DefinitionSite :=
  p.blocked.map Prod.fst

namespace Merging

variable {m : Merging} {p q : Proposal} {plan : EditPlan} {plans : List EditPlan} {id : String}
  {site : DefinitionSite} {e : Edit}

/-- The proposals that nothing speaks against. -/
def candidates (m : Merging) : List Proposal :=
  m.proposals.filter fun p =>
    match m.refusal? p with
    | .ok none => true
    | _ => false

theorem addProposal_withheld : (m.addProposal p).withheld = m.withheld := by
  unfold addProposal
  split
  · rfl
  · split <;> rfl

theorem addProposal_blocked : (m.addProposal p).blocked = m.blocked := by
  unfold addProposal
  split
  · rfl
  · split <;> rfl

theorem addProposal_report : (m.addProposal p).report = m.report := by
  unfold addProposal
  split
  · rfl
  · split <;> rfl

private theorem foldl_addProposal (m : Merging) (proposals : List Proposal) :
    (proposals.foldl addProposal m).withheld = m.withheld
      ∧ (proposals.foldl addProposal m).blocked = m.blocked
      ∧ (proposals.foldl addProposal m).report = m.report := by
  induction proposals generalizing m with
  | nil => exact ⟨rfl, rfl, rfl⟩
  | cons p proposals ih =>
      rw [List.foldl_cons, (ih _).1, (ih _).2.1, (ih _).2.2, addProposal_withheld,
        addProposal_blocked, addProposal_report]
      exact ⟨rfl, rfl, rfl⟩

theorem mem_addPlan_withheld : id ∈ (m.addPlan plan).withheld ↔
    id ∈ m.withheld ∨ id ∈ plan.withheld := by
  rw [addPlan, (foldl_addProposal _ _).1]
  exact mem_appendNew

theorem mem_addPlan_report {entry : ReportEntry} : entry ∈ (m.addPlan plan).report ↔
    entry ∈ m.report ∨ entry ∈ plan.report := by
  rw [addPlan, (foldl_addProposal _ _).2.2]
  exact mem_appendNew

private theorem mem_blocked_foldl (sites others : List (DefinitionSite × Text)) :
    site ∈ (others.foldl (fun sites b => if sites.any (·.1 == b.1) then sites else sites ++ [b])
        sites).map Prod.fst ↔ site ∈ sites.map Prod.fst ∨ site ∈ others.map Prod.fst := by
  induction others generalizing sites with
  | nil => simp
  | cons b others ih =>
      rw [List.foldl_cons, ih, List.map_cons, List.mem_cons]
      split
      · rename_i hKnown
        obtain ⟨known, hMem, hSite⟩ := List.any_eq_true.mp hKnown
        have hb : b.1 ∈ sites.map Prod.fst := List.mem_map.mpr ⟨known, hMem, eq_of_beq hSite⟩
        constructor
        · tauto
        · rintro (h | rfl | h)
          · exact .inl h
          · exact .inl hb
          · exact .inr h
      · rw [List.map_append, List.mem_append, List.map_singleton, List.mem_singleton, or_assoc]

theorem mem_addPlan_blocked : site ∈ (m.addPlan plan).blocked.map Prod.fst ↔
    site ∈ m.blocked.map Prod.fst ∨ site ∈ plan.blockedSites := by
  rw [addPlan, (foldl_addProposal _ _).2.1]
  exact mem_blocked_foldl _ _

/-- What the merging of some copies of proposals holds: only proposals and edits of the copies, and
all edits of those that agree. -/
structure Gathers (m : Merging) (copies : List Proposal) : Prop where
  named : ∀ q ∈ m.proposals, ∃ p ∈ copies, p.id = q.id ∧ p.macroName = q.macroName
  sound : ∀ q ∈ m.proposals, ∀ e ∈ q.edits, ∃ p ∈ copies, p.id = q.id ∧ e ∈ p.edits
  complete : ∀ p ∈ copies, p.id ∈ m.diverged ∨
    ∃ q ∈ m.proposals, q.id = p.id ∧ ∀ e ∈ p.edits, ∃ d ∈ q.edits, d.change = e.change

theorem mem_union : e ∈ (q.union p).edits → e ∈ q.edits ∨ e ∈ p.edits := by
  intro h
  exact (List.mem_append.mp h).imp_right fun h => (List.mem_filter.mp h).1

theorem exists_mem_union (h : e ∈ q.edits ∨ e ∈ p.edits) :
    ∃ d ∈ (q.union p).edits, d.change = e.change := by
  by_cases hKnown : q.edits.any (e.sameChange ·) = true
  · obtain ⟨d, hd, hSame⟩ := List.any_eq_true.mp hKnown
    exact ⟨d, List.mem_append_left _ hd, (Edit.sameChange_iff.mp hSame).symm⟩
  · refine ⟨e, ?_, rfl⟩
    rcases h with h | h
    · exact List.mem_append_left _ h
    · exact List.mem_append_right _ (List.mem_filter.mpr ⟨h, by simpa using hKnown⟩)

theorem Gathers.addProposal {copies : List Proposal} (h : m.Gathers copies) (p : Proposal) :
    (m.addProposal p).Gathers (copies ++ [p]) := by
  have hOld : ∀ {P : Proposal → Prop}, (∃ x ∈ copies, P x) → ∃ x ∈ copies ++ [p], P x :=
    fun ⟨x, hx, hP⟩ => ⟨x, List.mem_append_left _ hx, hP⟩
  unfold Merging.addProposal
  split
  · refine ⟨fun q hq => ?_, fun q hq e he => ?_, fun x hx => ?_⟩
    · rcases List.mem_append.mp hq with hq | hq
      · exact hOld (h.named q hq)
      · obtain rfl := List.mem_singleton.mp hq
        exact ⟨q, by simp, rfl, rfl⟩
    · rcases List.mem_append.mp hq with hq | hq
      · exact hOld (h.sound q hq e he)
      · obtain rfl := List.mem_singleton.mp hq
        exact ⟨q, by simp, rfl, he⟩
    · rcases List.mem_append.mp hx with hx | hx
      · refine (h.complete x hx).imp_right fun ⟨q, hq, hId, hEdits⟩ => ?_
        exact ⟨q, List.mem_append_left _ hq, hId, hEdits⟩
      · obtain rfl := List.mem_singleton.mp hx
        exact .inr ⟨x, by simp, rfl, fun e he => ⟨e, he, rfl⟩⟩
  rename_i known hKnown
  have hKnownId : known.id = p.id := by simpa using List.find?_some hKnown
  split
  · refine ⟨fun q hq => ?_, fun q hq e he => ?_, fun x hx => ?_⟩
    · obtain ⟨old, hOldMem, rfl⟩ := List.mem_map.mp hq
      split
      · exact hOld (h.named old hOldMem)
      · exact hOld (h.named old hOldMem)
    · obtain ⟨old, hOldMem, rfl⟩ := List.mem_map.mp hq
      by_cases hId : old.id = p.id
      · rw [if_pos hId] at he ⊢
        rcases mem_union he with he | he
        · exact hOld (h.sound old hOldMem e he)
        · exact ⟨p, by simp, hId.symm, he⟩
      · rw [if_neg hId] at he ⊢
        exact hOld (h.sound old hOldMem e he)
    · rcases List.mem_append.mp hx with hx | hx
      · refine (h.complete x hx).imp_right fun ⟨q, hq, hId, hEdits⟩ => ?_
        refine ⟨_, List.mem_map.mpr ⟨q, hq, rfl⟩, ?_⟩
        split
        · refine ⟨hId, fun e he => ?_⟩
          obtain ⟨d, hd, hSame⟩ := hEdits e he
          obtain ⟨d', hd', hSame'⟩ := exists_mem_union (p := p) (.inl hd)
          exact ⟨d', hd', hSame'.trans hSame⟩
        · exact ⟨hId, hEdits⟩
      · obtain rfl := List.mem_singleton.mp hx
        refine .inr ⟨_, List.mem_map.mpr ⟨known, List.mem_of_find?_eq_some hKnown, rfl⟩, ?_⟩
        rw [if_pos hKnownId]
        exact ⟨hKnownId, fun e he => exists_mem_union (.inr he)⟩
  · refine ⟨fun q hq => hOld (h.named q hq), fun q hq e he => hOld (h.sound q hq e he),
      fun x hx => ?_⟩
    rcases List.mem_append.mp hx with hx | hx
    · exact (h.complete x hx).imp_left fun hDiverged => mem_appendNew.mpr (.inl hDiverged)
    · obtain rfl := List.mem_singleton.mp hx
      exact .inl (mem_appendNew.mpr (.inr (by simp)))

theorem Gathers.addPlan {copies : List Proposal} (h : m.Gathers copies) (plan : EditPlan) :
    (m.addPlan plan).Gathers (copies ++ plan.proposals) := by
  have hFold : ∀ (m : Merging) (copies proposals : List Proposal), m.Gathers copies →
      (proposals.foldl Merging.addProposal m).Gathers (copies ++ proposals) := by
    intro m copies proposals h
    induction proposals generalizing m copies with
    | nil => simpa using h
    | cons p proposals ih =>
        rw [List.foldl_cons, List.append_cons]
        exact ih _ _ (h.addProposal p)
  exact hFold _ copies plan.proposals ⟨h.named, h.sound, h.complete⟩

theorem refusal?_eq_none : m.refusal? p = .ok none ↔
    p.id ∉ m.diverged ∧ p.id ∉ m.withheld
      ∧ ∃ id, ProposalId.parse p.id = .ok id
        ∧ ⟨id.path, id.macroName, id.line⟩ ∉ m.blocked.map Prod.fst := by
  unfold refusal?
  split
  · rename_i hDiverged
    simp [List.contains_iff_mem.mp hDiverged]
  split
  · rename_i hWithheld
    simp [List.contains_iff_mem.mp hWithheld]
  rename_i hDiverged hWithheld
  rw [List.contains_iff_mem] at hDiverged hWithheld
  simp only [hDiverged, hWithheld, not_false_eq_true, true_and]
  cases ProposalId.parse p.id with
  | error fault => simp [bind, Except.bind]
  | ok id =>
      have hBlocked : m.blocked.lookup ⟨id.path, id.macroName, id.line⟩ = none ↔ _ :=
        lookup_eq_none_iff_notMem
      simp only [bind, Except.bind, pure, Except.pure, Except.ok.injEq, Option.map_eq_none_iff,
        hBlocked, exists_eq_left']

theorem mem_candidates : q ∈ m.candidates ↔ q ∈ m.proposals ∧ m.refusal? q = .ok none := by
  rw [candidates, List.mem_filter]
  refine and_congr_right fun _ => ?_
  split
  · simp_all
  · simp_all

theorem map_fst_filter_judged {proposals : List Proposal}
    {judged : List (Proposal × Option Text)}
    (h : List.Forall₂ (fun p y => (do return (p, ← m.refusal? p)) = .ok y) proposals judged) :
    (judged.filter fun (_, reason) => reason.isNone).map Prod.fst = proposals.filter fun p =>
      match m.refusal? p with
      | .ok none => true
      | _ => false := by
  induction h with
  | nil => rfl
  | @cons p y _ _ hHead _ ih =>
      obtain ⟨reason, hReason, hy⟩ := Except.bind_eq_ok_iff.mp hHead
      cases hy
      rw [List.filter_cons, List.filter_cons, hReason]
      cases reason <;> simpa using ih

/-- The merged plan is assembled from the candidates. -/
theorem exists_assemble_of_finish {merged : EditPlan} (h : m.finish = .ok merged) :
    ∃ report withheld, merged =
      { assemble m.candidates report m.conflicts with withheld, blocked := m.blocked } := by
  obtain ⟨judged, hJudged, h⟩ := Except.bind_eq_ok_iff.mp h
  have hCandidates := map_fst_filter_judged (Except.mapM_eq_ok_iff.mp hJudged)
  cases h
  rw [candidates, ← hCandidates]
  exact ⟨_, _, rfl⟩

theorem finish_eq_ok {merged : EditPlan} (h : m.finish = .ok merged) :
    merged.allEdits = (assemble m.candidates [] m.conflicts).allEdits
      ∧ merged.proposals = (assemble m.candidates [] m.conflicts).proposals
      ∧ merged.conflicts = (assemble m.candidates [] m.conflicts).conflicts := by
  obtain ⟨_, _, rfl⟩ := exists_assemble_of_finish h
  exact ⟨rfl, rfl, rfl⟩

theorem parse_eq_error_of_refusal? {fault : ProposalIdFault} (h : m.refusal? p = .error fault) :
    ProposalId.parse p.id = .error fault := by
  unfold refusal? at h
  split at h
  · cases h
  split at h
  · cases h
  rcases Except.bind_eq_error_iff.mp h with hParse | ⟨id, -, h⟩
  · exact hParse
  · cases h

/-- Only an identifier that is none keeps plans from being merged. -/
theorem exists_fault_of_finish {fault : ProposalIdFault} (h : m.finish = .error fault) :
    ∃ p ∈ m.proposals, ProposalId.parse p.id = .error fault := by
  rcases Except.bind_eq_error_iff.mp h with hJudged | ⟨judged, -, h⟩
  · obtain ⟨p, hp, hFault⟩ := Except.exists_of_mapM_eq_error hJudged
    rcases Except.bind_eq_error_iff.mp hFault with hRefusal | ⟨reason, -, h⟩
    · exact ⟨p, hp, parse_eq_error_of_refusal? hRefusal⟩
    · cases h
  · cases h

/-- A copy of a proposal that is taken in adds its identifier. -/
theorem mem_addProposal_ids : id ∈ (m.addProposal p).proposals.map Proposal.id ↔
    id ∈ m.proposals.map Proposal.id ∨ id = p.id := by
  unfold addProposal
  split
  · rw [List.map_append, List.mem_append, List.map_singleton, List.mem_singleton]
  · rename_i known hKnown
    have hOwn : p.id ∈ m.proposals.map Proposal.id :=
      List.mem_map.mpr ⟨known, List.mem_of_find?_eq_some hKnown,
        by simpa using List.find?_some hKnown⟩
    have hSame : (id ∈ m.proposals.map Proposal.id ∨ id = p.id) ↔
        id ∈ m.proposals.map Proposal.id :=
      or_iff_left_of_imp fun h => h ▸ hOwn
    rw [hSame]
    split
    · have hIds : Proposal.id ∘ (fun q => if q.id = p.id then q.union p else q) = Proposal.id := by
        funext q
        dsimp only [Function.comp_apply]
        split <;> rfl
      rw [List.map_map, hIds]
    · rfl

theorem mem_addPlan_ids : id ∈ (m.addPlan plan).proposals.map Proposal.id ↔
    id ∈ m.proposals.map Proposal.id ∨ id ∈ plan.emitted := by
  have hFold : ∀ (m : Merging) (proposals : List Proposal),
      id ∈ (proposals.foldl addProposal m).proposals.map Proposal.id ↔
        id ∈ m.proposals.map Proposal.id ∨ id ∈ proposals.map Proposal.id := by
    intro m proposals
    induction proposals generalizing m with
    | nil => simp
    | cons p proposals ih =>
        rw [List.foldl_cons, ih, mem_addProposal_ids, List.map_cons, List.mem_cons, or_assoc]
  exact hFold _ plan.proposals

end Merging

section

variable {plans : List EditPlan} {merged : EditPlan}

/-- What holds of a fold over plans if each step adds what its plan says. -/
private theorem mem_foldl_addPlan {α : Type} (plans : List EditPlan) (ofMerging : Merging → List α)
    (ofPlan : EditPlan → List α) (hStep : ∀ m plan x, x ∈ ofMerging (m.addPlan plan) ↔
      x ∈ ofMerging m ∨ x ∈ ofPlan plan)
    (m : Merging) (x : α) :
    x ∈ ofMerging (plans.foldl Merging.addPlan m) ↔
      x ∈ ofMerging m ∨ ∃ p ∈ plans, x ∈ ofPlan p := by
  induction plans generalizing m with
  | nil => simp
  | cons p plans ih =>
      rw [List.foldl_cons, ih, hStep, or_assoc]
      simp

theorem mem_gathered_withheld {id : String} :
    id ∈ (gathered plans).withheld ↔ ∃ p ∈ plans, id ∈ p.withheld := by
  have hFold := mem_foldl_addPlan plans Merging.withheld EditPlan.withheld
    (fun _ _ _ => Merging.mem_addPlan_withheld) {} id
  simpa [gathered] using hFold

theorem mem_gathered_report {entry : ReportEntry} :
    entry ∈ (gathered plans).report ↔ ∃ p ∈ plans, entry ∈ p.report := by
  have hFold := mem_foldl_addPlan plans Merging.report EditPlan.report
    (fun _ _ _ => Merging.mem_addPlan_report) {} entry
  simpa [gathered] using hFold

theorem mem_gathered_blocked {site : DefinitionSite} :
    site ∈ (gathered plans).blocked.map Prod.fst ↔ ∃ p ∈ plans, site ∈ p.blockedSites := by
  have hFold := mem_foldl_addPlan plans (fun m => m.blocked.map Prod.fst) blockedSites
    (fun _ _ _ => Merging.mem_addPlan_blocked) {} site
  simpa [gathered] using hFold

/-- The proposals gathered are those of the plans, by their identifiers. -/
theorem mem_gathered_ids {id : String} :
    id ∈ (gathered plans).proposals.map Proposal.id ↔ ∃ p ∈ plans, id ∈ p.emitted := by
  have hFold := mem_foldl_addPlan plans (fun m => m.proposals.map Proposal.id) EditPlan.emitted
    (fun _ _ _ => Merging.mem_addPlan_ids) {} id
  simpa [gathered] using hFold

private theorem foldl_gathers {m : Merging} {copies : List Proposal} (h : m.Gathers copies) :
    (plans.foldl Merging.addPlan m).Gathers (copies ++ plans.flatMap EditPlan.proposals) := by
  induction plans generalizing m copies with
  | nil => simpa using h
  | cons p plans ih =>
      rw [List.foldl_cons, List.flatMap_cons, ← List.append_assoc]
      exact ih (h.addPlan p)

theorem gathered_gathers (plans : List EditPlan) :
    (gathered plans).Gathers (plans.flatMap EditPlan.proposals) := by
  have hEmpty : ({} : Merging).Gathers [] :=
    ⟨by simp, by simp, by simp⟩
  exact foldl_gathers hEmpty

/-- Plans are merged unless some identifier is none. -/
theorem merge_total (plans : List EditPlan) :
    (∃ plan ∈ plans, ∃ p ∈ plan.proposals, ∃ fault, ProposalId.parse p.id = .error fault)
      ∨ ∃ merged, merge plans = .ok merged := by
  cases hMerged : merge plans with
  | error fault =>
      obtain ⟨q, hq, hFault⟩ := Merging.exists_fault_of_finish hMerged
      obtain ⟨plan, hPlan, hId⟩ := mem_gathered_ids.mp (List.mem_map_of_mem hq)
      obtain ⟨p, hp, hSame⟩ := List.mem_map.mp hId
      exact .inl ⟨plan, hPlan, p, hp, fault, hSame ▸ hFault⟩
  | ok merged => exact .inr ⟨merged, rfl⟩

/-- Merged plans are assembled from the candidates that were gathered. -/
theorem exists_assemble_of_merge (h : merge plans = .ok merged) : ∃ report withheld, merged =
    { assemble (gathered plans).candidates report (gathered plans).conflicts with
      withheld, blocked := (gathered plans).blocked } :=
  Merging.exists_assemble_of_finish h

end

end EditPlan

end Demacro
