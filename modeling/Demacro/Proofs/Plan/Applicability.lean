import Demacro.Proofs.Edit
import Demacro.Proofs.Plan.Merging
import Mathlib.Data.List.Pairwise

/-!
Plans can be carried out. The search for conflicts stops early at each edit, but misses none in a
list in order; so of two edits of a plan that overlapped one would belong to a proposal in a
conflict, and such proposals are not in the plan.
-/

namespace Demacro.EditPlan

section

variable {d : Edit} {es : List Edit} {c : Conflict}

theorem mem_conflictsOf (hSorted : es.Pairwise (·.start ≤ ·.start)) :
    c ∈ conflictsOf d es ↔ ∃ e ∈ es, d.overlaps e = true ∧ c = ⟨d.path, d, e⟩ := by
  induction es with
  | nil => simp [conflictsOf]
  | cons e es ih =>
      obtain ⟨hFirst, hRest⟩ := List.pairwise_cons.mp hSorted
      unfold conflictsOf
      split
      · rename_i hBehind
        -- Whatever stands behind this edit starts even later.
        have hNone : ∀ f ∈ e :: es, d.overlaps f = false := by
          intro f hf
          refine Edit.overlaps_eq_false_of_stop_lt ?_
          rcases List.mem_cons.mp hf with rfl | hf
          · exact hBehind
          · exact Int.lt_of_lt_of_le hBehind (hFirst f hf)
        refine iff_of_false List.not_mem_nil ?_
        rintro ⟨f, hf, hOverlaps, -⟩
        rw [hNone f hf] at hOverlaps
        cases hOverlaps
      · split
        · rename_i hOverlaps
          rw [List.mem_cons, ih hRest, List.exists_mem_cons_iff]
          simp [hOverlaps]
        · rename_i hOverlaps
          rw [ih hRest, List.exists_mem_cons_iff]
          simp [hOverlaps]

/-- In a list in order each two edits that overlap are found, the first of them in front. -/
theorem mem_conflictsIn (hSorted : es.Pairwise (·.start ≤ ·.start)) : c ∈ conflictsIn es ↔
    [c.first, c.second].Sublist es ∧ c.first.overlaps c.second = true ∧ c.path = c.first.path := by
  obtain ⟨path, d, e⟩ := c
  induction es with
  | nil => simp [conflictsIn]
  | cons f es ih =>
      obtain ⟨-, hRest⟩ := List.pairwise_cons.mp hSorted
      rw [conflictsIn, List.mem_append, mem_conflictsOf hRest, ih hRest, List.cons_sublist_cons',
        List.singleton_sublist]
      dsimp only
      constructor
      · rintro (⟨g, hg, hOverlaps, hEq⟩ | ⟨hSublist, hRest⟩)
        · cases hEq
          exact ⟨.inr ⟨rfl, hg⟩, hOverlaps, rfl⟩
        · exact ⟨.inl hSublist, hRest⟩
      · rintro ⟨hSublist | ⟨rfl, he⟩, hOverlaps, hPath⟩
        · exact .inr ⟨hSublist, hOverlaps, hPath⟩
        · exact .inl ⟨e, he, hOverlaps, by rw [hPath]⟩

end

/-- Of two elements of a list one stands in front of the other. -/
private theorem pair_sublist {α : Type} {a b : α} {as : List α} (ha : a ∈ as) (hb : b ∈ as)
    (hNe : a ≠ b) : [a, b].Sublist as ∨ [b, a].Sublist as := by
  induction as with
  | nil => cases ha
  | cons x as ih =>
      rcases List.mem_cons.mp ha with rfl | ha'
      · have hb' := List.mem_of_ne_of_mem hNe.symm hb
        exact .inl ((List.singleton_sublist.mpr hb').cons_cons a)
      · rcases List.mem_cons.mp hb with rfl | hb'
        · exact .inr ((List.singleton_sublist.mpr ha').cons_cons b)
        · exact (ih ha' hb').imp (·.cons x) (·.cons x)

variable {candidates : List Proposal} {report : List ReportEntry} {known : List Conflict}
  {path : String} {c : Conflict} {d e : Edit}

/-- The edits of one file among those of some proposals in order, each change once. -/
def fileEdits (candidates : List Proposal) (path : String) : List Edit :=
  Edit.sorted ((pool candidates).filter (·.path == path))

theorem mem_fileEdits : e ∈ fileEdits candidates path ↔ e ∈ pool candidates ∧ e.path = path := by
  rw [fileEdits, Edit.sorted, Sorting.mem_sort, List.mem_filter, beq_iff_eq]

theorem fileEdits_pairwise : (fileEdits candidates path).Pairwise (·.key ≤ ·.key) :=
  Edit.sorted_pairwise _

theorem starts_pairwise :
    ((fileEdits candidates path).filter (!·.isAppend)).Pairwise (·.start ≤ ·.start) := by
  refine (fileEdits_pairwise.filter _).imp_of_mem fun {d e} hd he hKey => ?_
  obtain ⟨hd, hdKind⟩ := List.mem_filter.mp hd
  obtain ⟨he, heKind⟩ := List.mem_filter.mp he
  refine Edit.start_le_of_key_le ?_ (by simpa using hdKind) (by simpa using heKind) hKey
  exact (mem_fileEdits.mp hd).2.trans (mem_fileEdits.mp he).2.symm

/-- The conflicts of an assembled plan are those known before and each two of the edits of one file
that overlap. -/
theorem mem_conflicts_assemble : c ∈ (assemble candidates report known).conflicts ↔
    c ∈ known ∨ [c.first, c.second].Sublist (fileEdits candidates c.path)
      ∧ c.first.overlaps c.second = true := by
  have hFiles : c ∈ (assemble candidates report known).conflicts ↔
      c ∈ known ∨ ∃ path ∈ (pool candidates).map (·.path),
        c ∈ conflictsIn ((fileEdits candidates path).filter (!·.isAppend)) := by
    simp only [assemble, byPath, List.mem_append, List.flatMap_map, List.mem_flatMap,
      List.mem_eraseDups]
    rfl
  rw [hFiles]
  refine or_congr_right ?_
  constructor
  · rintro ⟨path, -, hc⟩
    obtain ⟨hSublist, hOverlaps, hPath⟩ := (mem_conflictsIn starts_pairwise).mp hc
    have hInner := hSublist.trans List.filter_sublist
    have hFirst : c.first.path = path := (mem_fileEdits.mp (hInner.subset List.mem_cons_self)).2
    rw [hPath, hFirst]
    exact ⟨hInner, hOverlaps⟩
  · rintro ⟨hSublist, hOverlaps⟩
    obtain ⟨-, hFirst, hSecond⟩ := Edit.path_eq_of_overlaps hOverlaps
    obtain ⟨hPool, hPath⟩ := mem_fileEdits.mp (hSublist.subset List.mem_cons_self)
    refine ⟨c.path, List.mem_map.mpr ⟨c.first, hPool, hPath⟩, ?_⟩
    refine (mem_conflictsIn starts_pairwise).mpr ⟨?_, hOverlaps, hPath.symm⟩
    have hInner := hSublist.filter (!·.isAppend)
    simpa [hFirst, hSecond] using hInner

/-- The files of an assembled plan: those with edits of proposals that are in the plan. -/
theorem mem_edits_assemble {file : String × List Edit} :
    file ∈ (assemble candidates report known).edits ↔
      file.2 = (fileEdits candidates file.1).filter
          (fun e => (assemble candidates report known).emitted.contains e.proposal)
        ∧ file.2 ≠ [] := by
  have hKept : file ∈ (assemble candidates report known).edits ↔
      (∃ path ∈ ((pool candidates).map (·.path)).eraseDups,
        (path, (fileEdits candidates path).filter
          fun e => (assemble candidates report known).emitted.contains e.proposal) = file)
        ∧ file.2 ≠ [] := by
    simp only [assemble, byPath, Sorting.mem_sort, List.map_map, List.mem_filter, List.mem_map,
      Bool.not_eq_true', List.isEmpty_eq_false_iff]
    rfl
  rw [hKept]
  refine and_congr_left fun hNe => ?_
  constructor
  · rintro ⟨path, -, rfl⟩
    rfl
  · intro hEdits
    refine ⟨file.1, ?_, Prod.ext rfl hEdits.symm⟩
    obtain ⟨e, he⟩ := List.exists_mem_of_ne_nil _ hNe
    rw [hEdits] at he
    obtain ⟨hPool, hPath⟩ := mem_fileEdits.mp (List.mem_filter.mp he).1
    exact List.mem_eraseDups.mpr (List.mem_map.mpr ⟨e, hPool, hPath⟩)

theorem editsFor_assemble : (assemble candidates report known).editsFor path =
    (fileEdits candidates path).filter
      fun e => (assemble candidates report known).emitted.contains e.proposal := by
  rw [editsFor]
  cases hLookup : (assemble candidates report known).edits.lookup path with
  | some es =>
      obtain ⟨before, after, hFiles, -⟩ := List.lookup_eq_some_iff.mp hLookup
      exact (mem_edits_assemble.mp (by rw [hFiles]; simp : (path, es) ∈ _)).1
  | none =>
      by_contra hNe
      have hFile : (path, _) ∈ (assemble candidates report known).edits :=
        mem_edits_assemble.mpr ⟨rfl, Ne.symm hNe⟩
      exact lookup_eq_none_iff_notMem.mp hLookup (List.mem_map_of_mem hFile)

/-- Each file comes once. -/
theorem files_nodup : ((assemble candidates report known).edits.map Prod.fst).Nodup := by
  refine ((Sorting.sort_perm _).map Prod.fst).nodup_iff.mpr ?_
  refine List.Nodup.sublist (List.filter_sublist.map Prod.fst) ?_
  have hFirsts := nodup_eraseDups ((pool candidates).map (·.path))
  simpa only [byPath, List.map_map, Function.comp_def, List.map_id'] using hFirsts

/-- No two edits of a plan overlap: the proposal of one of them would be in a conflict. -/
theorem editsFor_apart :
    ((assemble candidates report known).editsFor path).Pairwise fun d e =>
    d.overlaps e = false := by
  rw [editsFor_assemble, List.pairwise_iff_forall_sublist]
  intro d e hSublist
  by_contra hOverlaps
  rw [Bool.not_eq_false] at hOverlaps
  obtain ⟨hMem, hEmitted⟩ := List.mem_filter.mp (hSublist.subset List.mem_cons_self)
  have hInner := hSublist.trans List.filter_sublist
  have hPath : d.path = path := (mem_fileEdits.mp hMem).2
  have hConflict : ⟨path, d, e⟩ ∈ (assemble candidates report known).conflicts :=
    mem_conflicts_assemble.mpr (.inr ⟨hInner, hOverlaps⟩)
  have hPartner :
      d.proposal ∈ (partners (assemble candidates report known).conflicts).map Prod.fst :=
    List.mem_map.mpr ⟨(d.proposal, e.proposal), List.mem_flatMap.mpr ⟨_, hConflict, by simp⟩, rfl⟩
  exact (mem_emitted_assemble.mp (List.contains_iff_mem.mp hEmitted)).2 hPartner

/-- The edits of each file are in order and can be carried out: no two of them overlap. -/
structure Applicable (p : EditPlan) : Prop where
  files : (p.edits.map Prod.fst).Nodup
  mem_editsFor : ∀ path e, e ∈ p.editsFor path ↔ e ∈ p.allEdits ∧ e.path = path
  ordered : ∀ path, (p.editsFor path).Pairwise (·.key ≤ ·.key)
  apart : ∀ path, (p.editsFor path).Pairwise fun d e => d.overlaps e = false
  applies : ∀ path t, ∃ text, Edit.applyAll t (p.editsFor path) = .ok text

/-- Only the edits of a plan count. -/
theorem Applicable.congr {p q : EditPlan} (h : p.Applicable) (hEdits : q.edits = p.edits) :
    q.Applicable where
  files := hEdits ▸ h.files
  mem_editsFor := by
    simpa only [editsFor, allEdits, hEdits] using h.mem_editsFor
  ordered := by
    simpa only [editsFor, hEdits] using h.ordered
  apart := by
    simpa only [editsFor, hEdits] using h.apart
  applies := by
    simpa only [editsFor, hEdits] using h.applies

/-- The conflicts of a plan are those known before and each two of some edits that overlap. -/
structure Reports (p : EditPlan) (known : List Conflict) (edits : List Edit) : Prop where
  recalls : ∀ c ∈ known, c ∈ p.conflicts
  complete : ∀ d ∈ edits, ∀ e ∈ edits, d ≠ e → d.overlaps e = true →
    ⟨d.path, d, e⟩ ∈ p.conflicts ∨ ⟨d.path, e, d⟩ ∈ p.conflicts
  sound : ∀ c ∈ p.conflicts, c ∈ known ∨
    c.first ∈ edits ∧ c.second ∈ edits ∧ c.path = c.first.path ∧ c.first.overlaps c.second = true

/-- Only the conflicts of a plan count. -/
theorem Reports.congr {p q : EditPlan} {edits : List Edit} (h : p.Reports known edits)
    (hConflicts : q.conflicts = p.conflicts) : q.Reports known edits where
  recalls := by
    simpa only [hConflicts] using h.recalls
  complete := by
    simpa only [hConflicts] using h.complete
  sound := by
    simpa only [hConflicts] using h.sound

theorem applicable_assemble (candidates : List Proposal) (report : List ReportEntry)
    (known : List Conflict) : (assemble candidates report known).Applicable where
  files := files_nodup
  mem_editsFor path e := by
    rw [editsFor_assemble, List.mem_filter, mem_fileEdits, mem_allEdits_assemble,
      List.contains_iff_mem]
    tauto
  ordered path := by
    rw [editsFor_assemble]
    exact fileEdits_pairwise.filter _
  apart _ := editsFor_apart
  applies _ := Edit.exists_applyAll editsFor_apart

theorem reports_assemble (candidates : List Proposal) (report : List ReportEntry)
    (known : List Conflict) :
    (assemble candidates report known).Reports known (pool candidates) where
  recalls c hc := mem_conflicts_assemble.mpr (.inl hc)
  complete d hd e he hNe hOverlaps := by
    have hPath := (Edit.path_eq_of_overlaps hOverlaps).1
    have hFirst : d ∈ fileEdits candidates d.path := mem_fileEdits.mpr ⟨hd, rfl⟩
    have hSecond : e ∈ fileEdits candidates d.path := mem_fileEdits.mpr ⟨he, hPath.symm⟩
    refine (pair_sublist hFirst hSecond hNe).imp (fun h => ?_) fun h => ?_
    · exact mem_conflicts_assemble.mpr (.inr ⟨h, hOverlaps⟩)
    · exact mem_conflicts_assemble.mpr (.inr ⟨h, Edit.overlaps_comm.trans hOverlaps⟩)
  sound c hc := by
    refine (mem_conflicts_assemble.mp hc).imp_right fun ⟨hSublist, hOverlaps⟩ => ?_
    obtain ⟨hFirst, hPath⟩ := mem_fileEdits.mp (hSublist.subset List.mem_cons_self)
    obtain ⟨hSecond, -⟩ := mem_fileEdits.mp
      (hSublist.subset (by simp : c.second ∈ [c.first, c.second]))
    exact ⟨hFirst, hSecond, hPath.symm, hOverlaps⟩

/-- Some edits stand for all those of some proposals: they are among them, with one for each
change. -/
structure StandFor (edits : List Edit) (candidates : List Proposal) : Prop where
  among : ∀ e ∈ edits, ∃ p ∈ candidates, e ∈ p.edits
  covers : ∀ p ∈ candidates, ∀ e ∈ p.edits, ∃ d ∈ edits, d.change = e.change
  distinct : (edits.map Edit.change).Nodup

theorem standFor_pool (candidates : List Proposal) : StandFor (pool candidates) candidates where
  among _ he := mem_pool he
  covers p hp e he := by
    have hSome : (firstMaking? candidates e.change).isSome = true :=
      List.find?_isSome.mpr ⟨e, List.mem_flatMap.mpr ⟨p, hp, he⟩, decide_eq_true rfl⟩
    obtain ⟨d, hFirst⟩ := Option.isSome_iff_exists.mp hSome
    have hChange : d.change = e.change := by simpa using List.find?_some hFirst
    exact ⟨d, mem_pool_iff.mpr (hChange ▸ hFirst), hChange⟩
  distinct := changes_pool_nodup candidates

/-- The proposals that the plan of a unit is made from. -/
def admitted (minimum : SafetyTier) (proposals : List Proposal) : List Proposal :=
  proposals.filter fun p => (refusal? minimum p).isNone

/-- Plans that are made can be carried out, and report each two edits that overlap. This goes for
the plan of a unit and for merged plans; plans can be merged unless some identifier is none. -/
theorem made_applicable (proposals : List Proposal) (leftovers : List Leftover)
    (minimum : SafetyTier) (warnings : List ReportEntry) (plans : List EditPlan) :
    (let plan := build proposals leftovers minimum warnings
      let edits := pool (admitted minimum proposals)
      plan.Applicable ∧ plan.Reports [] edits ∧ StandFor edits (admitted minimum proposals))
    ∧ (∀ merged, merge plans = .ok merged →
      let edits := pool (gathered plans).candidates
      merged.Applicable ∧ merged.Reports (gathered plans).conflicts edits
        ∧ StandFor edits (gathered plans).candidates)
    ∧ ((∃ plan ∈ plans, ∃ p ∈ plan.proposals, ∃ fault, ProposalId.parse p.id = .error fault)
      ∨ ∃ merged, merge plans = .ok merged) := by
  refine ⟨⟨?_, ?_, standFor_pool _⟩, fun merged hMerged => ?_, merge_total plans⟩
  · exact (applicable_assemble (admitted minimum proposals) [] []).congr rfl
  · exact (reports_assemble _ [] _).congr rfl
  · obtain ⟨report, withheld, rfl⟩ := exists_assemble_of_merge hMerged
    refine ⟨?_, ?_, standFor_pool _⟩
    · exact (applicable_assemble _ report _).congr rfl
    · exact (reports_assemble _ report _).congr rfl

/-- Two units of which one holds back, for a conflict, the proposal that the other one makes. -/
def collidingPlans : List EditPlan :=
  let edit (id : String) (start stop : Int) : Edit := ⟨⟨"a.h", start, stop⟩, "x", id, .replace⟩
  let unnamed : Proposal :=
    { id := "A", macroName := "A", pattern := .simpleConstant, tier := .high,
      edits := [edit "A" 0 4] }
  let other := "a.h::B::SimpleConstant::L2"
  [build [unnamed] [] .high [],
    build [unnamed, { unnamed with id := other, macroName := "B", edits := [edit other 2 6] }]
      [] .high []]

/-- An identifier that is none does not matter where its proposal is held back. -/
theorem made_applicable_colliding :
    (∃ plan ∈ collidingPlans, ∃ p ∈ plan.proposals, (ProposalId.parse p.id).isOk = false)
      ∧ ∃ merged, merge collidingPlans = .ok merged ∧ merged.Applicable
        ∧ merged.Reports (gathered collidingPlans).conflicts
          (pool (gathered collidingPlans).candidates)
        ∧ merged.conflicts.length = 1 := by
  refine ⟨by decide +kernel, ?_⟩
  obtain ⟨merged, hMerged, hConflicts⟩ := Except.exists_of_passes (x := merge collidingPlans)
    (Q := fun merged => merged.conflicts.length = 1)
    (fun merged => decide (merged.conflicts.length = 1))
    (by decide +kernel) fun _ _ => of_decide_eq_true
  obtain ⟨-, hMerge, -⟩ := made_applicable [] [] .high [] collidingPlans
  obtain ⟨hApplicable, hReports, -⟩ := hMerge merged hMerged
  exact ⟨merged, hMerged, hApplicable, hReports, hConflicts⟩

end Demacro.EditPlan
