import Demacro.Proofs.Plan.Emission
import Mathlib.Data.List.Perm.Subperm

/-!
Copies of a proposal that disagree. Each copy is compared with the union of those before it, and yet
it does not matter which of them come first: as long as no two copies ask for one change a different
number of times, a proposal diverges exactly if two of its copies disagree, and otherwise the merged
copy asks for what some copy does and is as safe as the least safe of them.
-/

namespace Demacro

namespace SafetyTier

theorem lower_eq_or (a b : SafetyTier) : a.lower b = a ∨ a.lower b = b :=
  ite_eq_or_eq _ _ _

theorem rank_lower (a b : SafetyTier) : (a.lower b).rank = min a.rank b.rank :=
  apply_ite rank _ _ _

end SafetyTier

namespace Proposal

variable {p q r : Proposal} {c : Extent × Text × EditKind}

/-- A proposal asks for a change if one of its edits makes it. -/
def Asks (p : Proposal) (c : Extent × Text × EditKind) : Prop :=
  ∃ e ∈ p.edits, e.change = c

/-- No two edits of a proposal make the same change. -/
def AsksOnce (p : Proposal) : Prop :=
  (p.edits.map Edit.change).Nodup

instance (p : Proposal) : Decidable p.AsksOnce :=
  inferInstanceAs (Decidable (p.edits.map Edit.change).Nodup)

instance (p : Proposal) (c : Extent × Text × EditKind) : Decidable (p.Asks c) :=
  inferInstanceAs (Decidable (∃ e ∈ p.edits, e.change = c))

/-- How many edits of a proposal make a change. -/
def times (p : Proposal) (c : Extent × Text × EditKind) : Nat :=
  (p.edits.map Edit.change).count c

/-- Two copies ask for a change equally often if both ask for it. -/
def RepeatsAlike (p q : Proposal) : Prop :=
  ∀ c, p.Asks c → q.Asks c → p.times c = q.times c

/-- In the files that both change, two copies ask for the same changes. -/
def Agree (p q : Proposal) : Prop :=
  ∀ c c', p.Asks c → q.Asks c' → c.1.path = c'.1.path → q.Asks c ∧ p.Asks c'

/-- Two copies agree if each edit of one finds its change in the other, where both change the
file. -/
theorem agree_iff_forall_edits : p.Agree q ↔ ∀ d ∈ p.edits, ∀ e ∈ q.edits, d.path = e.path →
    q.Asks d.change ∧ p.Asks e.change := by
  constructor
  · intro h d hd e he hPath
    exact h d.change e.change ⟨d, hd, rfl⟩ ⟨e, he, rfl⟩ hPath
  · rintro h _ _ ⟨d, hd, rfl⟩ ⟨e, he, rfl⟩ hPath
    exact h d hd e he hPath

instance (p q : Proposal) : Decidable (p.Agree q) :=
  decidable_of_iff _ agree_iff_forall_edits.symm

theorem Agree.refl (p : Proposal) : p.Agree p :=
  fun _ _ hc hc' _ => ⟨hc, hc'⟩

theorem Agree.symm (h : p.Agree q) : q.Agree p :=
  fun c c' hc hc' hPath => (h c' c hc' hc hPath.symm).symm

theorem asks_iff : p.Asks c ↔ c ∈ p.edits.map Edit.change :=
  List.mem_map.symm

theorem AsksOnce.repeatsAlike (hp : p.AsksOnce) (hq : q.AsksOnce) : p.RepeatsAlike q := by
  intro c hc hc'
  rw [times, times, List.count_eq_one_of_mem hp (asks_iff.mp hc),
    List.count_eq_one_of_mem hq (asks_iff.mp hc')]

/-- The changes of a proposal in the files that another one changes too. -/
theorem map_sharedEdits (p q : Proposal) : (p.sharedEdits q).map Edit.change =
    (p.edits.map Edit.change).filter fun c => q.edits.any (·.path == c.1.path) := by
  rw [List.filter_map]
  rfl

theorem mem_sharedEdits : c ∈ (p.sharedEdits q).map Edit.change ↔
    p.Asks c ∧ ∃ c', q.Asks c' ∧ c'.1.path = c.1.path := by
  rw [map_sharedEdits, List.mem_filter, ← asks_iff, List.any_eq_true]
  refine and_congr_right fun _ => ?_
  constructor
  · rintro ⟨d, hd, hPath⟩
    exact ⟨d.change, ⟨d, hd, rfl⟩, eq_of_beq hPath⟩
  · rintro ⟨_, ⟨d, hd, rfl⟩, hPath⟩
    exact ⟨d, hd, beq_iff_eq.mpr hPath⟩

theorem count_sharedEdits (h : c ∈ (p.sharedEdits q).map Edit.change) :
    ((p.sharedEdits q).map Edit.change).count c = p.times c := by
  rw [map_sharedEdits] at h ⊢
  exact List.count_filter (List.mem_filter.mp h).2

/-- The comparison in one direction and by number finds what the copies disagree on, if they ask for
the changes of both equally often. -/
theorem agrees_iff (h : p.RepeatsAlike q) : p.agrees q = true ↔ p.Agree q := by
  have hAgrees : p.agrees q = true ↔ (p.sharedEdits q).length = (q.sharedEdits p).length
      ∧ (p.sharedEdits q).map Edit.change ⊆ (q.sharedEdits p).map Edit.change := by
    simp only [agrees, Bool.and_eq_true, beq_iff_eq, List.all_eq_true, List.any_eq_true,
      Edit.sameChange_iff, List.subset_def, List.mem_map, forall_exists_index, and_imp,
      forall_apply_eq_imp_iff₂]
    simp only [eq_comm]
  have hCount : ∀ c ∈ (p.sharedEdits q).map Edit.change, c ∈ (q.sharedEdits p).map Edit.change →
      ((p.sharedEdits q).map Edit.change).count c = ((q.sharedEdits p).map Edit.change).count
      c := by
    intro c hc hc'
    rw [count_sharedEdits hc, count_sharedEdits hc']
    exact h c (mem_sharedEdits.mp hc).1 (mem_sharedEdits.mp hc').1
  rw [hAgrees]
  constructor
  · rintro ⟨hLength, hSubset⟩ c c' hc hc' hPath
    have hSubperm : ((p.sharedEdits q).map Edit.change).Subperm
        ((q.sharedEdits p).map Edit.change) :=
      List.subperm_ext_iff.mpr fun c hc => (hCount c hc (hSubset hc)).le
    have hPerm := hSubperm.perm_of_length_le (by simp [hLength])
    have hOwn := mem_sharedEdits.mpr ⟨hc, c', hc', hPath.symm⟩
    have hOther := mem_sharedEdits.mpr ⟨hc', c, hc, hPath⟩
    exact ⟨(mem_sharedEdits.mp (hSubset hOwn)).1, (mem_sharedEdits.mp (hPerm.symm.subset hOther)).1⟩
  · intro hAgree
    have hSubset : ∀ {p q : Proposal}, p.Agree q →
        (p.sharedEdits q).map Edit.change ⊆ (q.sharedEdits p).map Edit.change := by
      intro p q hAgree c hc
      obtain ⟨hc, c', hc', hPath⟩ := mem_sharedEdits.mp hc
      exact mem_sharedEdits.mpr ⟨(hAgree c c' hc hc' hPath.symm).1, c, hc, rfl⟩
    have hPerm : ((p.sharedEdits q).map Edit.change).Perm ((q.sharedEdits p).map Edit.change) := by
      refine List.perm_iff_count.mpr fun c => ?_
      by_cases hc : c ∈ (p.sharedEdits q).map Edit.change
      · exact hCount c hc (hSubset hAgree hc)
      · rw [List.count_eq_zero_of_not_mem hc,
          List.count_eq_zero_of_not_mem fun hc' => hc (hSubset hAgree.symm hc')]
    exact ⟨by simpa using hPerm.length_eq, hSubset hAgree⟩

theorem asks_union : (p.union q).Asks c ↔ p.Asks c ∨ q.Asks c := by
  constructor
  · rintro ⟨e, he, rfl⟩
    exact (EditPlan.Merging.mem_union he).imp (fun h => ⟨e, h, rfl⟩) fun h => ⟨e, h, rfl⟩
  · rintro (⟨e, he, rfl⟩ | ⟨e, he, rfl⟩)
    · exact EditPlan.Merging.exists_mem_union (.inl he)
    · exact EditPlan.Merging.exists_mem_union (.inr he)

/-- The union keeps how often the first copy asks for a change, and takes it from the other one
where the first does not ask for it. -/
theorem times_union (p q : Proposal) (c : Extent × Text × EditKind) :
    (p.union q).times c = if p.Asks c then p.times c else q.times c := by
  have hExtra : (q.edits.filter fun e => !p.edits.any (e.sameChange ·)).map Edit.change =
      (q.edits.map Edit.change).filter fun c => !decide (p.Asks c) := by
    rw [List.filter_map]
    refine congrArg (List.map Edit.change) (List.filter_congr fun e _ => congrArg not ?_)
    rw [Bool.eq_iff_iff, List.any_eq_true, decide_eq_true_iff]
    simp only [Edit.sameChange_iff, Asks]
    simp only [eq_comm]
  rw [times, Proposal.union, List.map_append, List.count_append, hExtra]
  split
  · rename_i hc
    have hNone : ((q.edits.map Edit.change).filter fun c => !decide (p.Asks c)).count c = 0 :=
      List.count_eq_zero_of_not_mem fun h => by simp [hc] at h
    rw [hNone, Nat.add_zero, times]
  · rename_i hc
    rw [List.count_eq_zero_of_not_mem fun h => hc (asks_iff.mpr h), Nat.zero_add, times]
    exact List.count_filter (by simp [hc])

theorem RepeatsAlike.union (hp : p.RepeatsAlike r) (hq : q.RepeatsAlike r) :
    (p.union q).RepeatsAlike r := by
  intro c hc hr
  rw [times_union]
  split
  · rename_i hOwn
    exact hp c hOwn hr
  · rename_i hOther
    exact hq c ((asks_union.mp hc).resolve_left hOther) hr

/-- A copy agrees with the union of others that agree exactly if it agrees with each of them. -/
theorem agree_iff_forall {P : Proposal → Prop} (hAsks : ∀ c, q.Asks c ↔ ∃ p, P p ∧ p.Asks c)
    (hPairs : ∀ p p', P p → P p' → p.Agree p') : q.Agree r ↔ ∀ p, P p → p.Agree r := by
  constructor
  · intro h p hp c c' hc hc' hPath
    obtain ⟨hOther, hOwn⟩ := h c c' ((hAsks c).mpr ⟨p, hp, hc⟩) hc' hPath
    obtain ⟨p', hp', hc''⟩ := (hAsks c').mp hOwn
    exact ⟨hOther, (hPairs p p' hp hp' c c' hc hc'' hPath).2⟩
  · intro h c c' hc hc' hPath
    obtain ⟨p, hp, hc⟩ := (hAsks c).mp hc
    obtain ⟨hOther, hOwn⟩ := h p hp c c' hc hc' hPath
    exact ⟨hOther, (hAsks c').mpr ⟨p, hp, hOwn⟩⟩

end Proposal

namespace EditPlan

/-- Two copies of a proposal disagree. -/
def Diverges (copies : List Proposal) (id : String) : Prop :=
  ∃ p ∈ copies, ∃ q ∈ copies, p.id = id ∧ q.id = id ∧ ¬ p.Agree q

instance (copies : List Proposal) (id : String) : Decidable (Diverges copies id) :=
  inferInstanceAs (Decidable (∃ p ∈ copies, ∃ q ∈ copies, p.id = id ∧ q.id = id ∧ ¬ p.Agree q))

namespace Merging

variable {m : Merging} {p q : Proposal} {copies : List Proposal} {id : String}

/-- What the merging of some copies of one proposal knows of them. -/
structure Unites (m : Merging) (id : String) (copies : List Proposal) : Prop where
  known : copies ≠ [] → ∃ q ∈ m.proposals, q.id = id
  diverged : id ∈ m.diverged ↔ ∃ p ∈ copies, ∃ q ∈ copies, ¬ p.Agree q
  alike : ∀ q ∈ m.proposals, q.id = id → ∀ r, (∀ p ∈ copies, p.RepeatsAlike r) → q.RepeatsAlike r
  asks : ∀ q ∈ m.proposals, q.id = id → id ∉ m.diverged → ∀ c, q.Asks c ↔ ∃ p, p ∈ copies ∧ p.Asks c
  weakest : ∀ q ∈ m.proposals, q.id = id → id ∉ m.diverged →
    (∃ p ∈ copies, p.tier = q.tier) ∧ ∀ p ∈ copies, q.tier.rank ≤ p.tier.rank

/-- Only the copies of the proposal that were gathered count, and whether it diverged. -/
theorem Unites.congr {m' : Merging} (h : m.Unites id copies)
    (hProposals : ∀ q, q.id = id → (q ∈ m'.proposals ↔ q ∈ m.proposals))
    (hDiverged : id ∈ m'.diverged ↔ id ∈ m.diverged) : m'.Unites id copies where
  known hCopies := by
    obtain ⟨q, hq, hId⟩ := h.known hCopies
    exact ⟨q, (hProposals q hId).mpr hq, hId⟩
  diverged := hDiverged.trans h.diverged
  alike q hq hId := h.alike q ((hProposals q hId).mp hq) hId
  asks q hq hId hNot := h.asks q ((hProposals q hId).mp hq) hId fun hOld =>
    hNot (hDiverged.mpr hOld)
  weakest q hq hId hNot := h.weakest q ((hProposals q hId).mp hq) hId fun hOld =>
    hNot (hDiverged.mpr hOld)

/-- A copy of another proposal changes nothing. -/
theorem Unites.add_other (h : m.Unites id copies) (hOther : p.id ≠ id) :
    (m.addProposal p).Unites id copies := by
  unfold Merging.addProposal
  split
  · refine h.congr (fun q hId => ?_) .rfl
    rw [List.mem_append, List.mem_singleton, or_iff_left]
    rintro rfl
    exact hOther hId
  · split
    · refine h.congr (fun q hId => ?_) .rfl
      rw [List.mem_map]
      constructor
      · rintro ⟨old, hOld, rfl⟩
        split
        · rename_i hOwn
          rw [if_pos hOwn] at hId
          exact absurd (hOwn.symm.trans hId) hOther
        · exact hOld
      · intro hq
        exact ⟨q, hq, if_neg fun hOwn => hOther (hOwn.symm.trans hId)⟩
    · refine h.congr (fun _ _ => .rfl) ?_
      rw [mem_appendNew, List.mem_singleton, or_iff_left hOther.symm]

/-- One more copy of a proposal brings a disagreement only with the copies before it. -/
theorem disagree_append : (∃ a ∈ copies ++ [p], ∃ b ∈ copies ++ [p], ¬ a.Agree b) ↔
    (∃ a ∈ copies, ∃ b ∈ copies, ¬ a.Agree b) ∨ ∃ q ∈ copies, ¬ q.Agree p := by
  constructor
  · rintro ⟨a, ha, b, hb, hDisagree⟩
    rw [List.mem_append, List.mem_singleton] at ha hb
    rcases ha with ha | rfl
    · rcases hb with hb | rfl
      · exact .inl ⟨a, ha, b, hb, hDisagree⟩
      · exact .inr ⟨a, ha, hDisagree⟩
    · rcases hb with hb | rfl
      · exact .inr ⟨b, hb, fun h => hDisagree h.symm⟩
      · exact absurd (.refl b) hDisagree
  · rintro (⟨a, ha, b, hb, h⟩ | ⟨q, hq, hDisagree⟩)
    · exact ⟨a, List.mem_append_left _ ha, b, List.mem_append_left _ hb, h⟩
    · exact ⟨q, List.mem_append_left _ hq, p, by simp, hDisagree⟩

/-- The merged copy of a proposal of which no copies disagree agrees with another copy exactly if
all of them do. -/
theorem Unites.agree_iff (h : m.Unites id copies) (hq : q ∈ m.proposals) (hId : q.id = id)
    (hDiverged : id ∉ m.diverged) : q.Agree p ↔ ¬ ∃ r ∈ copies, ¬ r.Agree p := by
  have hForall := Proposal.agree_iff_forall (r := p) (h.asks q hq hId hDiverged) fun a b ha hb => by
    by_contra hDisagree
    exact hDiverged (h.diverged.mpr ⟨a, ha, b, hb, hDisagree⟩)
  rw [hForall]
  simp only [not_exists, not_and, not_not]

/-- The first copy of a proposal. -/
theorem Unites.add_new (h : m.Unites p.id copies) (hNew : ∀ r ∈ m.proposals, r.id ≠ p.id) :
    ({ m with proposals := m.proposals ++ [p] } : Merging).Unites p.id (copies ++ [p]) := by
  have hNone : copies = [] := by
    by_contra hSome
    obtain ⟨r, hr, hId⟩ := h.known hSome
    exact hNew r hr hId
  have hOwn : ∀ q ∈ m.proposals ++ [p], q.id = p.id → q = p := by
    intro q hq hId
    rcases List.mem_append.mp hq with hq | hq
    · exact absurd hId (hNew q hq)
    · exact List.mem_singleton.mp hq
  subst hNone
  refine ⟨fun _ => ⟨p, by simp, rfl⟩, ?_, fun q hq hId r hAlike => ?_, fun q hq hId _ c => ?_,
    fun q hq hId _ => ?_⟩
  · rw [disagree_append, h.diverged]
    simp
  · obtain rfl := hOwn q hq hId
    exact hAlike q (by simp)
  · obtain rfl := hOwn q hq hId
    simp
  · obtain rfl := hOwn q hq hId
    simp

/-- A copy that agrees with those before it. -/
theorem Unites.add_agreeing (h : m.Unites p.id copies) (hAlike : ∀ r ∈ copies, r.RepeatsAlike p)
    (hq : q ∈ m.proposals) (hId : q.id = p.id) (hAgrees : q.agrees p = true) :
    ({ m with proposals := m.proposals.map fun q => if q.id = p.id then q.union p else q } :
      Merging).Unites p.id (copies ++ [p]) := by
  have hOwn : ∀ q ∈ m.proposals.map fun q => if q.id = p.id then q.union p else q, q.id = p.id →
      ∃ old ∈ m.proposals, old.id = p.id ∧ q = old.union p := by
    intro q hq hId
    obtain ⟨old, hOld, rfl⟩ := List.mem_map.mp hq
    split
    · rename_i hOldId
      exact ⟨old, hOld, hOldId, rfl⟩
    · rename_i hOldId
      rw [if_neg hOldId] at hId
      exact absurd hId hOldId
  refine ⟨fun _ => ⟨q.union p, List.mem_map.mpr ⟨q, hq, if_pos hId⟩, hId⟩, ?_,
    fun r hr hrId s hs => ?_, fun r hr hrId hDiverged c => ?_, fun r hr hrId hDiverged => ?_⟩
  · rw [disagree_append, ← h.diverged]
    refine (or_iff_left_of_imp fun hDisagree => ?_).symm
    by_contra hNot
    have hAgree := (Proposal.agrees_iff (h.alike q hq hId p hAlike)).mp hAgrees
    exact (h.agree_iff hq hId hNot).mp hAgree hDisagree
  · obtain ⟨old, hOld, hOldId, rfl⟩ := hOwn r hr hrId
    have hOldAlike := h.alike old hOld hOldId s fun x hx => hs x (List.mem_append_left _ hx)
    exact hOldAlike.union (hs p (by simp))
  · obtain ⟨old, hOld, hOldId, rfl⟩ := hOwn r hr hrId
    rw [Proposal.asks_union, h.asks old hOld hOldId hDiverged c]
    simp only [List.mem_append, List.mem_singleton, or_and_right, exists_or, exists_eq_left]
  · obtain ⟨old, hOld, hOldId, rfl⟩ := hOwn r hr hrId
    obtain ⟨⟨x, hx, hTier⟩, hLeast⟩ := h.weakest old hOld hOldId hDiverged
    constructor
    · rcases SafetyTier.lower_eq_or old.tier p.tier with hLower | hLower
      · exact ⟨x, List.mem_append_left _ hx, hTier.trans hLower.symm⟩
      · exact ⟨p, by simp, hLower.symm⟩
    · intro y hy
      have hRank : (old.union p).tier.rank = min old.tier.rank p.tier.rank :=
        SafetyTier.rank_lower _ _
      rw [hRank]
      rcases List.mem_append.mp hy with hy | hy
      · exact (Nat.min_le_left _ _).trans (hLeast y hy)
      · exact List.mem_singleton.mp hy ▸ Nat.min_le_right _ _

/-- A copy that does not agree with those before it. -/
theorem Unites.add_diverging (h : m.Unites p.id copies) (hAlike : ∀ r ∈ copies, r.RepeatsAlike p)
    (hq : q ∈ m.proposals) (hId : q.id = p.id) (hAgrees : ¬ q.agrees p = true)
    (conflicts : List Conflict) :
    ({ m with diverged := appendNew m.diverged [p.id], conflicts } : Merging).Unites p.id
      (copies ++ [p]) := by
  have hDiverged : p.id ∈ appendNew m.diverged [p.id] := mem_appendNew.mpr (.inr (by simp))
  refine ⟨fun _ => ⟨q, hq, hId⟩, ?_, fun r hr hrId s hs => ?_,
    fun _ _ _ hNot => absurd hDiverged hNot, fun _ _ _ hNot => absurd hDiverged hNot⟩
  · rw [disagree_append, ← h.diverged]
    refine iff_of_true hDiverged ?_
    by_contra hNone
    rw [not_or] at hNone
    have hAgree := (h.agree_iff hq hId hNone.1).mpr hNone.2
    exact hAgrees ((Proposal.agrees_iff (h.alike q hq hId p hAlike)).mpr hAgree)
  · exact h.alike r hr hrId s fun x hx => hs x (List.mem_append_left _ hx)

theorem Unites.add_own (h : m.Unites p.id copies) (hAlike : ∀ r ∈ copies, r.RepeatsAlike p) :
    (m.addProposal p).Unites p.id (copies ++ [p]) := by
  unfold Merging.addProposal
  split
  · rename_i hNone
    exact h.add_new (by simpa using List.find?_eq_none.mp hNone)
  · rename_i known hKnown
    have hMem := List.mem_of_find?_eq_some hKnown
    have hId : known.id = p.id := by simpa using List.find?_some hKnown
    split
    · rename_i hAgrees
      exact h.add_agreeing hAlike hMem hId hAgrees
    · rename_i hAgrees
      exact h.add_diverging hAlike hMem hId hAgrees _

/-- All copies of all proposals are taken in one after the other. -/
theorem Unites.addProposals {proposals : List Proposal} (h : m.Unites id copies)
    (hAlike : (copies ++ proposals.filter (·.id = id)).Pairwise Proposal.RepeatsAlike) :
    (proposals.foldl Merging.addProposal m).Unites id (copies ++ proposals.filter (·.id = id)) := by
  induction proposals generalizing m copies with
  | nil => simpa using h
  | cons p proposals ih =>
      rw [List.foldl_cons]
      by_cases hId : p.id = id
      · have hKeep : (p :: proposals).filter (·.id = id) = p :: proposals.filter (·.id = id) :=
          List.filter_cons_of_pos (by simpa using hId)
        rw [hKeep, List.append_cons] at hAlike ⊢
        subst hId
        refine ih (h.add_own fun r hr => ?_) hAlike
        exact (List.pairwise_append.mp (List.pairwise_append.mp hAlike).1).2.2 r hr p (by simp)
      · have hSkip : (p :: proposals).filter (·.id = id) = proposals.filter (·.id = id) :=
          List.filter_cons_of_neg (by simpa using hId)
        rw [hSkip] at hAlike ⊢
        exact ih (h.add_other hId) hAlike

end Merging

/-- The copies of proposals that the plans of several units hold. -/
def copies (plans : List EditPlan) : List Proposal :=
  plans.flatMap EditPlan.proposals

/-- The copies of one proposal. -/
def copiesOf (plans : List EditPlan) (id : String) : List Proposal :=
  (copies plans).filter (·.id = id)

variable {plans : List EditPlan} {p : Proposal} {id : String}

theorem mem_copiesOf : p ∈ copiesOf plans id ↔ p ∈ copies plans ∧ p.id = id := by
  rw [copiesOf, List.mem_filter, decide_eq_true_iff]

/-- Two copies of a proposal disagree exactly if it diverges. -/
theorem diverges_iff : Diverges (copies plans) id ↔
    ∃ p ∈ copiesOf plans id, ∃ q ∈ copiesOf plans id, ¬ p.Agree q := by
  simp only [mem_copiesOf, Diverges]
  constructor
  · rintro ⟨p, hp, q, hq, hpId, hqId, hDisagree⟩
    exact ⟨p, ⟨hp, hpId⟩, q, ⟨hq, hqId⟩, hDisagree⟩
  · rintro ⟨p, ⟨hp, hpId⟩, q, ⟨hq, hqId⟩, hDisagree⟩
    exact ⟨p, hp, q, hq, hpId, hqId, hDisagree⟩

/-- What is gathered of a proposal from the plans of several units does not depend on their order:
whether it diverged, and if it did not, what it asks for. -/
theorem gathered_unites (h : (copiesOf plans id).Pairwise Proposal.RepeatsAlike) :
    (gathered plans).Unites id (copiesOf plans id) := by
  have hFold : ∀ (m : Merging) (seen : List Proposal), m.Unites id seen →
      (seen ++ copiesOf plans id).Pairwise Proposal.RepeatsAlike →
      (plans.foldl Merging.addPlan m).Unites id (seen ++ copiesOf plans id) := by
    clear h
    unfold copiesOf copies
    induction plans with
    | nil =>
        intro m seen hSeen _
        simpa using hSeen
    | cons plan plans ih =>
        intro m seen hSeen hAlike
        rw [List.flatMap_cons, List.filter_append, ← List.append_assoc] at hAlike ⊢
        have hKept : ({ m with
            report := appendNew m.report plan.report
            conflicts := appendNew m.conflicts plan.conflicts
            withheld := appendNew m.withheld plan.withheld
            blocked := plan.blocked.foldl
              (fun sites b => if sites.any (·.1 == b.1) then sites else sites ++ [b]) m.blocked } :
              Merging).Unites id seen := hSeen.congr (fun _ _ => .rfl) .rfl
        exact ih _ _ (hKept.addProposals (List.pairwise_append.mp hAlike).1) hAlike
  refine hFold {} [] ⟨fun h => absurd rfl h, by simp, ?_, ?_, ?_⟩ h
  · exact fun _ hq => absurd hq List.not_mem_nil
  · exact fun _ hq => absurd hq List.not_mem_nil
  · exact fun _ hq => absurd hq List.not_mem_nil

/-- Copies that ask for no change twice repeat alike. -/
theorem repeatsAlike_of_asksOnce (h : ∀ p ∈ copies plans, p.AsksOnce) (id : String) :
    (copiesOf plans id).Pairwise Proposal.RepeatsAlike := by
  refine List.pairwise_iff_forall_sublist.mpr fun {p q} hSublist => ?_
  have hMem : ∀ r ∈ [p, q], r ∈ copies plans := fun r hr => (mem_copiesOf.mp (hSublist.subset hr)).1
  exact (h p (hMem p (by simp))).repeatsAlike (h q (hMem q (by simp)))

/-- If no copy asks for a change twice, just the proposals diverged of which two copies disagree. -/
theorem mem_gathered_diverged (h : ∀ p ∈ copies plans, p.AsksOnce) :
    id ∈ (gathered plans).diverged ↔ Diverges (copies plans) id :=
  (gathered_unites (repeatsAlike_of_asksOnce h id)).diverged.trans diverges_iff.symm

end EditPlan

end Demacro
