import Demacro.Edit
import Demacro.Proofs.Lists
import Mathlib.Data.Prod.Lex
import Mathlib.Data.String.Basic

/-!
Edits in order. The order is that of keys in which additions at the end of a file come last. In a
list in order no edit overlaps one that starts behind its end, and edits of which no two overlap can
be carried out. That works from the end of a text to its start; what comes out is the text between
the edits with what they put in.
-/

namespace Demacro.Edit

variable {d e : Edit} {edits : List Edit}

/-- What edits are ordered by. -/
def key (e : Edit) : String ×ₗ Bool ×ₗ Int ×ₗ Int :=
  toLex (e.path, toLex (e.isAppend, toLex (e.start, e.stop)))

theorem isBefore_iff : d.isBefore e = true ↔ d.key < e.key := by
  simp only [isBefore, key, Prod.Lex.toLex_lt_toLex, Bool.lt_iff, Bool.or_eq_true, Bool.and_eq_true,
    decide_eq_true_eq, beq_iff_eq, Bool.not_eq_true']

theorem sorted_perm (edits : List Edit) : (sorted edits).Perm edits :=
  Sorting.sort_perm edits

theorem sorted_pairwise (edits : List Edit) : (sorted edits).Pairwise (·.key ≤ ·.key) := by
  have hLe : ∀ d e : Edit, (!e.isBefore d) = true ↔ d.key ≤ e.key := by
    intro d e
    rw [Bool.not_eq_true', ← Bool.not_eq_true, isBefore_iff, not_lt]
  have hSorted := Sorting.sort_pairwise (fun d e : Edit => !e.isBefore d)
    (fun d e => by simpa only [hLe] using le_total d.key e.key)
    (fun d e f => by simpa only [hLe] using le_trans) edits
  exact hSorted.imp fun h => (hLe _ _).mp h

/-- Of two edits of one file, neither of which is an addition at the end, the first in order starts
first. -/
theorem start_le_of_key_le (hPath : d.path = e.path) (hd : d.isAppend = false)
    (he : e.isAppend = false) (h : d.key ≤ e.key) : d.start ≤ e.start := by
  simp only [key, Prod.Lex.toLex_le_toLex, hPath, hd, he, lt_irrefl, false_or, true_and] at h
  rcases h with h | ⟨h, -⟩
  · exact le_of_lt h
  · exact le_of_eq h

theorem overlaps_comm : d.overlaps e = e.overlaps d := by
  have hFiles : (d.path == e.path && !d.isAppend && !e.isAppend)
      = (e.path == d.path && !e.isAppend && !d.isAppend) := by
    rw [Bool.beq_comm, Bool.and_assoc, Bool.and_assoc, Bool.and_comm (!d.isAppend)]
  unfold overlaps
  rw [hFiles]
  congr 1
  cases hd : d.isEmpty <;> cases he : e.isEmpty
  · simp [Bool.and_comm]
  · simp
  · simp
  · simp [Bool.beq_comm]

theorem path_eq_of_overlaps (h : d.overlaps e = true) :
    d.path = e.path ∧ d.isAppend = false ∧ e.isAppend = false := by
  simp only [overlaps, Bool.and_eq_true, Bool.not_eq_true', beq_iff_eq] at h
  exact ⟨h.1.1.1, h.1.1.2, h.1.2⟩

/-- Two changes that overlap share a character. -/
theorem lt_of_overlaps (h : d.overlaps e = true) (hd : d.start < d.stop) (he : e.start < e.stop) :
    d.start < e.stop ∧ e.start < d.stop := by
  have hdEmpty : d.isEmpty = false := beq_eq_false_iff_ne.mpr (Int.ne_of_lt hd)
  have heEmpty : e.isEmpty = false := beq_eq_false_iff_ne.mpr (Int.ne_of_lt he)
  simp only [overlaps, hdEmpty, heEmpty, Bool.false_eq_true, if_false, Bool.and_eq_true,
    decide_eq_true_eq] at h
  exact h.2

/-- A change overlaps an insertion only if it has characters on both sides of it. -/
theorem inside_of_overlaps (h : d.overlaps e = true) (hd : d.start < d.stop)
    (he : e.start = e.stop) : d.start < e.start ∧ e.start < d.stop := by
  have hdEmpty : d.isEmpty = false := beq_eq_false_iff_ne.mpr (Int.ne_of_lt hd)
  have heEmpty : e.isEmpty = true := beq_iff_eq.mpr he
  simp only [overlaps, hdEmpty, heEmpty, Bool.false_eq_true, if_false, if_true, Bool.and_eq_true,
    decide_eq_true_eq] at h
  exact h.2

/-- Insertions at the same point overlap. -/
theorem overlaps_of_insertions (hExtent : d.toExtent = e.toExtent) (hPoint : d.start = d.stop)
    (hd : d.isAppend = false) (he : e.isAppend = false) : d.overlaps e = true := by
  simp [overlaps, Extent.isEmpty, ← hExtent, hPoint, hd, he]

/-- Two insertions overlap only at the same point. -/
theorem start_eq_of_overlaps (h : d.overlaps e = true) (hd : d.start = d.stop)
    (he : e.start = e.stop) : d.start = e.start := by
  have hdEmpty : d.isEmpty = true := beq_iff_eq.mpr hd
  have heEmpty : e.isEmpty = true := beq_iff_eq.mpr he
  simp only [overlaps, hdEmpty, heEmpty, if_true, Bool.and_eq_true, beq_iff_eq] at h
  exact h.2

/-- An edit does not overlap one that starts behind its end. -/
theorem overlaps_eq_false_of_stop_lt (h : d.stop < e.start) : d.overlaps e = false := by
  by_contra hOverlaps
  simp only [overlaps, Bool.not_eq_false, Bool.and_eq_true] at hOverlaps
  replace hOverlaps := hOverlaps.2
  split at hOverlaps
  · rename_i hd
    have hPoint : d.start = d.stop := eq_of_beq hd
    split at hOverlaps
    · have hSame : d.start = e.start := eq_of_beq hOverlaps
      omega
    · simp only [Bool.and_eq_true, decide_eq_true_eq] at hOverlaps
      omega
  · split at hOverlaps
    · simp only [Bool.and_eq_true, decide_eq_true_eq] at hOverlaps
      omega
    · simp only [Bool.and_eq_true, decide_eq_true_eq] at hOverlaps
      omega

theorem firstCollision?_eq_none (h : edits.Pairwise fun d e => d.overlaps e = false) :
    firstCollision? edits = none := by
  induction h with
  | nil => rfl
  | @cons d edits hFirst _ ih =>
      cases edits with
      | nil => rfl
      | cons e edits =>
          rw [firstCollision?, hFirst e List.mem_cons_self, if_neg Bool.false_ne_true]
          exact ih

/-- Edits of which no two overlap can be carried out. -/
theorem exists_applyAll (h : edits.Pairwise fun d e => d.overlaps e = false) (t : Text) :
    ∃ text, applyAll t edits = .ok text := by
  have hSorted : (sorted edits).Pairwise fun d e => d.overlaps e = false :=
    (sorted_perm edits).symm.pairwise h fun hApart => overlaps_comm.trans hApart
  rw [applyAll, firstCollision?_eq_none (hSorted.filter _)]
  exact ⟨_, rfl⟩

variable {es : List Edit} {t x r : Text} {k : Nat}

/-- Of two edits of a file, the first one ends where the second one starts or in front of it, and
they do not insert at the same point. -/
structure Precedes (d e : Edit) : Prop where
  stop_le_start : d.stop ≤ e.start
  apart : ¬(d.start = e.start ∧ e.start = e.stop)

/-- The edit is one of a range of characters between two places. -/
structure Within (lower upper : Nat) (e : Edit) : Prop where
  lower_le : (lower : Int) ≤ e.start
  start_le_stop : e.start ≤ e.stop
  stop_le : e.stop ≤ (upper : Int)

/-- The text that starts at the place `k` of a file, with the edits made one by one. -/
def weave : Nat → List Edit → Text → Text
  | _, [], t => t
  | k, e :: es, t =>
      t.take (e.start.toNat - k) ++ e.text ++ weave e.stop.toNat es (t.drop (e.stop.toNat - k))

theorem index_of_le {length : Nat} {offset : Int} (h : 0 ≤ offset) (hLe : offset ≤ length) :
    index length offset = offset.toNat := by
  rw [index, if_neg (Int.not_lt.mpr h)]
  omega

/-- Edits in order that do not meet can be made from the first to the last. -/
theorem foldr_splice_eq_weave (hOrder : es.Pairwise Precedes)
    (hWithin : ∀ e ∈ es, e.Within k t.length) :
    es.foldr (fun e t => splice t e) t = t.take k ++ weave k es (t.drop k) := by
  induction es generalizing k with
  | nil => exact (List.take_append_drop k t).symm
  | cons e es ih =>
      obtain ⟨hFirst, hRest⟩ := List.pairwise_cons.mp hOrder
      obtain ⟨hLower, hRange, hUpper⟩ := hWithin e List.mem_cons_self
      have hLater : ∀ f ∈ es, f.Within e.stop.toNat t.length := by
        intro f hf
        have hf' := hWithin f (List.mem_cons_of_mem e hf)
        have hBehind := (hFirst f hf).stop_le_start
        exact ⟨by omega, hf'.start_le_stop, hf'.stop_le⟩
      rw [List.foldr_cons, ih hRest hLater, splice]
      generalize hTail : weave e.stop.toNat es (t.drop e.stop.toNat) = tail
      have hLength : (t.take e.stop.toNat).length = e.stop.toNat := by
        rw [List.length_take]
        omega
      have hStop : (t.take e.stop.toNat ++ tail).drop e.stop.toNat = tail := List.drop_left' hLength
      have hStart : (t.take e.stop.toNat ++ tail).take e.start.toNat = t.take e.start.toNat := by
        rw [List.take_append_of_le_length (by omega), List.take_take, Nat.min_eq_left (by omega)]
      have hFront : t.take e.start.toNat = t.take k ++ (t.drop k).take (e.start.toNat - k) := by
        rw [← List.take_add, Nat.add_sub_cancel' (by omega)]
      rw [index_of_le (by omega) (by rw [List.length_append]; omega),
        index_of_le (by omega) (by rw [List.length_append]; omega), hStop, hStart, weave,
        List.drop_drop, Nat.add_sub_cancel' (by omega), hTail, hFront]
      simp only [List.append_assoc]

/-- Of two edits in order that do not overlap, the first one precedes the second one. -/
theorem precedes_of_key_le (hPath : d.path = e.path) (hd : d.isAppend = false)
    (he : e.isAppend = false) (hdRange : d.start ≤ d.stop) (heRange : e.start ≤ e.stop)
    (hKey : d.key ≤ e.key) (hApart : d.overlaps e = false) : d.Precedes e := by
  simp only [key, Prod.Lex.toLex_le_toLex, hPath, hd, he, lt_irrefl, false_or, true_and] at hKey
  simp only [overlaps, Extent.isEmpty, hPath, hd, he, beq_self_eq_true, Bool.not_false,
    Bool.and_self, Bool.true_and, beq_iff_eq] at hApart
  constructor
  · split_ifs at hApart
      <;> simp only [beq_eq_false_iff_ne, Bool.and_eq_false_iff, decide_eq_false_iff_not] at hApart
      <;>
      omega
  · split_ifs at hApart
      <;> simp only [beq_eq_false_iff_ne, Bool.and_eq_false_iff, decide_eq_false_iff_not] at hApart
      <;>
      omega

/-- Carrying out edits of one file of which no two overlap is making them in order. -/
theorem applyAll_eq_weave {path : String} (hPath : ∀ e ∈ edits, e.path = path)
    (hAppend : ∀ e ∈ edits, e.isAppend = false) (hWithin : ∀ e ∈ edits, e.Within 0 t.length)
    (hApart : edits.Pairwise fun d e => d.overlaps e = false) :
    (sorted edits).Pairwise Precedes ∧ applyAll t edits = .ok (weave 0 (sorted edits) t) := by
  have hMem : ∀ e, e ∈ sorted edits ↔ e ∈ edits := fun e => (sorted_perm edits).mem_iff
  have hSorted : (sorted edits).Pairwise fun d e => d.overlaps e = false :=
    (sorted_perm edits).symm.pairwise hApart fun hApart => overlaps_comm.trans hApart
  have hInner : (sorted edits).filter (!·.isAppend) = sorted edits :=
    List.filter_eq_self.mpr fun e he => by simp [hAppend e ((hMem e).mp he)]
  have hEnd : (sorted edits).filter isAppend = [] :=
    List.filter_eq_nil_iff.mpr fun e he => by simp [hAppend e ((hMem e).mp he)]
  have hOrder : (sorted edits).Pairwise Precedes := by
    refine List.Pairwise.imp_of_mem (fun {d e} hd he ⟨hKey, hOverlaps⟩ => ?_)
      ((sorted_pairwise edits).and hSorted)
    rw [hMem] at hd he
    exact precedes_of_key_le ((hPath d hd).trans (hPath e he).symm) (hAppend d hd) (hAppend e he)
      (hWithin d hd).start_le_stop (hWithin e he).start_le_stop hKey hOverlaps
  refine ⟨hOrder, ?_⟩
  have hWeave := foldr_splice_eq_weave (k := 0) hOrder fun e he => hWithin e ((hMem e).mp he)
  rw [applyAll, hInner, hEnd, firstCollision?_eq_none hSorted, List.foldl_reverse, hWeave]
  simp

/-- Text in front of all edits stays as it is. -/
theorem weave_append (h : ∀ e ∈ es, (k + x.length : Nat) ≤ e.start ∧ e.start ≤ e.stop) :
    weave k es (x ++ r) = x ++ weave (k + x.length) es r := by
  cases es with
  | nil => rfl
  | cons e es =>
      obtain ⟨hLower, hRange⟩ := h e List.mem_cons_self
      have hTake : (x ++ r).take (e.start.toNat - k) = x ++ r.take
          (e.start.toNat - (k + x.length)) := by
        rw [List.take_append, List.take_of_length_le (by omega), Nat.sub_sub]
      have hDrop : (x ++ r).drop (e.stop.toNat - k) = r.drop (e.stop.toNat - (k + x.length)) := by
        rw [List.drop_append, List.drop_of_length_le (by omega), Nat.sub_sub, List.nil_append]
      rw [weave, weave, hTake, hDrop]
      simp only [List.append_assoc]

/-- An edit of the text in front puts its own text there. -/
theorem weave_cons (hStart : e.start = k) (hStop : e.stop = (k + x.length : Nat)) :
    weave k (e :: es) (x ++ r) = e.text ++ weave (k + x.length) es r := by
  rw [weave, hStart, hStop, Int.toNat_natCast, Int.toNat_natCast]
  simp

end Demacro.Edit
