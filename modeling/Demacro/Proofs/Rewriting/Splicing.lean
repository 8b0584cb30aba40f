import Demacro.Proofs.Edit

/-!
Edits made all at once. What comes out is said place by place, for a list of edits in any order:
what is inserted there, what replaces the range that starts there, and the character of the text if
no range covers it. Carrying out edits sorts them and compares neighbours only, and works from the
end of the text to its start; it gives this text, and it fails exactly if some two of the edits
overlap.
-/

namespace Demacro.Edit

variable {d e f : Edit} {es fs edits others : List Edit} {t : Text} {i k : Nat}

/-- Whether a character is one of the range of an edit. -/
def coversAt (e : Edit) (i : Nat) : Bool :=
  e.start ≤ (i : Int) && (i : Int) < e.stop

/-- Whether an edit puts its text at a place, in front of the character there. -/
def insertsAt (e : Edit) (i : Nat) : Bool :=
  e.isEmpty && e.start == (i : Int)

/-- Whether an edit replaces characters from a place on. -/
def replacesAt (e : Edit) (i : Nat) : Bool :=
  !e.isEmpty && e.start == (i : Int)

/-- What stands in place of the character `i` of a text, or behind its last character, after changes
of it. -/
def placed (t : Text) (es : List Edit) (i : Nat) : Text :=
  (es.filter (·.insertsAt i)).flatMap (·.text) ++ (es.filter (·.replacesAt i)).flatMap (·.text) ++
    if es.any (·.coversAt i) then [] else t[i]?.toList

/-- A text with edits made at once: the changes place by place, then the additions at the end. -/
def spliced (t : Text) (edits : List Edit) : Text :=
  (List.range (t.length + 1)).flatMap (placed t (edits.filter (!·.isAppend))) ++
    (edits.filter isAppend).flatMap (·.text)

theorem Precedes.trans (hRange : e.start ≤ e.stop) (hdRange : d.start ≤ d.stop) (h : d.Precedes e)
    (hNext : e.Precedes f) : d.Precedes f where
  stop_le_start := by
    have hFirst := h.stop_le_start
    have hSecond := hNext.stop_le_start
    omega
  apart := by
    have hFirst := h.stop_le_start
    have hSecond := hNext.stop_le_start
    have hApart := h.apart
    omega

theorem Precedes.overlaps_eq_false (hdRange : d.start ≤ d.stop) (heRange : e.start ≤ e.stop)
    (h : d.Precedes e) : d.overlaps e = false := by
  have hBehind := h.stop_le_start
  have hApart := h.apart
  by_contra hOverlaps
  rw [Bool.not_eq_false] at hOverlaps
  rcases hdRange.lt_or_eq with hd | hd <;> rcases heRange.lt_or_eq with he | he
  · have := lt_of_overlaps hOverlaps hd he
    omega
  · have := inside_of_overlaps hOverlaps hd he
    omega
  · have := inside_of_overlaps (overlaps_comm.trans hOverlaps) he hd
    omega
  · have := start_eq_of_overlaps hOverlaps hd he
    omega

/-- In a list in order it is enough that no edit overlaps the one in front of it. -/
theorem pairwise_precedes_of_firstCollision? {path : String} {n : Nat}
    (hPath : ∀ e ∈ es, e.path = path) (hInner : ∀ e ∈ es, e.isAppend = false)
    (hWithin : ∀ e ∈ es, e.Within 0 n) (hSorted : es.Pairwise (·.key ≤ ·.key))
    (h : firstCollision? es = none) : es.Pairwise Precedes := by
  induction es with
  | nil => exact .nil
  | cons d es ih =>
      cases es with
      | nil => exact List.pairwise_singleton _ d
      | cons e es =>
          obtain ⟨hFirst, hRest⟩ := List.pairwise_cons.mp hSorted
          rw [firstCollision?] at h
          split at h
          · cases h
          · rename_i hApart
            have hLater := ih (fun f hf => hPath f (.tail d hf)) (fun f hf => hInner f (.tail d hf))
              (fun f hf => hWithin f (.tail d hf)) hRest h
            have hNext : d.Precedes e := by
              refine precedes_of_key_le ?_ (hInner d (.head _)) (hInner e (.tail d (.head _)))
                (hWithin d (.head _)).start_le_stop (hWithin e (.tail d (.head _))).start_le_stop
                (hFirst e (.head _)) (Bool.not_eq_true _ ▸ hApart)
              rw [hPath d (.head _), hPath e (.tail d (.head _))]
            refine List.pairwise_cons.mpr ⟨fun f hf => ?_, hLater⟩
            rcases List.mem_cons.mp hf with rfl | hf
            · exact hNext
            · exact hNext.trans (hWithin e (.tail d (.head _))).start_le_stop
                (hWithin d (.head _)).start_le_stop ((List.pairwise_cons.mp hLater).1 f hf)

/-- The characters of a text from a place on, taken one by one. -/
theorem flatMap_getElem? (k n : Nat) :
    (List.range' k n).flatMap (fun i => t[i]?.toList) = (t.drop k).take n := by
  induction n generalizing k with
  | zero => simp
  | succ n ih =>
      rw [List.range'_succ, List.flatMap_cons, ih]
      by_cases hLt : k < t.length
      · rw [List.getElem?_eq_getElem hLt, List.drop_eq_getElem_cons hLt, List.take_succ_cons]
        rfl
      · have hEnd : t.length ≤ k := Nat.le_of_not_lt hLt
        simp [List.getElem?_eq_none hEnd, List.drop_eq_nil_of_le hEnd, List.drop_eq_nil_of_le
          (Nat.le_succ_of_le hEnd)]

theorem filter_eq_nil_of_start_ne (h : ∀ e ∈ es, e.start ≠ (i : Int)) :
    es.filter (·.insertsAt i) = [] ∧ es.filter (·.replacesAt i) = [] := by
  constructor
  · exact List.filter_eq_nil_iff.mpr fun e he => by simp [insertsAt, h e he]
  · exact List.filter_eq_nil_iff.mpr fun e he => by simp [replacesAt, h e he]

/-- Nothing changes in front of all edits. -/
theorem placed_of_lt (h : ∀ e ∈ es, (i : Int) < e.start) : placed t es i = t[i]?.toList := by
  obtain ⟨hInserts, hReplaces⟩ := filter_eq_nil_of_start_ne fun e he => Int.ne_of_gt (h e he)
  have hCovers : es.any (·.coversAt i) = false :=
    List.any_eq_false.mpr fun e he => by simp [coversAt, h e he]
  simp [placed, hInserts, hReplaces, hCovers]

/-- An edit changes nothing behind its range. -/
theorem placed_cons_of_stop_le (hStart : e.start < (i : Int)) (hStop : e.stop ≤ (i : Int)) :
    placed t (e :: es) i = placed t es i := by
  have hInserts : e.insertsAt i = false := by simp [insertsAt, Int.ne_of_lt hStart]
  have hReplaces : e.replacesAt i = false := by simp [replacesAt, Int.ne_of_lt hStart]
  have hCovers : e.coversAt i = false := by simp [coversAt, Int.not_lt.mpr hStop]
  simp [placed, hInserts, hReplaces, hCovers]

/-- An insertion puts its text in front of whatever stands at its place. -/
theorem placed_cons_insertion (hStart : e.start = (i : Int)) (hStop : e.stop = (i : Int)) :
    placed t (e :: es) i = e.text ++ placed t es i := by
  have hInserts : e.insertsAt i = true := by simp [insertsAt, Extent.isEmpty, hStart, hStop]
  have hReplaces : e.replacesAt i = false := by simp [replacesAt, Extent.isEmpty, hStart, hStop]
  have hCovers : e.coversAt i = false := by simp [coversAt, hStop]
  simp [placed, hInserts, hReplaces, hCovers]

/-- The text of a change of characters stands in place of the first of them. -/
theorem placed_cons_start (hStart : e.start = (i : Int)) (hStop : (i : Int) < e.stop)
    (hLater : ∀ f ∈ es, f.start ≠ (i : Int)) : placed t (e :: es) i = e.text := by
  obtain ⟨hNoneInserts, hNoneReplaces⟩ := filter_eq_nil_of_start_ne hLater
  have hPart : e.isEmpty = false := beq_eq_false_iff_ne.mpr (by omega)
  have hInserts : e.insertsAt i = false := by simp [insertsAt, hPart]
  have hReplaces : e.replacesAt i = true := by simp [replacesAt, hPart, hStart]
  have hCovers : e.coversAt i = true := by simp [coversAt, hStart, hStop]
  simp [placed, hInserts, hReplaces, hCovers, hNoneInserts, hNoneReplaces]

/-- Nothing stands in place of its other characters. -/
theorem placed_cons_inside (hStart : e.start < (i : Int)) (hStop : (i : Int) < e.stop)
    (hLater : ∀ f ∈ es, f.start ≠ (i : Int)) : placed t (e :: es) i = [] := by
  obtain ⟨hNoneInserts, hNoneReplaces⟩ := filter_eq_nil_of_start_ne hLater
  have hInserts : e.insertsAt i = false := by simp [insertsAt, Int.ne_of_lt hStart]
  have hReplaces : e.replacesAt i = false := by simp [replacesAt, Int.ne_of_lt hStart]
  have hCovers : e.coversAt i = true := by simp [coversAt, Int.le_of_lt hStart, hStop]
  simp [placed, hInserts, hReplaces, hCovers, hNoneInserts, hNoneReplaces]

/-- What the first of edits in order makes of a text from its start on. -/
theorem flatMap_placed_cons {a b n : Nat} (hStart : e.start = a) (hStop : e.stop = b)
    (hRange : a ≤ b) (hEnd : b < n) (hLater : ∀ f ∈ es, e.Precedes f) :
    (List.range' a (n - a)).flatMap (placed t (e :: es)) = e.text ++ (List.range' b (n - b)).flatMap
    (placed t es) := by
  have hBehind : ∀ i ∈ List.range' (b + 1) (n - (b + 1)), placed t (e :: es) i = placed t es i := by
    intro i hi
    have hLe := (List.mem_range'_1.mp hi).1
    exact placed_cons_of_stop_le (by omega) (by omega)
  have hSplit : List.range' b (n - b) = b :: List.range' (b + 1) (n - (b + 1)) := by
    rw [show n - b = n - (b + 1) + 1 by omega, List.range'_succ]
  rcases hRange.eq_or_lt with rfl | hLt
  · -- an insertion: the character at its place is left to the later edits
    rw [hSplit, List.flatMap_cons, List.flatMap_cons, placed_cons_insertion hStart hStop,
      List.flatMap_congr hBehind, List.append_assoc]
  · have hApart : ∀ i : Nat, i < b → ∀ f ∈ es, f.start ≠ (i : Int) := by
      intro i hi f hf
      have := (hLater f hf).stop_le_start
      omega
    have hInside : (List.range' (a + 1) (b - (a + 1))).flatMap (placed t (e :: es)) = [] := by
      refine List.flatMap_eq_nil_iff.mpr fun i hi => ?_
      obtain ⟨hLower, hUpper⟩ := List.mem_range'_1.mp hi
      exact placed_cons_inside (by omega) (by omega) (hApart i (by omega))
    have hAtEnd : placed t (e :: es) b = placed t es b :=
      placed_cons_of_stop_le (by omega) (by omega)
    have hParts : List.range' a (n - a) = a :: (List.range' (a + 1) (b - (a + 1)) ++ List.range' b
        (n - b)) := by
      rw [show n - a = b - (a + 1) + (n - b) + 1 by omega, List.range'_succ, ← List.range'_append_1]
      congr 3
      omega
    rw [hParts, List.flatMap_cons, List.flatMap_append, hInside, placed_cons_start hStart (by omega)
      (hApart a hLt),
      hSplit, List.flatMap_cons, List.flatMap_cons, hAtEnd, List.flatMap_congr hBehind,
      List.nil_append]

/-- Edits made from the first to the last give what stands at each place. -/
theorem weave_eq_flatMap_placed (hOrder : es.Pairwise Precedes)
    (hWithin : ∀ e ∈ es, e.Within k t.length) (hLe : k ≤ t.length) :
    weave k es (t.drop k) = (List.range' k (t.length + 1 - k)).flatMap (placed t es) := by
  induction es generalizing k with
  | nil =>
      have hPlaced : placed t [] = fun i => t[i]?.toList := funext fun i => placed_of_lt (by simp)
      rw [hPlaced, flatMap_getElem?, List.take_of_length_le (by rw [List.length_drop]; omega),
        weave]
  | cons e es ih =>
      obtain ⟨hFirst, hRest⟩ := List.pairwise_cons.mp hOrder
      obtain ⟨hLower, hRange, hUpper⟩ := hWithin e List.mem_cons_self
      have hLater : ∀ f ∈ es, f.Within e.stop.toNat t.length := by
        intro f hf
        have hf' := hWithin f (List.mem_cons_of_mem e hf)
        have hBehind := (hFirst f hf).stop_le_start
        exact ⟨by omega, hf'.start_le_stop, hf'.stop_le⟩
      have hFront : ∀ i ∈ List.range' k (e.start.toNat - k), placed t (e :: es) i
          = t[i]?.toList := by
        intro i hi
        have hi' := (List.mem_range'_1.mp hi).2
        refine placed_of_lt fun f hf => ?_
        rcases List.mem_cons.mp hf with rfl | hf
        · omega
        · have := (hFirst f hf).stop_le_start
          omega
      have hParts : List.range' k (t.length + 1 - k) =
          List.range' k (e.start.toNat - k) ++ List.range' e.start.toNat
            (t.length + 1 - e.start.toNat) := by
        rw [show t.length + 1 - k = e.start.toNat - k + (t.length + 1 - e.start.toNat) by omega,
          ← List.range'_append_1]
        congr 2
        omega
      rw [weave, hParts, List.flatMap_append, List.flatMap_congr hFront, flatMap_getElem?,
        flatMap_placed_cons (b := e.stop.toNat) (by omega) (by omega) (by omega) (by omega) hFirst,
        List.drop_drop, Nat.add_sub_cancel' (by omega), ih hRest hLater (by omega)]
      simp only [List.append_assoc]

theorem toExtent_eq (hPath : d.path = e.path) (hStart : d.start = e.start)
    (hStop : d.stop = e.stop) : d.toExtent = e.toExtent :=
  (Extent.mk.injEq ..).mpr ⟨hPath, hStart, hStop⟩

/-- The elements with a property of which a list has at most one are the same in any order. -/
theorem filter_eq_of_perm {p : Edit → Bool}
    (hAlone : es.Pairwise fun d e => p d = true → p e = true → False) (h : es.Perm fs) :
    es.filter p = fs.filter p := by
  have hNone := List.pairwise_filter.mpr hAlone
  have hPerm := h.filter p
  match hFound : es.filter p with
  | [] => exact (List.nil_perm.mp (hFound ▸ hPerm)).symm
  | [e] => exact List.singleton_perm.mp (hFound ▸ hPerm)
  | d :: e :: _ =>
      rw [hFound] at hNone
      exact ((List.pairwise_cons.mp hNone).1 e List.mem_cons_self).elim

/-- What stands at a place does not depend on the order of changes that do not overlap. -/
theorem placed_eq_of_perm {path : String} {n : Nat} (hPath : ∀ e ∈ es, e.path = path)
    (hInner : ∀ e ∈ es, e.isAppend = false) (hWithin : ∀ e ∈ es, e.Within 0 n)
    (hApart : es.Pairwise fun d e => d.overlaps e = false) (h : es.Perm fs) :
    placed t es = placed t fs := by
  funext i
  have hInserts : es.filter (·.insertsAt i) = fs.filter (·.insertsAt i) := by
    refine filter_eq_of_perm (hApart.imp_of_mem fun {d e} hd he hOverlaps hdAt heAt => ?_) h
    simp only [insertsAt, Extent.isEmpty, Bool.and_eq_true, beq_iff_eq] at hdAt heAt
    have hExtent : d.toExtent = e.toExtent :=
      toExtent_eq ((hPath d hd).trans (hPath e he).symm) (by omega) (by omega)
    rw [overlaps_of_insertions hExtent hdAt.1 (hInner d hd) (hInner e he)] at hOverlaps
    cases hOverlaps
  have hReplaces : es.filter (·.replacesAt i) = fs.filter (·.replacesAt i) := by
    refine filter_eq_of_perm (hApart.imp_of_mem fun {d e} hd he hOverlaps hdAt heAt => ?_) h
    simp only [replacesAt, Bool.and_eq_true, Bool.not_eq_true', beq_iff_eq] at hdAt heAt
    have hdPart : d.start ≠ d.stop := beq_eq_false_iff_ne.mp hdAt.1
    have hePart : e.start ≠ e.stop := beq_eq_false_iff_ne.mp heAt.1
    have hd' := (hWithin d hd).start_le_stop
    have he' := (hWithin e he).start_le_stop
    have hPaths : d.path = e.path := (hPath d hd).trans (hPath e he).symm
    simp only [overlaps, hdAt.1, heAt.1, hPaths, hInner d hd, hInner e he, beq_self_eq_true,
      Bool.not_false,
      Bool.and_self, Bool.true_and, Bool.false_eq_true, if_false, Bool.and_eq_false_iff,
      decide_eq_false_iff_not] at hOverlaps
    omega
  rw [placed, placed, hInserts, hReplaces, h.any_eq]

theorem places_of_key (h : d.key = e.key) :
    d.path = e.path ∧ d.isAppend = e.isAppend ∧ d.start = e.start ∧ d.stop = e.stop := by
  simpa only [key, EmbeddingLike.apply_eq_iff_eq, Prod.mk.injEq] using h

theorem overlaps_congr {d' e' : Edit} (hd : d.key = d'.key) (he : e.key = e'.key) :
    d.overlaps e = d'.overlaps e' := by
  obtain ⟨hdPath, hdAppend, hdStart, hdStop⟩ := places_of_key hd
  obtain ⟨hePath, heAppend, heStart, heStop⟩ := places_of_key he
  rw [overlaps, overlaps, Extent.isEmpty, Extent.isEmpty, Extent.isEmpty, Extent.isEmpty, hdPath,
    hdAppend, hdStart, hdStop, hePath, heAppend, heStart, heStop]

theorem collisionMessage_congr (h : d.key = e.key) : d.collisionMessage = e.collisionMessage := by
  obtain ⟨hPath, -, hStart, -⟩ := places_of_key h
  unfold collisionMessage
  rw [hPath, hStart]

/-- Which edit overlaps the one in front of it is a matter of their places. -/
theorem firstCollision?_congr (h : es.map key = fs.map key) :
    (firstCollision? es).map key = (firstCollision? fs).map key := by
  induction es generalizing fs with
  | nil => rw [List.map_eq_nil_iff.mp h.symm]
  | cons d es ih =>
      obtain ⟨d', fs, rfl, hd, hRest⟩ := List.map_eq_cons_iff.mp h.symm
      cases es with
      | nil => rw [List.map_eq_nil_iff.mp hRest]; rfl
      | cons e es =>
          obtain ⟨e', fs, rfl, he, -⟩ := List.map_eq_cons_iff.mp hRest
          rw [firstCollision?, firstCollision?, overlaps_congr hd he]
          split
          · exact congrArg some he.symm
          · exact ih hRest.symm

/-- The changes among edits in order are the same places for every order of the edits. -/
theorem map_key_sorted (h : (edits.filter (!·.isAppend)).Perm (others.filter (!·.isAppend))) :
    ((sorted edits).filter (!·.isAppend)).map key =
    ((sorted others).filter (!·.isAppend)).map key := by
  have hOrdered : ∀ es : List Edit, (((sorted es).filter (!·.isAppend)).map key).Pairwise (· ≤ ·) :=
    fun es => List.pairwise_map.mpr ((sorted_pairwise es).filter _)
  have hPerm :=
    ((sorted_perm edits).filter (!·.isAppend)).trans (h.trans ((sorted_perm others).filter _).symm)
  exact List.Perm.eq_of_pairwise (fun _ _ _ _ => le_antisymm) (hOrdered edits) (hOrdered others)
    (hPerm.map key)

theorem applyAll_eq_error_iff :
    applyAll t edits = .error e ↔
    firstCollision? ((sorted edits).filter (!·.isAppend)) = some e := by
  rw [applyAll]
  split
  · rename_i hFound
    rw [hFound, Except.error.injEq, Option.some.injEq]
  · rename_i hFound
    simp [hFound]

/-- If edits fail in one order, they fail in every order, at the same place. -/
theorem exists_error_of_perm (h : (edits.filter (!·.isAppend)).Perm (others.filter (!·.isAppend)))
    (hError : applyAll t edits = .error e) : ∃ f, applyAll t others = .error f ∧ f.key = e.key := by
  have hFirst := firstCollision?_congr (map_key_sorted h)
  rw [applyAll_eq_error_iff.mp hError, Option.map_some] at hFirst
  obtain ⟨f, hFound, hKey⟩ := Option.map_eq_some_iff.mp hFirst.symm
  exact ⟨f, applyAll_eq_error_iff.mpr hFound, hKey⟩

/-- Additions at the end overlap nothing. -/
theorem pairwise_filter_iff :
    ((edits.filter (!·.isAppend)).Pairwise fun d e => d.overlaps e = false) ↔
    edits.Pairwise fun d e => d.overlaps e = false := by
  refine List.pairwise_filter.trans ⟨fun h => h.imp fun {d e} hApart => ?_,
    fun h => h.imp fun hApart _ _ => hApart⟩
  by_contra hOverlaps
  obtain ⟨-, hd, he⟩ := path_eq_of_overlaps (eq_true_of_ne_false hOverlaps)
  exact hOverlaps (hApart (by rw [hd]; rfl) (by rw [he]; rfl))

/-- Edits of one file fit a text if each one changes characters of it or is an addition at its
end. -/
structure Fit (path : String) (t : Text) (edits : List Edit) : Prop where
  path_eq : ∀ e ∈ edits, e.path = path
  within : ∀ e ∈ edits, e.isAppend = false → e.Within 0 t.length
  at_zero : ∀ e ∈ edits, e.isAppend = true → e.start = 0 ∧ e.stop = 0

namespace Fit

variable {path : String}

/-- Additions at the end keep the order that they had. -/
theorem filter_sorted (h : Fit path t edits) :
    (sorted edits).filter isAppend = edits.filter isAppend := by
  refine Sorting.filter_sort fun d hd e he hdEnd heEnd => ?_
  have hKey : d.key = e.key := by
    obtain ⟨hdStart, hdStop⟩ := h.at_zero d hd hdEnd
    obtain ⟨heStart, heStop⟩ := h.at_zero e he heEnd
    rw [key, key, h.path_eq d hd, h.path_eq e he, hdEnd, heEnd, hdStart, hdStop, heStart, heStop]
  rw [Bool.not_eq_true', ← Bool.not_eq_true, isBefore_iff, hKey]
  exact lt_irrefl _

theorem of_mem_inner (h : Fit path t edits) {es : List Edit}
    (hPerm : es.Perm (edits.filter (!·.isAppend))) :
    (∀ e ∈ es, e.path = path) ∧ (∀ e ∈ es, e.isAppend = false) ∧ ∀ e ∈ es, e.Within 0 t.length := by
  have hMem : ∀ e ∈ es, e ∈ edits ∧ e.isAppend = false := fun e he => by
    simpa only [List.mem_filter, Bool.not_eq_true'] using hPerm.mem_iff.mp he
  exact ⟨fun e he => h.path_eq e (hMem e he).1, fun e he => (hMem e he).2,
    fun e he => h.within e (hMem e he).1 (hMem e he).2⟩

theorem pairwise_precedes (h : Fit path t edits)
    (hNone : firstCollision? ((sorted edits).filter (!·.isAppend)) = none) :
    ((sorted edits).filter (!·.isAppend)).Pairwise Precedes := by
  obtain ⟨hPath, hInner, hWithin⟩ := h.of_mem_inner ((sorted_perm edits).filter _)
  exact pairwise_precedes_of_firstCollision? hPath hInner hWithin ((sorted_pairwise edits).filter _)
    hNone

/-- No two edits overlap if no neighbours among the changes in order do. -/
theorem firstCollision?_eq_none_iff (h : Fit path t edits) :
    firstCollision? ((sorted edits).filter (!·.isAppend)) = none ↔ edits.Pairwise fun d e =>
    d.overlaps e = false := by
  have hPerm := sorted_perm edits
  constructor
  · intro hNone
    have hWithin := (h.of_mem_inner (hPerm.filter _)).2.2
    have hInner : ((sorted edits).filter (!·.isAppend)).Pairwise fun d e => d.overlaps e = false :=
      (h.pairwise_precedes hNone).imp_of_mem fun {d e} hd he hOrder =>
        hOrder.overlaps_eq_false (hWithin d hd).start_le_stop (hWithin e he).start_le_stop
    exact hPerm.pairwise (pairwise_filter_iff.mp hInner) fun hApart => overlaps_comm.trans hApart
  · intro hApart
    exact firstCollision?_eq_none
      ((hPerm.symm.pairwise hApart fun hApart => overlaps_comm.trans hApart).filter _)

/-- Edits of which no two overlap give the text with all of them made at once. -/
theorem applyAll_eq_ok (h : Fit path t edits)
    (hApart : edits.Pairwise fun d e => d.overlaps e = false) :
    applyAll t edits = .ok (spliced t edits) := by
  have hNone := h.firstCollision?_eq_none_iff.mpr hApart
  have hPerm := (sorted_perm edits).filter (!·.isAppend)
  have hOrder := h.pairwise_precedes hNone
  have hWithin := (h.of_mem_inner hPerm).2.2
  obtain ⟨hPath, hInner, hWithinEdits⟩ := h.of_mem_inner (.refl _)
  have hPlaced : placed t ((sorted edits).filter (!·.isAppend)) = placed t
      (edits.filter (!·.isAppend)) :=
    (placed_eq_of_perm hPath hInner hWithinEdits (hApart.filter _) hPerm.symm).symm
  have hText := (foldr_splice_eq_weave (k := 0) hOrder hWithin).trans
    (congrArg _ (weave_eq_flatMap_placed hOrder hWithin (Nat.zero_le _)))
  rw [applyAll, hNone, List.foldl_reverse, hText, hPlaced, h.filter_sorted, spliced,
    List.range_eq_range']
  rfl

theorem of_perm (h : Fit path t edits)
    (hPerm : (edits.filter (!·.isAppend)).Perm (others.filter (!·.isAppend)))
    (hEnd : edits.filter isAppend = others.filter isAppend) : Fit path t others := by
  have hMem : ∀ e ∈ others, e ∈ edits := by
    intro e he
    cases hKind : e.isAppend
    · have hInner : e ∈ others.filter (!·.isAppend) := List.mem_filter.mpr ⟨he, by rw [hKind]; rfl⟩
      exact List.mem_of_mem_filter (hPerm.mem_iff.mpr hInner)
    · have hLast : e ∈ others.filter isAppend := List.mem_filter.mpr ⟨he, hKind⟩
      exact List.mem_of_mem_filter (hEnd ▸ hLast)
  exact ⟨fun e he => h.path_eq e (hMem e he), fun e he => h.within e (hMem e he),
    fun e he => h.at_zero e (hMem e he)⟩

/-- Changes come out the same in any order, whether they overlap or not. -/
theorem applyAll_eq_of_perm (h : Fit path t edits)
    (hPerm : (edits.filter (!·.isAppend)).Perm (others.filter (!·.isAppend)))
    (hEnd : edits.filter isAppend = others.filter isAppend) :
    (applyAll t edits).mapError collisionMessage =
    (applyAll t others).mapError collisionMessage := by
  cases hResult : applyAll t edits with
  | error e =>
      obtain ⟨f, hFailed, hKey⟩ := exists_error_of_perm hPerm hResult
      rw [hFailed]
      exact congrArg Except.error (collisionMessage_congr hKey).symm
  | ok r =>
      have hNone : firstCollision? ((sorted edits).filter (!·.isAppend)) = none := by
        by_contra hSome
        obtain ⟨e, hFound⟩ := Option.ne_none_iff_exists'.mp hSome
        rw [applyAll_eq_error_iff.mpr hFound] at hResult
        cases hResult
      have hApart := h.firstCollision?_eq_none_iff.mp hNone
      have hOthers := h.of_perm hPerm hEnd
      have hOthersNone : firstCollision? ((sorted others).filter (!·.isAppend)) = none := by
        have hFirst := firstCollision?_congr (map_key_sorted hPerm)
        rw [hNone] at hFirst
        exact Option.map_eq_none_iff.mp hFirst.symm
      obtain ⟨hPath, hInner, hWithin⟩ := h.of_mem_inner (.refl _)
      have hPlaced := placed_eq_of_perm (t := t) hPath hInner hWithin (hApart.filter _) hPerm
      have hSame : spliced t edits = spliced t others := by rw [spliced, spliced, hPlaced, hEnd]
      rw [← hResult, h.applyAll_eq_ok hApart, hOthers.applyAll_eq_ok
        (hOthers.firstCollision?_eq_none_iff.mp hOthersNone), hSame]

end Fit

/-- Carrying out edits of one file, in any order, fails exactly if some two of its changes overlap;
if none do, it gives the text with all of them made at once and the additions at its end. The order
of the changes plays no part. -/
theorem applyAll_eq_spliced {path : String} (hPath : ∀ e ∈ edits, e.path = path)
    (hWithin : ∀ e ∈ edits, e.isAppend = false → 0 ≤ e.start ∧ e.start ≤ e.stop ∧ e.stop ≤ t.length)
    (hZero : ∀ e ∈ edits, e.isAppend = true → e.start = 0 ∧ e.stop = 0) :
    ((∃ e, applyAll t edits = .error e) ↔
      ∃ d e, [d, e].Sublist (edits.filter (!·.isAppend)) ∧ d.overlaps e = true) ∧
    ((∀ d e, [d, e].Sublist (edits.filter (!·.isAppend)) → d.overlaps e = false) →
      applyAll t edits = .ok (spliced t edits)) ∧
    ∀ others : List Edit, (edits.filter (!·.isAppend)).Perm (others.filter (!·.isAppend)) →
      edits.filter isAppend = others.filter isAppend →
      (applyAll t edits).mapError collisionMessage =
      (applyAll t others).mapError collisionMessage := by
  have hFit : Fit path t edits :=
    ⟨hPath, fun e he hInner => ⟨(hWithin e he hInner).1, (hWithin e he hInner).2.1,
      (hWithin e he hInner).2.2⟩, hZero⟩
  have hNone : firstCollision? ((sorted edits).filter (!·.isAppend)) = none ↔
      ∀ d e, [d, e].Sublist (edits.filter (!·.isAppend)) → d.overlaps e = false := by
    rw [hFit.firstCollision?_eq_none_iff, ← pairwise_filter_iff, List.pairwise_iff_forall_sublist]
  refine ⟨?_, fun hApart => ?_, fun others => hFit.applyAll_eq_of_perm⟩
  · calc (∃ e, applyAll t edits = .error e)
        ↔ firstCollision? ((sorted edits).filter (!·.isAppend)) ≠ none := by
          simp only [applyAll_eq_error_iff, Option.ne_none_iff_exists']
      _ ↔ ∃ d e, [d, e].Sublist (edits.filter (!·.isAppend)) ∧ d.overlaps e = true := by
          simp only [ne_eq, hNone, not_forall, exists_prop, Bool.not_eq_false]
  · exact hFit.applyAll_eq_ok (hFit.firstCollision?_eq_none_iff.mp (hNone.mpr hApart))

/-- Two insertions, a change behind one of them and an addition at the end, out of order. -/
def scattered : List Edit :=
  [ { path := "a.cpp", start := 4, stop := 5, text := Text.ofString "X", proposal := "p" },
    { path := "a.cpp", start := 0, stop := 0, text := Text.ofString "Z", proposal := "p",
      kind := .append },
    { path := "a.cpp", start := 1, stop := 3, text := Text.ofString "W", proposal := "q" },
    { path := "a.cpp", start := 1, stop := 1, text := Text.ofString "Y", proposal := "p" },
    { path := "a.cpp", start := 6, stop := 6, text := Text.ofString "V", proposal := "q" } ]

theorem applyAll_eq_spliced_scattered :
    applyAll (Text.ofString "abcdef") scattered = .ok (Text.ofString "aYWdXfVZ") := by
  have hApart : (scattered.filter (!·.isAppend)).Pairwise fun d e => d.overlaps e = false := by
    decide
  have hPath : ∀ e ∈ scattered, e.path = "a.cpp" := by decide
  have hMade : applyAll (Text.ofString "abcdef") scattered = .ok
      (spliced (Text.ofString "abcdef") scattered) :=
    (applyAll_eq_spliced hPath (by decide) (by decide)).2.1
      fun d e h => List.pairwise_iff_forall_sublist.mp hApart h
  have hText : spliced (Text.ofString "abcdef") scattered = Text.ofString "aYWdXfVZ" := by decide
  exact hMade.trans (congrArg Except.ok hText)

end Demacro.Edit
