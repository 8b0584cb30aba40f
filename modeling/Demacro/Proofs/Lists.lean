import Demacro.Constant
import Demacro.Plan
import Demacro.Sorting
import Mathlib.Data.List.Nodup
import Mathlib.Data.List.Perm.Basic
import Mathlib.Tactic.Tauto

/-!
Lists that collect things one by one: items that are not there yet, and values by their keys. And
lists that are sorted: sorting keeps the elements, and the order of those that may stand either way.
-/

namespace Demacro

@[simp]
theorem mem_appendNew {α : Type} [BEq α] [LawfulBEq α] {x : α} {items others : List α} :
    x ∈ appendNew items others ↔ x ∈ items ∨ x ∈ others := by
  induction others generalizing items with
  | nil => simp [appendNew]
  | cons y others ih =>
      rw [appendNew, ih]
      split
      · rename_i hKnown
        rw [List.mem_cons]
        constructor
        · tauto
        · rintro (h | rfl | h)
          · exact .inl h
          · exact .inl (by simpa using hKnown)
          · exact .inr h
      · simp [or_assoc]

/-- A list with each element once holds none twice. -/
theorem nodup_eraseDups {α : Type} [BEq α] [LawfulBEq α] : ∀ items : List α, items.eraseDups.Nodup
  | [] => .nil
  | x :: items => by
      rw [List.eraseDups_cons]
      refine List.nodup_cons.mpr ⟨?_, nodup_eraseDups _⟩
      simp [List.mem_eraseDups]
termination_by items => items.length
decreasing_by exact Nat.lt_succ_of_le (List.length_filter_le _ _)

/-- A list whose elements differ holds each of them once already. -/
theorem eraseDups_of_nodup {α : Type} [BEq α] [LawfulBEq α] {items : List α} (h : items.Nodup) :
    items.eraseDups = items := by
  induction items with
  | nil => rfl
  | cons x items ih =>
      obtain ⟨hNew, hRest⟩ := List.nodup_cons.mp h
      have hKept : items.filter (fun y => !y == x) = items := by
        refine List.filter_eq_self.mpr fun y hy => ?_
        simpa using ne_of_mem_of_not_mem hy hNew
      rw [List.eraseDups_cons, hKept, ih hRest]

/-- It does not matter whether a test is made before or after each element is left once. -/
theorem eraseDups_filter {α : Type} [BEq α] [LawfulBEq α] (p : α → Bool) :
    ∀ items : List α, (items.filter p).eraseDups = items.eraseDups.filter p
  | [] => rfl
  | x :: items => by
      have hRest := eraseDups_filter p (items.filter fun y => !y == x)
      rw [List.filter_comm] at hRest
      rw [List.eraseDups_cons]
      by_cases hTest : p x = true
      · rw [List.filter_cons_of_pos hTest, List.filter_cons_of_pos hTest, List.eraseDups_cons,
          hRest]
      · have hAbsent : (items.filter p).filter (fun y => !y == x) = items.filter p := by
          refine List.filter_eq_self.mpr fun y hy => ?_
          have hy := (List.mem_filter.mp hy).2
          simpa using fun hSame : y = x => hTest (hSame ▸ hy)
        rw [List.filter_cons_of_neg hTest, List.filter_cons_of_neg hTest, ← hRest, hAbsent]
termination_by items => items.length
decreasing_by exact Nat.lt_succ_of_le (List.length_filter_le _ _)

/-- Which elements two lists hold together, and in which order they come first, depends on that of
each list only. -/
theorem eraseDups_append_congr {α : Type} [BEq α] [LawfulBEq α] {xs xs' ys ys' : List α}
    (hFirst : xs.eraseDups = xs'.eraseDups) (hSecond : ys.eraseDups = ys'.eraseDups) :
    (xs ++ ys).eraseDups = (xs' ++ ys').eraseDups := by
  have hElem : ∀ x, xs.elem x = xs'.elem x := by
    intro x
    rw [Bool.eq_iff_iff, List.elem_iff, List.elem_iff, ← List.mem_eraseDups, hFirst,
      List.mem_eraseDups]
  rw [List.eraseDups_append, List.eraseDups_append, hFirst]
  simp only [List.removeAll, eraseDups_filter, hSecond, hElem]

theorem appendNew_append {α : Type} [BEq α] {xs ys zs : List α} :
    appendNew xs (ys ++ zs) = appendNew (appendNew xs ys) zs := by
  induction ys generalizing xs with
  | nil => rfl
  | cons y ys ih => exact ih

/-- Items that are added one by one stand behind the others as they come first. -/
theorem appendNew_eq_append {α : Type} [BEq α] [LawfulBEq α] {items others : List α} :
    appendNew items others = items ++ (others.removeAll items).eraseDups := by
  induction others generalizing items with
  | nil => simp [appendNew, List.removeAll]
  | cons y others ih =>
      rw [appendNew, ih]
      by_cases hKnown : y ∈ items
      · rw [if_pos (by simpa using hKnown), List.removeAll, List.removeAll,
          List.filter_cons_of_neg (by simpa using hKnown)]
      · have hRest : others.removeAll (items ++ [y]) = (others.removeAll items).filter fun x =>
            !x == y := by
          rw [List.removeAll, List.removeAll, List.filter_filter]
          refine List.filter_congr fun x _ => ?_
          rw [← Bool.not_or, Bool.not_eq_eq_eq_not, Bool.not_not, Bool.eq_iff_iff, List.elem_iff,
            Bool.or_eq_true,
            List.elem_iff, beq_iff_eq, List.mem_append, List.mem_singleton, or_comm]
        have hNew : (y :: others).removeAll items = y :: others.removeAll items :=
          List.filter_cons_of_pos (by simpa using hKnown)
        rw [if_neg (by simpa using hKnown), hRest, hNew, List.eraseDups_cons, List.append_assoc,
          List.singleton_append]

/-- Where no two elements have the same key, one element has the key of an element. -/
theorem filter_key_of_nodup {α κ : Type} [DecidableEq κ] {key : α → κ} {items : List α} {a : α}
    (h : (items.map key).Nodup) (ha : a ∈ items) : items.filter (fun b => key b = key a) = [a] := by
  induction items with
  | nil => cases ha
  | cons b items ih =>
      rw [List.map_cons, List.nodup_cons] at h
      obtain ⟨hNew, hRest⟩ := h
      rcases List.mem_cons.mp ha with rfl | ha
      · have hNone : items.filter (fun b => key b = key a) = [] := by
          refine List.filter_eq_nil_iff.mpr fun b hb hSame => hNew ?_
          rw [← of_decide_eq_true hSame]
          exact List.mem_map_of_mem hb
        rw [List.filter_cons_of_pos (by simp), hNone]
      · have hOther : key b ≠ key a := fun hSame => hNew (hSame ▸ List.mem_map_of_mem ha)
        rw [List.filter_cons_of_neg (by simpa using hOther), ih hRest ha]

theorem mem_keys_setKey {κ α : Type} [DecidableEq κ] {k key : κ} {value : α}
    {pairs : List (κ × α)} :
    k ∈ (setKey key value pairs).map Prod.fst ↔ k = key ∨ k ∈ pairs.map Prod.fst := by
  induction pairs with
  | nil => simp [setKey]
  | cons pair pairs ih =>
      unfold setKey
      split
      · rename_i hKey
        simp only [List.map_cons, List.mem_cons, hKey]
        tauto
      · simp only [List.map_cons, List.mem_cons, ih]
        tauto

theorem lookup_eq_none_iff_notMem {κ α : Type} [BEq κ] [LawfulBEq κ] {key : κ}
    {pairs : List (κ × α)} : pairs.lookup key = none ↔ key ∉ pairs.map Prod.fst := by
  rw [List.lookup_eq_none_iff]
  simp only [List.mem_map, not_exists, not_and, bne_iff_ne]
  exact forall₂_congr fun pair _ => ne_comm

/-- Values that are made from others are found by the same keys. -/
theorem lookup_map_value {κ α β : Type} [BEq κ] [LawfulBEq κ] (f : κ → α → β) (key : κ)
    (pairs : List (κ × α)) :
    (pairs.map fun pair => (pair.1, f pair.1 pair.2)).lookup key =
    (pairs.lookup key).map (f key) := by
  induction pairs with
  | nil => rfl
  | cons pair pairs ih =>
      rw [List.map_cons, List.lookup_cons, List.lookup_cons, ih]
      cases hKey : key == pair.1 with
      | true => rw [eq_of_beq hKey, Option.map_some]
      | false => rfl

namespace Sorting

variable {α : Type} {le : α → α → Bool}

theorem insert_perm (a : α) (as : List α) : (insert le a as).Perm (a :: as) := by
  induction as with
  | nil => exact .refl _
  | cons b bs ih =>
      unfold insert
      split
      · exact .refl _
      · exact (ih.cons b).trans (.swap a b bs)

theorem sort_perm (as : List α) : (sort le as).Perm as := by
  induction as with
  | nil => exact .refl _
  | cons a as ih => exact (insert_perm a _).trans (ih.cons a)

@[simp]
theorem mem_sort {a : α} {as : List α} : a ∈ sort le as ↔ a ∈ as :=
  (sort_perm as).mem_iff

/-- A sorted list is in order, if the order is total and transitive. -/
theorem sort_pairwise (le : α → α → Bool) (hTotal : ∀ a b, le a b = true ∨ le b a = true)
    (hTrans : ∀ a b c, le a b = true → le b c = true → le a c = true) (as : List α) :
    (sort le as).Pairwise (le · · = true) := by
  have hInsert : ∀ (a : α) (bs : List α), bs.Pairwise (le · · = true) →
      (insert le a bs).Pairwise (le · · = true) := by
    intro a bs h
    induction bs with
    | nil => exact List.pairwise_singleton _ a
    | cons b bs ih =>
        obtain ⟨hFirst, hRest⟩ := List.pairwise_cons.mp h
        unfold insert
        split
        · rename_i hLe
          refine List.pairwise_cons.mpr ⟨fun c hc => ?_, h⟩
          rcases List.mem_cons.mp hc with rfl | hc
          · exact hLe
          · exact hTrans a b c hLe (hFirst c hc)
        · rename_i hLe
          refine List.pairwise_cons.mpr ⟨fun c hc => ?_, ih hRest⟩
          rcases List.mem_cons.mp ((insert_perm a bs).mem_iff.mp hc) with rfl | hc
          · exact (hTotal c b).resolve_left hLe
          · exact hFirst c hc
  induction as with
  | nil => exact .nil
  | cons a as ih => exact hInsert a _ ih

/-- Of elements that may stand either way the one that came first stays first. -/
theorem sort_pairwise_tied (hTotal : ∀ a b, le a b = true ∨ le b a = true)
    (hTrans : ∀ a b c, le a b = true → le b c = true → le a c = true) {R : α → α → Prop}
    {as : List α} (h : as.Pairwise fun a b => le a b = true → le b a = true → R a b) :
    (sort le as).Pairwise fun a b => le b a = true → R a b := by
  have hInsert : ∀ (a : α) (bs : List α), bs.Pairwise (le · · = true) →
      bs.Pairwise (fun b c => le c b = true → R b c) → (∀ b ∈ bs, le a b = true → le b a = true →
        R a b) →
      (insert le a bs).Pairwise fun b c => le c b = true → R b c := by
    intro a bs hSorted hTied hNew
    induction bs with
    | nil => exact List.pairwise_singleton _ a
    | cons b bs ih =>
        obtain ⟨hLe, hSorted⟩ := List.pairwise_cons.mp hSorted
        obtain ⟨hFirst, hRest⟩ := List.pairwise_cons.mp hTied
        unfold insert
        split
        · rename_i hHere
          refine List.pairwise_cons.mpr ⟨fun c hc => hNew c hc ?_, hTied⟩
          rcases List.mem_cons.mp hc with rfl | hc
          · exact hHere
          · exact hTrans a b c hHere (hLe c hc)
        · rename_i hBehind
          refine List.pairwise_cons.mpr ⟨fun c hc => ?_, ih hSorted hRest fun c hc => hNew c
            (List.mem_cons_of_mem b hc)⟩
          rcases List.mem_cons.mp ((insert_perm a bs).mem_iff.mp hc) with rfl | hc
          · exact fun hBack => absurd hBack hBehind
          · exact hFirst c hc
  induction as with
  | nil => exact .nil
  | cons a as ih =>
      obtain ⟨hFirst, hRest⟩ := List.pairwise_cons.mp h
      exact hInsert a _ (sort_pairwise le hTotal hTrans as) (ih hRest) fun b hb =>
        hFirst b (mem_sort.mp hb)

/-- Elements can be sorted by what belongs to them. -/
theorem map_sort {β : Type} (f : β → α) (bs : List β) :
    (sort (fun b c => le (f b) (f c)) bs).map f = sort le (bs.map f) := by
  have hInsert : ∀ (b : β) (bs : List β),
      (insert (fun b c => le (f b) (f c)) b bs).map f = insert le (f b) (bs.map f) := by
    intro b bs
    induction bs with
    | nil => rfl
    | cons c bs ih =>
        rw [List.map_cons, insert, insert]
        split
        · rfl
        · rw [List.map_cons, ih]
  induction bs with
  | nil => rfl
  | cons b bs ih => rw [sort, hInsert, ih, List.map_cons, sort]

theorem filter_insert {p : α → Bool} {a : α} {as : List α}
    (hTied : ∀ b ∈ as, p a = true → p b = true → le a b = true) :
    (insert le a as).filter p = (a :: as).filter p := by
  induction as with
  | nil => rfl
  | cons b bs ih =>
      unfold insert
      split
      · rfl
      · rename_i hBehind
        rw [List.filter_cons, ih fun c hc => hTied c (List.mem_cons_of_mem b hc)]
        cases ha : p a <;> cases hb : p b
        · simp [ha, hb]
        · simp [ha, hb]
        · simp [ha, hb]
        · exact absurd (hTied b List.mem_cons_self ha hb) hBehind

/-- Elements of which any two may stand either way keep the order that they had. -/
theorem filter_sort {p : α → Bool} {as : List α}
    (hTied : ∀ a ∈ as, ∀ b ∈ as, p a = true → p b = true → le a b = true) :
    (sort le as).filter p = as.filter p := by
  induction as with
  | nil => rfl
  | cons a as ih =>
      have hRest : (sort le as).filter p = as.filter p :=
        ih fun b hb c hc => hTied b (List.mem_cons_of_mem a hb) c (List.mem_cons_of_mem a hc)
      have hFirst : ∀ b ∈ sort le as, p a = true → p b = true → le a b = true := fun b hb =>
        hTied a List.mem_cons_self b (List.mem_cons_of_mem a (mem_sort.mp hb))
      rw [sort, filter_insert hFirst, List.filter_cons, List.filter_cons, hRest]

end Sorting

end Demacro
