import Demacro.Unit
import Mathlib.Data.List.Basic

/-!
Which lines the preprocessor keeps. A truth value for each conditional line selects the first branch
of a group whose condition holds, and the `#else` branch if none does; a line is kept if each branch
around it is selected.
-/

namespace Demacro

/-- A branch of a conditional group: the places of the conditions of the branches before it, and
that of its own condition unless it is an `#else`. -/
structure Branch where
  earlier : List Nat
  condition : Option Nat
deriving DecidableEq

/-- The conditional directive on a line. -/
def UnitLine.conditional? (line : UnitLine) : Option Conditional :=
  match line.role with
  | .code => none
  | .directive keyword _ _ => Conditional.ofKeyword? keyword

/-- The tokens behind the keyword of a directive line. -/
def UnitLine.operands (line : UnitLine) : List Token :=
  (Directive.split (line.first :: line.rest)).2

namespace Branch

variable {b : Branch} {ρ ρ' : Nat → Bool} {S T : List Branch} {n p q : Nat}
  {lines : List (Nat × UnitLine)}

/-- The conditions that decide about a branch. -/
def places (b : Branch) : List Nat :=
  b.earlier ++ b.condition.toList

/-- Whether truth values of the conditions select a branch. -/
def selected (ρ : Nat → Bool) (b : Branch) : Bool :=
  b.earlier.all (!ρ ·) && b.condition.all ρ

theorem selected_congr (h : ∀ x ∈ b.places, ρ x = ρ' x) : b.selected ρ = b.selected ρ' := by
  simp only [places, List.mem_append, Option.mem_toList] at h
  unfold selected
  congr 1
  · rw [Bool.eq_iff_iff]
    simp only [List.all_eq_true]
    exact forall₂_congr fun x hx => by rw [h x (.inl hx)]
  · cases hCondition : b.condition with
    | none => rfl
    | some x => exact h x (.inr hCondition)

/-- The branches around what follows a conditional directive at place `n`, innermost first. -/
def next (c : Conditional) (n : Nat) (S : List Branch) : List Branch :=
  if c.isOpener then ⟨[], some n⟩ :: S
  else
    match S with
    | [] => []
    | b :: outer =>
      match c with
      | .endGroup => outer
      | .otherwise => ⟨b.places, none⟩ :: outer
      | _ => ⟨b.places, some n⟩ :: outer

theorem next_opener {c : Conditional} (h : c.isOpener = true) : next c n S = ⟨[], some n⟩ :: S :=
  if_pos h

theorem next_further {c : Conditional} (hOpener : c.isOpener = false) (hEnd : c ≠ .endGroup)
    (hElse : c ≠ .otherwise) : next c n (b :: S) = ⟨b.places, some n⟩ :: S := by
  cases c <;> simp_all [next, Conditional.isOpener]

/-- The branches around what follows a line at place `n`. -/
def behind (n : Nat) (line : UnitLine) (S : List Branch) : List Branch :=
  line.conditional?.elim S (next · n S)

/-- The branches around a place. -/
def around (p : Nat) : List Branch → List (Nat × UnitLine) → List Branch
  | S, [] => S
  | S, (n, line) :: lines => if n < p then around p (behind n line S) lines else S

theorem behind_conditional {line : UnitLine} {c : Conditional} (h : line.conditional? = some c) :
    behind n line S = next c n S := by
  rw [behind, h, Option.elim_some]

theorem behind_other {line : UnitLine} (h : line.conditional? = none) : behind n line S = S := by
  rw [behind, h, Option.elim_none]

theorem around_self {line : UnitLine} : around n S ((n, line) :: lines) = S :=
  if_neg (Nat.lt_irrefl n)

theorem around_later {line : UnitLine} (h : n < p) :
    around p S ((n, line) :: lines) = around p (behind n line S) lines :=
  if_pos h

/-- How a line at place `n` can change the branches around what follows. A branch without a
condition is the last of its group. -/
inductive Step (n : Nat) : List Branch → List Branch → Prop where
  | stay (S : List Branch) : Step n S S
  | enter (S : List Branch) : Step n S (⟨[], some n⟩ :: S)
  | turn {b : Branch} (S : List Branch) {condition : Option Nat}
      (hCondition : b.condition.isSome = true) (hPlace : condition = none ∨ condition = some n) :
      Step n (b :: S) (⟨b.places, condition⟩ :: S)
  | leave (b : Branch) (S : List Branch) : Step n (b :: S) S

/-- No branches share a condition, and all conditions come before a place. -/
structure Nested (n : Nat) (S : List Branch) : Prop where
  before : ∀ b ∈ S, ∀ x ∈ b.places, x < n
  apart : S.Pairwise fun b c => b.places.Disjoint c.places

/-- Each line of a sequence in order changes the branches as it can. -/
inductive Runs : List Branch → List (Nat × UnitLine) → Prop where
  | nil (S : List Branch) : Runs S []
  | cons {n : Nat} {line : UnitLine} {S : List Branch} {lines : List (Nat × UnitLine)}
      (hOrder : ∀ l ∈ lines, n < l.1) (hNested : Nested n S) (hStep : Step n S (behind n line S))
      (hRest : Runs (behind n line S) lines) : Runs S ((n, line) :: lines)

theorem Nested.mono (h : Nested n S) (hLe : n ≤ p) : Nested p S :=
  ⟨fun b hb x hx => Nat.lt_of_lt_of_le (h.before b hb x hx) hLe, h.apart⟩

theorem Step.nested (hStep : Step n S T) (h : Nested n S) : Nested (n + 1) T := by
  have hLater := h.mono (Nat.le_succ n)
  cases hStep with
  | stay => exact hLater
  | enter =>
      constructor
      · intro b hb x hx
        rcases List.mem_cons.mp hb with rfl | hb
        · simp only [places, List.nil_append, Option.toList_some, List.mem_singleton] at hx
          omega
        · exact hLater.before b hb x hx
      · refine List.pairwise_cons.mpr ⟨fun b hb x hx hOther => ?_, h.apart⟩
        simp only [places, List.nil_append, Option.toList_some, List.mem_singleton] at hx
        exact absurd (h.before b hb x hOther) (by omega)
  | @turn b S condition _ hPlace =>
      have hNew : ∀ x ∈ (Branch.mk b.places condition).places, x ∈ b.places ∨ x = n := by
        intro x hx
        refine (List.mem_append.mp hx).imp_right fun hx => ?_
        rcases hPlace with rfl | rfl <;> simp_all
      have hOld := List.pairwise_cons.mp h.apart
      constructor
      · intro c hc x hx
        rcases List.mem_cons.mp hc with rfl | hc
        · rcases hNew x hx with hx | rfl
          · exact hLater.before b List.mem_cons_self x hx
          · exact Nat.lt_succ_self _
        · exact hLater.before c (List.mem_cons_of_mem _ hc) x hx
      · refine List.pairwise_cons.mpr ⟨fun c hc x hx hOther => ?_, hOld.2⟩
        rcases hNew x hx with hx | rfl
        · exact hOld.1 c hc hx hOther
        · exact absurd (h.before c (List.mem_cons_of_mem _ hc) x hOther) (by omega)
  | leave =>
      exact ⟨fun b hb => hLater.before b (List.mem_cons_of_mem _ hb),
        (List.pairwise_cons.mp h.apart).2⟩

section

variable {P : List Branch → Prop}

private theorem around_induct_from (hRuns : Runs S lines) (hFrom : ∀ l ∈ lines, p ≤ l.1)
    (hStep : ∀ n T T', p ≤ n → Nested n T → Step n T T' → P T → P T') (h : P S) :
    P (around q S lines) := by
  induction hRuns with
  | nil S => exact h
  | @cons n line S lines hOrder hNested hLine hRest ih =>
      unfold around
      split
      · refine ih (fun l hl => hFrom l (List.mem_cons_of_mem _ hl)) ?_
        exact hStep n S _ (hFrom _ List.mem_cons_self) hNested hLine h
      · exact h

/-- What every step behind a place keeps holds at every later place. -/
theorem around_induct (hRuns : Runs S lines)
    (hStep : ∀ n T T', p ≤ n → Nested n T → Step n T T' → P T → P T') (hLe : p ≤ q)
    (h : P (around p S lines)) : P (around q S lines) := by
  induction hRuns with
  | nil S => exact h
  | @cons n line S lines hOrder hNested hLine hRest ih =>
      unfold around at h
      by_cases hBefore : n < p
      · rw [if_pos hBefore] at h
        rw [around, if_pos (Nat.lt_of_lt_of_le hBefore hLe)]
        exact ih h
      · rw [if_neg hBefore] at h
        refine around_induct_from (.cons hOrder hNested hLine hRest) (fun l hl => ?_) hStep h
        rcases List.mem_cons.mp hl with rfl | hl
        · exact Nat.le_of_not_lt hBefore
        · exact Nat.le_trans (Nat.le_of_not_lt hBefore) (Nat.le_of_lt (hOrder l hl))

end

/-- Conditions around a place come before it. -/
theorem nested_around (hRuns : Runs S lines) (h : Nested p S) : Nested p (around p S lines) := by
  induction hRuns with
  | nil S => exact h
  | cons hOrder hNested hLine hRest ih =>
      unfold around
      split
      · rename_i hBefore
        exact ih ((hLine.nested hNested).mono hBefore)
      · exact h

/-- The second branch is a later one of the group of the first. -/
def Follows (b c : Branch) : Prop :=
  b.condition.isSome = true ∧ ∀ x ∈ b.places, x ∈ c.earlier

/-- Only one branch of a group is selected. -/
theorem Follows.not_selected {c : Branch} (h : Follows b c) (hSelected : c.selected ρ = true) :
    b.selected ρ = false := by
  obtain ⟨x, hx⟩ := Option.isSome_iff_exists.mp h.1
  have hPlace : x ∈ b.places := by simp [places, hx]
  have hFalse : ρ x = false := by
    have hAll := (Bool.and_eq_true_iff.mp hSelected).1
    simpa using List.all_eq_true.mp hAll x (h.2 x hPlace)
  simp [selected, hx, hFalse]

/-- How the branches around a later place relate to a branch: it is still open, or a later branch of
its group is, or its group is closed. -/
def Lasts (b : Branch) (T : List Branch) : Prop :=
  b ∈ T ∨ (∃ c ∈ T, Follows b c) ∨ ∀ c ∈ T, b.places.Disjoint c.places

theorem Step.disjoint (hStep : Step n S T) (hPlaces : ∀ x ∈ b.places, x < n)
    (h : ∀ c ∈ S, b.places.Disjoint c.places) : ∀ c ∈ T, b.places.Disjoint c.places := by
  have hNew : n ∉ b.places := fun hn => absurd (hPlaces n hn) (Nat.lt_irrefl n)
  cases hStep with
  | stay => exact h
  | enter =>
      intro c hc
      rcases List.mem_cons.mp hc with rfl | hc
      · simpa [places, List.disjoint_singleton] using hNew
      · exact h c hc
  | @turn t S condition _ hPlace =>
      intro c hc
      rcases List.mem_cons.mp hc with rfl | hc
      · have hOld := h t List.mem_cons_self
        rcases hPlace with rfl | rfl
        · simpa [places] using hOld
        · simp only [places, Option.toList_some, List.disjoint_append_right,
            List.disjoint_singleton]
          exact ⟨by simpa [places] using hOld, hNew⟩
      · exact h c (List.mem_cons_of_mem _ hc)
  | leave => exact fun c hc => h c (List.mem_cons_of_mem _ hc)

theorem Step.lasts (hStep : Step n S T) (hNested : Nested n S) (hPlaces : ∀ x ∈ b.places, x < n)
    (h : Lasts b S) : Lasts b T := by
  rcases h with h | ⟨c, hc, hFollows⟩ | h
  · cases hStep with
    | stay => exact .inl h
    | enter => exact .inl (List.mem_cons_of_mem _ h)
    | turn _ hCondition =>
        rcases List.mem_cons.mp h with rfl | h
        · exact .inr (.inl ⟨_, List.mem_cons_self, hCondition, fun x hx => hx⟩)
        · exact .inl (List.mem_cons_of_mem _ h)
    | leave =>
        rcases List.mem_cons.mp h with rfl | h
        · exact .inr (.inr (List.pairwise_cons.mp hNested.apart).1)
        · exact .inl h
  · cases hStep with
    | stay => exact .inr (.inl ⟨c, hc, hFollows⟩)
    | enter => exact .inr (.inl ⟨c, List.mem_cons_of_mem _ hc, hFollows⟩)
    | turn =>
        rcases List.mem_cons.mp hc with rfl | hc
        · refine .inr (.inl ⟨_, List.mem_cons_self, hFollows.1, fun x hx => ?_⟩)
          exact List.mem_append_left _ (hFollows.2 x hx)
        · exact .inr (.inl ⟨c, List.mem_cons_of_mem _ hc, hFollows⟩)
    | leave =>
        rcases List.mem_cons.mp hc with rfl | hc
        · refine .inr (.inr fun d hd x hx hOther => ?_)
          exact (List.pairwise_cons.mp hNested.apart).1 d hd
            (List.mem_append_left _ (hFollows.2 x hx)) hOther
        · exact .inr (.inl ⟨c, hc, hFollows⟩)
  · exact .inr (.inr (hStep.disjoint hPlaces h))

/-- What became of a branch at a later place. -/
theorem lasts_around (hRuns : Runs S lines) (hNested : Nested p S) (hLe : p ≤ q)
    (h : b ∈ around p S lines) : Lasts b (around q S lines) := by
  have hPlaces := (nested_around hRuns hNested).before b h
  refine around_induct hRuns (fun n T T' hFrom hT hStep hLasts => ?_) hLe (.inl h)
  exact hStep.lasts hT (fun x hx => Nat.lt_of_lt_of_le (hPlaces x hx) hFrom) hLasts

/-- A group that is closed has no say in anything behind. -/
theorem disjoint_around (hRuns : Runs S lines) (hPlaces : ∀ x ∈ b.places, x < p) (hLe : p ≤ q)
    (h : ∀ c ∈ around p S lines, b.places.Disjoint c.places) :
    ∀ c ∈ around q S lines, b.places.Disjoint c.places := by
  refine around_induct (P := fun T => ∀ c ∈ T, b.places.Disjoint c.places) hRuns
    (fun n T T' hFrom _ hStep hApart => ?_) hLe h
  exact hStep.disjoint (fun x hx => Nat.lt_of_lt_of_le (hPlaces x hx) hFrom) hApart

end Branch

end Demacro
