import Demacro.Classification.OfSurvey
import Mathlib.Data.List.Forall2

/-!
Computations that succeed. A computation made of several parts succeeds only if each part does, so
the success of the whole is taken apart step by step.
-/

namespace List.Forall₂

variable {α β : Type} {R : α → β → Prop} {xs : List α} {ys : List β}

theorem exists_right (h : List.Forall₂ R xs ys) {x : α} (hx : x ∈ xs) : ∃ y ∈ ys, R x y := by
  induction h with
  | nil => cases hx
  | @cons a b _ _ hHead _ ih =>
      rcases List.mem_cons.mp hx with rfl | hx
      · exact ⟨b, List.mem_cons_self, hHead⟩
      · obtain ⟨y, hy, hRel⟩ := ih hx
        exact ⟨y, List.mem_cons_of_mem b hy, hRel⟩

theorem exists_left (h : List.Forall₂ R xs ys) {y : β} (hy : y ∈ ys) : ∃ x ∈ xs, R x y :=
  h.flip.exists_right hy

end List.Forall₂

namespace Except

variable {ε α β : Type}

theorem bind_eq_ok_iff {x : Except ε α} {f : α → Except ε β} {b : β} :
    (x >>= f) = .ok b ↔ ∃ a, x = .ok a ∧ f a = .ok b := by
  cases x with
  | error e => simp [bind, Except.bind]
  | ok a => simp [bind, Except.bind]

theorem bind_eq_error_iff {x : Except ε α} {f : α → Except ε β} {e : ε} :
    (x >>= f) = .error e ↔ x = .error e ∨ ∃ a, x = .ok a ∧ f a = .error e := by
  cases x with
  | error other => simp [bind, Except.bind]
  | ok a => simp [bind, Except.bind]

theorem map_eq_ok_iff {x : Except ε α} {f : α → β} {b : β} :
    x.map f = .ok b ↔ ∃ a, x = .ok a ∧ f a = b := by
  cases x with
  | error e => simp [Except.map]
  | ok a => simp [Except.map]

theorem map_eq_error_iff {x : Except ε α} {f : α → β} {e : ε} :
    x.map f = .error e ↔ x = .error e := by
  cases x with
  | error other => simp [Except.map]
  | ok a => simp [Except.map]

theorem mapError_eq_error_iff {ε' : Type} {x : Except ε α} {f : ε → ε'} {e' : ε'} :
    x.mapError f = .error e' ↔ ∃ e, x = .error e ∧ f e = e' := by
  cases x with
  | error e => simp [Except.mapError]
  | ok a => simp [Except.mapError]

theorem mapError_eq_ok_iff {ε' : Type} {x : Except ε α} {f : ε → ε'} {a : α} :
    x.mapError f = .ok a ↔ x = .ok a := by
  cases x with
  | error e => simp [Except.mapError]
  | ok a => simp [Except.mapError]

/-- Whether a computation succeeds with a result that passes a test. -/
def passes (x : Except ε α) (test : α → Bool) : Bool :=
  match x with
  | .ok a => test a
  | .error _ => false

/-- What a successful computation is known to give once its result was tested. -/
theorem exists_of_passes {x : Except ε α} {Q : α → Prop} (test : α → Bool)
    (hPasses : x.passes test = true) (hQ : ∀ a, x = .ok a → test a = true → Q a) :
    ∃ a, x = .ok a ∧ Q a := by
  cases x with
  | error e => cases hPasses
  | ok a => exact ⟨a, rfl, hQ a rfl hPasses⟩

/-- Going through a list succeeds if each step does, and gives the results in order. -/
theorem mapM_eq_ok_iff {f : α → Except ε β} {xs : List α} {ys : List β} :
    xs.mapM f = .ok ys ↔ List.Forall₂ (fun x y => f x = .ok y) xs ys := by
  induction xs generalizing ys with
  | nil => simp [pure, Except.pure, eq_comm]
  | cons x xs ih =>
      rw [List.mapM_cons, bind_eq_ok_iff]
      constructor
      · rintro ⟨y, hy, h⟩
        obtain ⟨zs, hzs, h⟩ := bind_eq_ok_iff.mp h
        cases h
        exact .cons hy (ih.mp hzs)
      · intro h
        cases h with
        | cons hy hys => exact ⟨_, hy, bind_eq_ok_iff.mpr ⟨_, ih.mpr hys, rfl⟩⟩

/-- Going through a list fails only where a step does. -/
theorem exists_of_mapM_eq_error {f : α → Except ε β} {xs : List α} {e : ε}
    (h : xs.mapM f = .error e) : ∃ x ∈ xs, f x = .error e := by
  induction xs with
  | nil => cases h
  | cons x xs ih =>
      rw [List.mapM_cons, bind_eq_error_iff] at h
      rcases h with hHead | ⟨y, -, h⟩
      · exact ⟨x, List.mem_cons_self, hHead⟩
      · rcases bind_eq_error_iff.mp h with hTail | ⟨ys, -, h⟩
        · obtain ⟨z, hz, hFault⟩ := ih hTail
          exact ⟨z, List.mem_cons_of_mem x hz, hFault⟩
        · cases h

end Except

namespace Demacro.Classifying

/-- The classifications that are remembered. -/
abbrev Memory := List (String × Classification)

variable {α β : Type} {P : Memory → Prop} {Q R : α → Prop}

/-- Every successful computation that starts with a memory as `P` says ends with such a memory and
with a result as `Q` says. -/
def Yields (P : Memory → Prop) (m : Classifying α) (Q : α → Prop) : Prop :=
  ∀ memory a memory', P memory → m.run memory = .ok (a, memory') → P memory' ∧ Q a

theorem yields_pure {a : α} (h : Q a) : Yields P (pure a) Q := by
  intro memory b memory' hP hRun
  cases hRun
  exact ⟨hP, h⟩

theorem yields_throw (e : FoldError) : Yields P (throw e) Q := by
  intro memory b memory' _ hRun
  cases hRun

theorem Yields.mono {m : Classifying α} (h : Yields P m Q) (hQ : ∀ a, Q a → R a) :
    Yields P m R := by
  intro memory a memory' hP hRun
  obtain ⟨hP', ha⟩ := h memory a memory' hP hRun
  exact ⟨hP', hQ a ha⟩

theorem Yields.and {m : Classifying α} (h : Yields P m Q) (h' : Yields P m R) :
    Yields P m fun a => Q a ∧ R a := by
  intro memory a memory' hP hRun
  obtain ⟨hP', hQ⟩ := h memory a memory' hP hRun
  exact ⟨hP', hQ, (h' memory a memory' hP hRun).2⟩

theorem Yields.bind {m : Classifying α} {f : α → Classifying β} {S : β → Prop} (h : Yields P m Q)
    (hf : ∀ a, Q a → Yields P (f a) S) : Yields P (m >>= f) S := by
  intro memory b memory' hP hRun
  rw [StateT.run_bind, Except.bind_eq_ok_iff] at hRun
  obtain ⟨⟨a, between⟩, ha, hb⟩ := hRun
  obtain ⟨hP', hQ⟩ := h memory a between hP ha
  exact hf a hQ between b memory' hP' hb

/-- What is remembered satisfies the invariant. -/
theorem yields_get : Yields P get P := by
  intro memory a memory' hP hRun
  cases hRun
  exact ⟨hP, hP⟩

theorem yields_modify {f : Memory → Memory} (h : ∀ memory, P memory → P (f memory)) :
    Yields P (modify f) fun _ => True := by
  intro memory a memory' hP hRun
  cases hRun
  exact ⟨h memory hP, trivial⟩

theorem yields_mapM {f : α → Classifying β} {S : α → β → Prop} {xs : List α}
    (h : ∀ x ∈ xs, Yields P (f x) (S x)) : Yields P (xs.mapM f) (List.Forall₂ S xs) := by
  induction xs with
  | nil => exact yields_pure .nil
  | cons x xs ih =>
      rw [List.mapM_cons]
      refine Yields.bind (h x List.mem_cons_self) fun y hy => ?_
      refine Yields.bind (ih fun z hz => h z (List.mem_cons_of_mem x hz)) fun ys hys => ?_
      exact yields_pure (.cons hy hys)

end Demacro.Classifying
