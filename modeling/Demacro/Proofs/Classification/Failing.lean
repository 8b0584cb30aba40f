import Demacro.Proofs.Classification.Search
import Demacro.Proofs.Constant.Escape

/-!
Units in which classification breaks off. Not all macros of a unit can be classified exactly if the
replacement of some macro has a fault for which no reason is given, when the names in it stand for
what their macros are found to be.
-/

namespace Demacro

namespace Constant

/-- The first computation asks for a name, or does the same as the second one. -/
def Refines {α : Type} (x y : Except FoldError α) : Prop :=
  (∃ name, x = .error (.needs name)) ∨ x = y

section

variable {α β : Type} {x y : Except FoldError α} {g g' : α → Except FoldError β}

theorem Refines.refl (x : Except FoldError α) : Refines x x :=
  .inr rfl

theorem Refines.bind (h : Refines x y) (hg : ∀ a, Refines (g a) (g' a)) :
    Refines (x >>= g) (y >>= g') := by
  rcases h with ⟨name, rfl⟩ | rfl
  · exact .inl ⟨name, rfl⟩
  · cases x with
    | error e => exact .refl _
    | ok a => exact hg a

end

/-- Answers for more names change the folding of an expression only where it asks for a name. -/
theorem refines_fold {resolve resolve' : Resolver}
    (h : ∀ name, Refines (resolve name) (resolve' name)) (e : Expr) :
    Refines (fold (some resolve) e) (fold (some resolve') e) := by
  have hOperand : ∀ {e op} {g g' : Folded → Except FoldError Folded},
      Refines (fold (some resolve) e) (fold (some resolve') e) → (∀ v, Refines (g v) (g' v)) →
      Refines (fold (some resolve) e >>= fun x => needArithmetic op x >>= g)
        (fold (some resolve') e >>= fun x => needArithmetic op x >>= g') :=
    fun h hg => h.bind fun x => (Refines.refl _).bind hg
  fun_induction fold (some resolve) e with
  | case2 range text =>
      unfold fold ofName
      split
      · exact .refl _
      split
      · exact .refl _
      dsimp only
      split
      · exact .refl _
      · exact h text
  | case3 range e ih => exact ih
  | case8 range op e hStep hDereference hAddress ih =>
      rw [fold]
      · exact hOperand ih fun v => .refl _
      all_goals assumption
  | case9 range type e words ih =>
      rw [fold]
      exact (Refines.refl _).bind fun target => hOperand ih fun v => .refl _
  | case10 range op left right ihLeft ihRight =>
      rw [fold]
      exact hOperand ihLeft fun a => hOperand ihRight fun b => .refl _
  | case11 range condition whenTrue whenFalse ihCondition ihTrue ihFalse =>
      rw [fold]
      exact hOperand ihCondition fun c => hOperand ihTrue fun a => hOperand ihFalse fun b => .refl _
  | _ =>
      rw [fold]
      exact .refl _

end Constant

namespace Survey

open Constant Inquiry Classifying

variable {s : Survey} {name : String} {body : Expr} {d : ActiveSpan} {f : FoldError}

/-- What a macro is found to be when it is the only one that is asked for. A macro for which that
breaks off is refused here. -/
def found (s : Survey) (name : String) : Classification :=
  match s.classifyNames [name] with
  | .ok (c :: _) => c
  | _ => s.refuse name .recursive none []

/-- What a name in a replacement stands for. -/
def meaning (s : Survey) : Resolver := fun name =>
  if s.isLive name then referenceValue (s.found name) else .error (.foreignName name)

/-- The replacement of a macro has a fault for which no reason is given. -/
def Defeats (s : Survey) (name : String) (f : FoldError) : Prop :=
  ∃ d body, s.subject name = .ok d ∧ d.definition.shape.isFunction = false
    ∧ Expr.parse d.definition.replacement = .ok body ∧ body.isComma = false
    ∧ (Escapes (some s.meaning) body f
      ∨ ∃ v, Constant.fold (some s.meaning) body = .ok v ∧ v.constant.isShort = false
        ∧ f = .tooLongToWrite)

theorem not_breaks_meaning : ¬ Breaks (s.meaning name) f := by
  unfold meaning referenceValue
  split
  · split
    · exact not_breaks_error rfl
    · split
      · exact not_breaks_ok
      · exact not_breaks_ok
      · exact not_breaks_error rfl
  · exact not_breaks_error rfl

theorem not_breaks_of_mem_meaning : ∀ g ∈ some s.meaning, ∀ name f, ¬ Breaks (g name) f := by
  intro g hg name f
  cases hg
  exact not_breaks_meaning

theorem independent_meaning (other : String) : Independent other (s.meaning name) := by
  unfold meaning
  split
  · exact independent_referenceValue _ _
  · rintro ⟨⟩

/-- Answers that are the meanings of their names. -/
theorem refines_answered {known : List (String × Except FoldError Folded)}
    (hKnown : ∀ p ∈ known, p.2 = s.meaning p.1) (name : String) :
    Refines (answered known name) (s.meaning name) := by
  unfold answered
  cases hLookup : known.lookup name with
  | none => exact .inl ⟨name, rfl⟩
  | some v =>
      obtain ⟨before, after, rfl, -⟩ := List.lookup_eq_some_iff.mp hLookup
      exact .inr (hKnown (name, v) (by simp))

/-- Asking for names one by one as they are needed comes to the same as knowing all of them. -/
theorem run_foldAsking {memory : Memory} {known : List (String × Except FoldError Folded)}
    {budget : Nat} (h : Resolved body known) (hKnown : ∀ p ∈ known, p.2 = s.meaning p.1)
    (hBudget : body.nodes.length < budget + known.length) :
    ∃ names, (s.foldAsking (fun n => pure (s.found n)) body budget known).run memory
      = .ok ((Constant.fold (some s.meaning) body).map fun v => (v, names), memory) := by
  induction budget generalizing known with
  | zero => exact absurd hBudget (by simpa using h.length_le)
  | succ budget ih =>
      have hRefines := refines_fold (refines_answered hKnown) body
      cases hFold : Constant.fold (some (answered known)) body with
      | ok v =>
          rw [hFold] at hRefines
          rw [foldAsking, hFold, ← hRefines.resolve_left (by simp)]
          exact ⟨known.map Prod.fst, rfl⟩
      | error e =>
          by_cases hNeeds : ∃ n, e = .needs n
          · obtain ⟨n, rfl⟩ := hNeeds
            obtain ⟨names, hNext⟩ := ih (h.append (s.meaning n) hFold independent_meaning)
              (by simpa [or_imp, forall_and] using hKnown) (by simp; omega)
            refine ⟨names, ?_⟩
            rw [← hNext, foldAsking_of_needs hFold, meaning]
            split <;> rfl
          · rw [hFold] at hRefines
            have hOther := hRefines.resolve_left (by simpa using hNeeds)
            refine ⟨[], ?_⟩
            rw [foldAsking, hFold, ← hOther]
            cases e with
            | needs n => exact absurd ⟨n, rfl⟩ hNeeds
            | _ => rfl

theorem run_mapM_pure {α β : Type} {g : α → β} {xs : List α} {memory : Memory} :
    (xs.mapM fun x => (pure (g x) : Classifying β)).run memory = .ok (xs.map g, memory) := by
  induction xs with
  | nil => rfl
  | cons x xs ih =>
      rw [List.mapM_cons]
      simp only [pure_bind, StateT.run_bind, ih]
      rfl

/-- What the names in a replacement say never breaks off. -/
theorem exists_run_nameFindings (names : List String) (memory : Memory) :
    ∃ r, (s.nameFindings (fun n => pure (s.found n)) d names).run memory = .ok (r, memory) := by
  induction names with
  | nil => exact ⟨.ok [], rfl⟩
  | cons name names ih =>
      obtain ⟨r, hr⟩ := ih
      unfold nameFindings
      split
      · exact ⟨r.map _, by rw [StateT.run_bind, hr]; rfl⟩
      split
      · exact ⟨r, hr⟩
      · rw [pure_bind]
        split
        · exact ⟨_, rfl⟩
        · exact ⟨r.map _, by rw [StateT.run_bind, hr]; rfl⟩

/-- The classification of a macro with arguments never breaks off. -/
theorem run_classifyFunction_ne_error {memory : Memory} :
    (s.classifyFunction (fun n => pure (s.found n)) name d).run memory ≠ .error f := by
  unfold classifyFunction
  dsimp only
  split
  · rintro ⟨⟩
  split
  · rintro ⟨⟩
  split
  · rintro ⟨⟩
  split
  · rintro ⟨⟩
  rename_i body _ _
  obtain ⟨r, hr⟩ : ∃ r, (s.nameFindings (fun n => pure (s.found n)) d (plainNames body)).run memory
      = .ok (r, memory) := exists_run_nameFindings (plainNames body) memory
  intro h
  rw [StateT.run_bind, hr] at h
  cases r <;> cases h

/-- The classification of a macro without arguments breaks off exactly if its replacement has a
fault for which no reason is given, or a value that is too long to be written. -/
theorem run_classifyObject_eq_error_iff {memory : Memory} :
    (s.classifyObject (fun n => pure (s.found n)) name d).run memory = .error f ↔
      ∃ body, Expr.parse d.definition.replacement = .ok body ∧ body.isComma = false
        ∧ (Escapes (some s.meaning) body f
          ∨ ∃ v, Constant.fold (some s.meaning) body = .ok v ∧ v.constant.isShort = false
            ∧ f = .tooLongToWrite) := by
  cases hBody : Expr.parse d.definition.replacement with
  | error fault =>
      unfold classifyObject
      rw [hBody]
      apply iff_of_false
      · rintro ⟨⟩
      · simp
  | ok body =>
  cases hComma : body.isComma with
  | true =>
      unfold classifyObject
      rw [hBody]
      apply iff_of_false
      · simp only [hComma]
        rintro ⟨⟩
      · simp [hComma]
  | false =>
  obtain ⟨names, hFolding⟩ : ∃ names, (s.foldAsking (fun n => pure (s.found n)) body
      (body.nodes.length + 1) []).run memory
      = .ok ((Constant.fold (some s.meaning) body).map fun v => (v, names), memory) :=
    run_foldAsking resolved_nil (by simp) (Nat.lt_succ_self _)
  rw [classifyObject_eq_bind hBody hComma, StateT.run_bind, hFolding]
  simp only [Except.ok.injEq, exists_eq_left', hComma, true_and]
  rw [← breaks_fold_iff not_breaks_of_mem_meaning]
  show ((s.afterFolding name d body ((Constant.fold (some s.meaning) body).map fun v =>
    (v, names))).run fun n => pure (s.found n)).run memory = .error f ↔ _
  cases hFold : Constant.fold (some s.meaning) body with
  | ok v =>
      rw [Except.map, afterFolding, Inquiry.run_bind, Inquiry.run_askAll, StateT.run_bind,
        run_mapM_pure]
      simp only [not_breaks_ok, false_or, Except.ok.injEq, exists_eq_left']
      cases hShort : v.constant.isShort with
      | true =>
          apply iff_of_false
          · rintro ⟨⟩
          · simp
      | false =>
          constructor
          · rintro ⟨⟩
            exact ⟨rfl, rfl⟩
          · rintro ⟨-, rfl⟩
            rfl
  | error e =>
      rw [Except.map, afterFolding, breaks_error_iff]
      simp only [reduceCtorEq, false_and, exists_false, or_false, ← foldRefusal?_eq_none_iff]
      cases hRefusal : foldRefusal? e with
      | some refusal =>
          apply iff_of_false
          · rintro ⟨⟩
          · simp
      | none =>
          constructor
          · rintro ⟨⟩
            exact ⟨rfl, rfl⟩
          · rintro ⟨rfl, -⟩
            rfl

/-- The classification of a macro breaks off, when others are what they are found to be, exactly if
its replacement has a fault for which no reason is given. -/
theorem run_classifyNew_eq_error_iff {memory : Memory} :
    (s.classifyNew (fun n => pure (s.found n)) name).run memory = .error f ↔ s.Defeats name f := by
  unfold classifyNew Defeats
  cases hSubject : s.subject name with
  | error refusal =>
      apply iff_of_false
      · rintro ⟨⟩
      rintro ⟨d, body, ⟨⟩, -⟩
  | ok d =>
      dsimp only
      by_cases hShape : d.definition.shape.isFunction = true
      · rw [if_pos hShape]
        refine iff_of_false run_classifyFunction_ne_error ?_
        rintro ⟨d', body, ⟨⟩, hOther, -⟩
        rw [hShape] at hOther
        cases hOther
      · rw [if_neg hShape, run_classifyObject_eq_error_iff]
        constructor
        · rintro ⟨body, h⟩
          exact ⟨d, body, rfl, by simpa using hShape, h⟩
        · rintro ⟨_, body, ⟨⟩, -, h⟩
          exact ⟨body, h⟩

end Survey

namespace Survey.Inquiries

open Inquiry

variable {s : Survey} {q : s.Inquiries} {name x : String} {c : Classification} {f : FoldError}

theorem found_of_settles (h : Settles q.of (q.of x) (.ok c)) : s.found x = c := by
  unfold found
  cases hAlone : s.classifyNames [x] with
  | error e =>
      obtain ⟨n, hn, hSettles⟩ := q.settles_of_classifyNames hAlone
      rw [List.mem_singleton.mp hn] at hSettles
      cases hSettles.unique h
  | ok cs =>
      cases q.finds_of_classifyNames hAlone with
      | cons hFinds _ =>
          exact (Except.ok.inj ((hFinds.fits.unique _ h).resolve_right (by simp))).symm

theorem settles_of_found (h : (s.found x).isClassified) :
    Settles q.of (q.of x) (.ok (s.found x)) := by
  unfold found at h ⊢
  split at h
  · rename_i c cs hAlone
    cases q.finds_of_classifyNames hAlone with
    | cons hFinds _ => exact hFinds.fits.settles h
  · exact absurd h (not_isClassified_refuse _ _ _)

/-- If an inquiry settles to a fault, it ends with it itself or asks for a macro whose inquiry
does. -/
theorem exists_run_of_settles {t : Inquiry Classification} (h : Settles q.of t (.error f)) :
    (t.run fun n => pure (s.found n)).run [] = .error f
      ∨ ∃ n, ((q.of n).run fun n => pure (s.found n)).run [] = .error f := by
  generalize hResult : (Except.error f : Except FoldError Classification) = r at h
  induction h with
  | done r =>
      cases hResult
      exact .inl rfl
  | answered hAnswer _ _ ih =>
      refine (ih hResult).imp_left fun hRun => ?_
      rw [run_ask, pure_bind, found_of_settles hAnswer]
      exact hRun
  | @failed n next e hAnswer ih =>
      cases hResult
      rcases ih rfl with hRun | hRun
      · exact .inr ⟨n, hRun⟩
      · exact .inr hRun

/-- An inquiry that ends with a fault settles to it. -/
theorem settles_of_run {t : Inquiry Classification} {shell : Classification} {seen : List String}
    (hHeeds : t.Heeds (IsShell shell) (fun _ => IsLike shell) seen)
    (hSeen : ∀ n ∈ seen, (s.found n).isClassified)
    (hRun : (t.run fun n => pure (s.found n)).run [] = .error f) : Settles q.of t (.error f) := by
  induction t generalizing seen with
  | done r =>
      cases r with
      | ok c => cases hRun
      | error e =>
          cases hRun
          exact .done _
  | ask n next ih =>
      rw [run_ask, pure_bind] at hRun
      by_cases hn : (s.found n).isClassified
      · refine .answered (settles_of_found hn) (ih _ (hHeeds.1 _ hn) (fun m hm => ?_) hRun)
        rcases List.mem_cons.mp hm with rfl | hm
        · exact hn
        · exact hSeen m hm
      · obtain ⟨a, hNext, -⟩ := hHeeds.2 (fun h => hn (hSeen n h)) _ hn
        rw [hNext] at hRun
        cases hRun

end Survey.Inquiries

namespace Survey

open Inquiry

variable {s : Survey} {name : String} {f : FoldError}

/-- Classifying the macros of a unit breaks off only with a fault of the replacement of one of
them. -/
theorem exists_defeats_of_classifyAll (hs : s.NamesDefinitions) (h : s.classifyAll = .error f) :
    ∃ name, s.Defeats name f := by
  obtain ⟨q⟩ := nonempty_inquiries hs
  have hDefeats : ∀ n, ((q.of n).run fun n => pure (s.found n)).run [] = .error f →
      s.Defeats n f := by
    intro n hRun
    rw [← q.classifyNew_eq_run] at hRun
    exact run_classifyNew_eq_error_iff.mp hRun
  obtain ⟨name, -, hSettles⟩ := q.settles_of_classifyNames h
  rcases Inquiries.exists_run_of_settles hSettles with hRun | ⟨n, hRun⟩
  · exact ⟨name, hDefeats name hRun⟩
  · exact ⟨n, hDefeats n hRun⟩

/-- If the replacement of some macro has a fault for which no reason is given, classifying the
macros of the unit breaks off. -/
theorem Defeats.exists_classifyAll_eq_error (h : s.Defeats name f) (hs : s.NamesDefinitions) :
    ∃ e, s.classifyAll = .error e := by
  obtain ⟨q⟩ := nonempty_inquiries hs
  cases hAll : s.classifyAll with
  | error e => exact ⟨e, rfl⟩
  | ok cs =>
      have hRun : (s.classifyNew (fun n => pure (s.found n)) name).run [] = .error f :=
        run_classifyNew_eq_error_iff.mpr h
      rw [q.classifyNew_eq_run] at hRun
      have hSettles : Settles q.of (q.of name) (.error f) :=
        Inquiries.settles_of_run (q.isInquiry name).2 (by simp) hRun
      obtain ⟨d, body, hSubject, -⟩ := h
      obtain ⟨c, -, hFinds⟩ := (q.finds_of_classifyNames hAll).exists_right (hs name d hSubject)
      exact absurd hSettles hFinds.not_settles_error

end Survey

end Demacro
