import Demacro.Proofs.Success

/-!
The outcomes of classification. Whatever was remembered before, a macro that is classified is either
refused for a definite reason, or classified by the replacement of its first live definition.
-/

namespace Demacro.Survey

open Classifying

/-- What the classification of a macro by its definitions can give. -/
inductive Outcome (s : Survey) (name : String) : Classification → Prop where
  /-- There is no definition to classify it by. -/
  | unsuitable {refusal : Refusal} {d : Option ActiveSpan}
      (hSubject : s.subject name = .error (refusal, d)) :
      Outcome s name (s.refuse name refusal d [])
  /-- The replacement follows no pattern. -/
  | rejected {d : ActiveSpan} {refusal : Refusal} {hazards : List Hazard}
      (hSubject : s.subject name = .ok d) (hSkip : refusal.isSkip = false) :
      Outcome s name (s.refuse name refusal (some d) hazards)
  | constant {d : ActiveSpan} {body : Expr} {value : Folded} {dependencies : List Classification}
      (hSubject : s.subject name = .ok d) (hShape : d.definition.shape.isFunction = false)
      (hBody : Expr.parse d.definition.replacement = .ok body) (hComma : body.isComma = false) :
      Outcome s name (s.constantMacro name d body value dependencies)
  | function {d : ActiveSpan} {body : Expr} {hazards : List Hazard} {fromNames : List Finding}
      (hSubject : s.subject name = .ok d) (hShape : d.definition.shape.isFunction = true)
      (hBody : Expr.parse d.definition.replacement = .ok body) (hComma : body.isComma = false) :
      Outcome s name (s.functionMacro name d body hazards fromNames)

theorem Outcome.name_eq {s : Survey} {name : String} {c : Classification} (h : s.Outcome name c) :
    c.name = name := by
  cases h with
  | unsuitable | rejected | constant | function => rfl

/-- Everything remembered is as `P` says. -/
def Recalls (P : String → Classification → Prop) (memory : Memory) : Prop :=
  ∀ name c, memory.lookup name = some c → P name c

theorem Recalls.cons {P : String → Classification → Prop} {memory : Memory} {name : String}
    {c : Classification} (h : Recalls P memory) (hc : P name c) :
    Recalls P ((name, c) :: memory) := by
  intro other d hLookup
  rw [List.lookup_cons] at hLookup
  by_cases hName : other = name
  · subst hName
    simp only [BEq.rfl, Option.some.injEq] at hLookup
    exact hLookup ▸ hc
  · rw [beq_eq_false_iff_ne.mpr hName] at hLookup
    exact h other d hLookup

/-- Questions are answered as `P` says, unless a macro leads back to itself. -/
abbrev Answers (s : Survey) (P : String → Classification → Prop)
    (ask : String → Classifying Classification) : Prop :=
  ∀ name, Yields (Recalls P) (ask name) fun c => P name c ∨ c = s.refuse name .recursive none []

section

variable {s : Survey} {P : String → Classification → Prop}

/-- A macro that is not being classified already is as `P` says if a step of the budget is left. -/
theorem classifyWithin_succ_yields
    (hNew : ∀ ask name, s.Answers P ask → Yields (Recalls P) (s.classifyNew ask name) (P name))
    {budget : Nat} {active : List String} {name : String}
    (hAsk : s.Answers P (s.classifyWithin budget (name :: active))) (hActive : name ∉ active) :
    Yields (Recalls P) (s.classifyWithin (budget + 1) active name) (P name) := by
  unfold classifyWithin
  refine yields_get.bind fun memory hMemory => ?_
  split
  · rename_i c hLookup
    exact yields_pure (hMemory name c hLookup)
  rw [if_neg (by simpa using hActive)]
  refine (hNew _ name hAsk).bind fun c hc => ?_
  refine (yields_modify fun memory h => h.cons hc).bind fun _ _ => ?_
  exact yields_pure hc

/-- Every question is answered, whatever is being classified and however much of the budget is
left. -/
theorem classifyWithin_yields (hNew : ∀ ask name, s.Answers P ask →
      Yields (Recalls P) (s.classifyNew ask name) (P name)) (budget : Nat) (active : List String) :
    s.Answers P (s.classifyWithin budget active) := by
  induction budget generalizing active with
  | zero =>
      intro name
      unfold classifyWithin
      refine yields_get.bind fun memory hMemory => ?_
      split
      · rename_i c hLookup
        exact yields_pure (.inl (hMemory name c hLookup))
      split <;> exact yields_pure (.inr rfl)
  | succ budget ih =>
      intro name
      by_cases hActive : name ∈ active
      · unfold classifyWithin
        refine yields_get.bind fun memory hMemory => ?_
        split
        · rename_i c hLookup
          exact yields_pure (.inl (hMemory name c hLookup))
        rw [if_pos (by simpa using hActive)]
        exact yields_pure (.inr rfl)
      · exact (classifyWithin_succ_yields hNew (ih _) hActive).mono fun _ => .inl

/-- What is so of a macro whenever it is so of those that it asks for is so of all macros of a
unit. -/
theorem forall₂_of_classifyAll {cs : List Classification} (hNew : ∀ ask name, s.Answers P ask →
      Yields (Recalls P) (s.classifyNew ask name) (P name)) (h : s.classifyAll = .ok cs) :
    List.Forall₂ P s.table.names cs := by
  obtain ⟨⟨results, memory⟩, hRun, hResults⟩ := Except.bind_eq_ok_iff.mp h
  obtain rfl : results = cs := by injection hResults
  have hEmpty : Recalls P [] := fun name c hLookup => nomatch hLookup
  have hEach : ∀ name, Yields (Recalls P) (s.classify name) (P name) := fun name =>
    classifyWithin_succ_yields hNew (classifyWithin_yields hNew _ _) List.not_mem_nil
  exact (yields_mapM (fun name _ => hEach name) [] results memory hEmpty hRun).2

end

section

variable {s : Survey} {P : Memory → Prop} {Q : Classification → Prop}
  {A : String → Classification → Prop} {ask : String → Classifying Classification} {name : String}
  {d : ActiveSpan}

theorem valueOf_yields (hAsk : ∀ n, Yields P (ask n) (A n)) :
    Yields P (s.valueOf ask name) fun _ => True := by
  unfold valueOf
  split
  · exact (hAsk name).bind fun c _ => yields_pure trivial
  · exact yields_pure trivial

/-- A value rests on the answers for the names that were asked for. -/
theorem foldAsking_yields {V : String → Except FoldError Folded → Prop}
    (hValue : ∀ n, Yields P (s.valueOf ask n) (V n)) {body : Expr} {budget : Nat}
    {known : List (String × Except FoldError Folded)} (hKnown : ∀ p ∈ known, V p.1 p.2) :
    Yields P (s.foldAsking ask body budget known) fun r => ∀ v names, r = .ok (v, names) →
      ∃ known : List (String × Except FoldError Folded), (∀ p ∈ known, V p.1 p.2)
      ∧ known.map Prod.fst = names
        ∧ Constant.fold (some fun name => (known.lookup name).getD (.error (.needs name))) body
        = .ok v := by
  induction budget generalizing known with
  | zero => exact yields_pure nofun
  | succ budget ih =>
      unfold foldAsking
      split
      · rename_i v hFold
        apply yields_pure
        rintro v names ⟨⟩
        exact ⟨known, hKnown, rfl, hFold⟩
      · rename_i n _
        refine (hValue n).bind fun value hAnswer => ih fun p hp => ?_
        rcases List.mem_append.mp hp with hp | hp
        · exact hKnown p hp
        · rw [List.mem_singleton.mp hp]
          exact hAnswer
      · exact yields_pure nofun

theorem mem_of_lookup_getD {known : List (String × Except FoldError Folded)} {f : Folded}
    (h : (known.lookup name).getD (.error (.needs name)) = .ok f) : (name, .ok f) ∈ known := by
  cases hLookup : known.lookup name with
  | none => simp [hLookup] at h
  | some value =>
      obtain ⟨before, after, rfl, -⟩ := List.lookup_eq_some_iff.mp hLookup
      obtain rfl : value = .ok f := by simpa [hLookup] using h
      simp

/-- A name that rules out a macro does not make it one that holds nothing to replace. -/
theorem nameFindings_yields (hAsk : ∀ n, Yields P (ask n) (A n)) (names : List String) :
    Yields P (s.nameFindings ask d names) fun r => ∀ refusal, r = .error refusal →
    refusal.isSkip = false := by
  induction names with
  | nil => exact yields_pure fun _ h => nomatch h
  | cons name names ih =>
      unfold nameFindings
      split
      · refine ih.bind fun r hr => yields_pure ?_
        intro refusal h
        cases r with
        | error => exact hr refusal h
        | ok => cases h
      split
      · exact ih
      refine (hAsk name).bind fun c _ => ?_
      split
      · exact yields_pure fun _ h => by cases h; rfl
      · refine ih.bind fun r hr => yields_pure ?_
        intro refusal h
        cases r with
        | error => exact hr refusal h
        | ok => cases h

/-- A macro without arguments is refused, or it is a constant. Its value rests on the answers for
some names. -/
theorem classifyObject_yields {V : String → Except FoldError Folded → Prop}
    (hAsk : ∀ n, Yields P (ask n) (A n)) (hValue : ∀ n, Yields P (s.valueOf ask n) (V n))
    (hRefuse : ∀ refusal hazards, refusal.isSkip = false →
      Q (s.refuse name refusal (some d) hazards))
    (hConstant : ∀ body v (known : List (String × Except FoldError Folded)) cs,
      Expr.parse d.definition.replacement = .ok body → body.isComma = false →
      (∀ p ∈ known, V p.1 p.2) →
      Constant.fold (some fun name => (known.lookup name).getD (.error (.needs name))) body =
      .ok v → List.Forall₂ A (known.map Prod.fst) cs → Q (s.constantMacro name d body v cs)) :
    Yields P (s.classifyObject ask name d) Q := by
  unfold classifyObject
  split
  · exact yields_pure (hRefuse _ _ rfl)
  rename_i body hBody
  split
  · exact yields_pure (hRefuse _ _ rfl)
  rename_i hComma
  refine (foldAsking_yields hValue (by simp)).bind fun r hr => ?_
  split
  · rename_i v names
    obtain ⟨known, hKnown, rfl, hFold⟩ := hr v names rfl
    refine (yields_mapM fun n _ => hAsk n).bind fun cs hcs => ?_
    split
    · exact yields_pure (hConstant body v known cs hBody (by simpa using hComma) hKnown hFold hcs)
    · exact yields_throw _
  · exact yields_pure (hRefuse _ _ rfl)
  · split
    · exact yields_pure (hRefuse _ _ rfl)
    · exact yields_throw _

/-- A macro with arguments is refused, or it is a function. `F` is what is known of the findings
about names. -/
theorem classifyFunction_yields {F : Expr → List Finding → Prop}
    (hAsk : ∀ n, Yields P (ask n) (A n))
    (hNames : ∀ body, Yields P (s.nameFindings ask d (plainNames body))
      fun r => ∀ findings, r = .ok findings → F body findings)
    (hRefuse : ∀ refusal hazards, refusal.isSkip = false →
      Q (s.refuse name refusal (some d) hazards))
    (hFunction : ∀ body hazards findings, Expr.parse d.definition.replacement = .ok body →
      body.isComma = false → F body findings → Q (s.functionMacro name d body hazards findings)) :
    Yields P (s.classifyFunction ask name d) Q := by
  unfold classifyFunction
  dsimp only
  split
  · exact yields_pure (hRefuse _ _ rfl)
  split
  · exact yields_pure (hRefuse _ _ rfl)
  split
  · exact yields_pure (hRefuse _ _ rfl)
  rename_i body hBody
  split
  · exact yields_pure (hRefuse _ _ rfl)
  rename_i hComma
  refine ((nameFindings_yields hAsk (plainNames body)).and (hNames body)).bind fun r hr => ?_
  split
  · exact yields_pure (hRefuse _ _ (hr.1 _ rfl))
  · exact yields_pure (hFunction body _ _ hBody (by simpa using hComma) (hr.2 _ rfl))

/-- A macro is refused for its definitions, or classified by one of them. -/
theorem classifyNew_yields
    (hUnsuitable : ∀ refusal d, s.subject name = .error (refusal, d) →
      Q (s.refuse name refusal d []))
    (hObject : ∀ d, s.subject name = .ok d → d.definition.shape.isFunction = false →
      Yields P (s.classifyObject ask name d) Q)
    (hFunction : ∀ d, s.subject name = .ok d → d.definition.shape.isFunction = true →
      Yields P (s.classifyFunction ask name d) Q) : Yields P (s.classifyNew ask name) Q := by
  unfold classifyNew
  split
  · rename_i hSubject
    exact yields_pure (hUnsuitable _ _ hSubject)
  · rename_i d hSubject
    split
    · rename_i hShape
      exact hFunction d hSubject hShape
    · rename_i hShape
      exact hObject d hSubject (by simpa using hShape)

/-- If the macros that it asks for have outcomes, so has a macro. -/
theorem classifyNew_yields_outcome (hAsk : s.Answers s.Outcome ask) (name : String) :
    Yields (Recalls s.Outcome) (s.classifyNew ask name) (s.Outcome name) := by
  refine classifyNew_yields (fun _ _ => .unsuitable) (fun d hSubject hShape => ?_)
    fun d hSubject hShape => ?_
  · exact classifyObject_yields hAsk (fun _ => valueOf_yields hAsk) (fun _ _ => .rejected hSubject)
      fun body v known cs hBody hComma _ _ _ => .constant hSubject hShape hBody hComma
  · exact classifyFunction_yields (F := fun _ _ => True) hAsk
      (fun body => (nameFindings_yields hAsk _).mono fun _ _ _ _ => trivial)
      (fun _ _ => .rejected hSubject)
      fun body hazards findings hBody hComma _ => .function hSubject hShape hBody hComma

end

/-- The macros of a unit are classified one by one, and each gets an outcome. -/
theorem outcomes_of_classifyAll {s : Survey} {cs : List Classification}
    (h : s.classifyAll = .ok cs) : List.Forall₂ s.Outcome s.table.names cs :=
  forall₂_of_classifyAll (fun _ name hAsk => classifyNew_yields_outcome hAsk name) h

theorem exists_outcome {s : Survey} {cs : List Classification} (h : s.classifyAll = .ok cs)
    {c : Classification} (hc : c ∈ cs) : c.name ∈ s.table.names ∧ s.Outcome c.name c := by
  obtain ⟨name, hName, hOutcome⟩ := (outcomes_of_classifyAll h).exists_left hc
  rw [hOutcome.name_eq]
  exact ⟨hName, hOutcome⟩

end Demacro.Survey
