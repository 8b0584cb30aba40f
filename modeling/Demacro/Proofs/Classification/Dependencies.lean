import Demacro.Proofs.Classification.Failing

/-!
What a classified macro rests on. The names that its value is computed from, or that stand uncalled
in its function, are looked at one by one: each that has a live definition follows a pattern itself,
and if the macro may be changed it is defined in front of it. No other name in the replacement is
looked at.
-/

namespace Demacro

/-- The names that the value of an expression is computed from. Nothing in the operand of a measure
or in the type of a cast is among them. -/
def Expr.evaluated : Expr → List String
  | name _ text => [text]
  | paren _ e | unary _ _ e | cast _ _ e => evaluated e
  | binary _ _ a b => evaluated a ++ evaluated b
  | conditional _ a b c => evaluated a ++ evaluated b ++ evaluated c
  | _ => []

namespace Constant

/-- The names whose meaning is fixed, whatever defines them. -/
def fixedNames : List String :=
  ["true", "false", "nullptr", "NULL"]

variable {resolve : Resolver} {e : Expr} {v : Folded} {name : String}

theorem exists_meaning_of_ofName (h : ofName (some resolve) name = .ok v)
    (hFixed : name ∉ fixedNames) : resolve name = .ok v := by
  simp only [fixedNames, List.mem_cons, List.not_mem_nil, or_false, not_or] at hFixed
  unfold ofName at h
  rw [if_neg (by simp [hFixed]), if_neg (by simp [hFixed])] at h
  dsimp only at h
  split at h
  · cases h
  · exact h

/-- An expression has a value only if the names have one that it is computed from. -/
theorem exists_meaning_of_fold (h : fold (some resolve) e = .ok v) (hName : name ∈ e.evaluated)
    (hFixed : name ∉ fixedNames) : ∃ f, resolve name = .ok f := by
  have hOperand : ∀ {e op v} {g : Folded → Except FoldError Folded},
      (fold (some resolve) e >>= fun x => needArithmetic op x >>= g) = .ok v →
      (∃ f, fold (some resolve) e = .ok f) ∧ ∃ f, g f = .ok v := by
    intro e op v g h
    obtain ⟨f, hFold, h⟩ := Except.bind_eq_ok_iff.mp h
    obtain ⟨f', -, h⟩ := Except.bind_eq_ok_iff.mp h
    exact ⟨⟨f, hFold⟩, f', h⟩
  fun_induction Expr.evaluated e generalizing v with
  | case1 range text =>
      rw [List.mem_singleton] at hName
      subst hName
      exact ⟨v, exists_meaning_of_ofName h hFixed⟩
  | case2 range e ih => exact ih h hName
  | case3 range op e ih =>
      unfold fold at h
      split at h
      · cases h
      · cases h
      · cases h
      · obtain ⟨⟨f, hFold⟩, -⟩ := hOperand h
        exact ih hFold hName
  | case4 range type e ih =>
      rw [fold] at h
      obtain ⟨target, -, h⟩ := Except.bind_eq_ok_iff.mp h
      obtain ⟨⟨f, hFold⟩, -⟩ := hOperand h
      exact ih hFold hName
  | case5 range op a b ihLeft ihRight =>
      rw [fold] at h
      obtain ⟨⟨f, hLeft⟩, _, h⟩ := hOperand h
      obtain ⟨⟨g, hRight⟩, -⟩ := hOperand h
      rcases List.mem_append.mp hName with hName | hName
      · exact ihLeft hLeft hName
      · exact ihRight hRight hName
  | case6 range a b c ihCondition ihTrue ihFalse =>
      rw [fold] at h
      obtain ⟨⟨f, hCondition⟩, _, h⟩ := hOperand h
      obtain ⟨⟨g, hTrue⟩, _, h⟩ := hOperand h
      obtain ⟨⟨k, hFalse⟩, -⟩ := hOperand h
      simp only [List.mem_append] at hName
      rcases hName with (hName | hName) | hName
      · exact ihCondition hCondition hName
      · exact ihTrue hTrue hName
      · exact ihFalse hFalse hName
  | case7 => cases hName

end Constant

namespace Survey

open Classifying Inquiry

variable {s : Survey} {name : String} {d : ActiveSpan} {body : Expr} {c : Classification}

/-- The names in a replacement that its classification looks at. -/
def examined (d : Definition) (body : Expr) : List String :=
  if d.shape.isFunction then (plainNames body).filter (!isBound d.shape.parameters ·)
  else body.evaluated.filter (!Constant.fixedNames.contains ·)

/-- What a macro that follows a pattern rests on: its replacement, and for each live name that is
looked at a macro that follows a pattern, and that is in force at the definition if the macro may be
changed. -/
structure Grounds (s : Survey) (name : String) (c : Classification) (d : ActiveSpan) (body : Expr) :
    Prop where
  name_eq : c.name = name
  subject : s.subject name = .ok d
  parsed : Expr.parse d.definition.replacement = .ok body
  definition : c.definition = some (s.record d)
  classified : ∀ n ∈ examined d.definition body, s.isLive n → (s.found n).isClassified
  inForce : c.confidence ≠ .blocked → ∀ n ∈ examined d.definition body, s.isLive n →
    (s.table.activeAt? (s.found n).name d.position).isSome

/-- A macro follows a pattern only on such grounds. -/
def Grounded (s : Survey) (name : String) (c : Classification) : Prop :=
  c.isClassified → ∃ d body, s.Grounds name c d body

/-- The results of a computation, whatever it remembers. -/
abbrev Gives {α : Type} (m : Classifying α) (Q : α → Prop) : Prop :=
  Yields (fun _ => True) m Q

/-- What was found out about others is the answer to every question. -/
abbrev respond (s : Survey) (name : String) : Classifying Classification :=
  pure (s.found name)

theorem grounded_refuse (refusal : Refusal) (d : Option ActiveSpan) (hazards : List Hazard) :
    s.Grounded name (s.refuse name refusal d hazards) :=
  fun hc => absurd hc (not_isClassified_refuse _ _ _)

/-- A reference to a macro that is not in force rules out any change. -/
theorem activeAt?_isSome_of_findings {findings : List Finding}
    (hFindings : ∀ f ∈ s.dependencyFindings d c, f ∈ findings)
    (hConfidence : Finding.confidence findings ≠ .blocked) :
    (s.table.activeAt? c.name d.position).isSome := by
  by_contra hNone
  rw [Option.not_isSome_iff_eq_none] at hNone
  refine hConfidence (Finding.confidence_eq_blocked_iff.mpr ⟨.blocker (.dependsOnLater c.name),
    ?_, rfl⟩)
  apply hFindings
  simp [dependencyFindings, hNone]

theorem gives_valueOf (n : String) : Gives (s.valueOf s.respond n) fun r => r = s.meaning n := by
  unfold valueOf meaning
  split
  · exact (yields_pure rfl : Gives (s.respond n) (· = s.found n)).bind fun c hc =>
      yields_pure (by rw [hc])
  · exact yields_pure rfl

/-- A name with a meaning stands for a macro that follows a pattern. -/
theorem isClassified_of_meaning {n : String} {f : Folded} (h : s.meaning n = .ok f) :
    (s.found n).isClassified := by
  by_contra hc
  unfold meaning at h
  split at h
  · obtain ⟨other, reason, hFault⟩ := referenceValue_of_unclassified hc
    rw [hFault] at h
    cases h
  · cases h

/-- A constant has its grounds, if its value rests on what names mean. -/
theorem grounded_constantMacro {v : Folded} {known : List (String × Except FoldError Folded)}
    {cs : List Classification} (hSubject : s.subject name = .ok d)
    (hShape : d.definition.shape.isFunction = false)
    (hBody : Expr.parse d.definition.replacement = .ok body)
    (hKnown : ∀ p ∈ known, p.2 = s.meaning p.1)
    (hFold : Constant.fold (some fun name => (known.lookup name).getD (.error (.needs name))) body
      = .ok v)
    (hcs : List.Forall₂ (fun n c => s.found n = c) (known.map Prod.fst) cs) :
    s.Grounded name (s.constantMacro name d body v cs) := by
  have hExamined : ∀ n ∈ examined d.definition body, n ∈ known.map Prod.fst
      ∧ ∃ f, s.meaning n = .ok f := by
    intro n hn
    simp only [examined, hShape, Bool.false_eq_true, if_false, List.mem_filter] at hn
    obtain ⟨f, hMeaning⟩ := Constant.exists_meaning_of_fold hFold hn.1 (by simpa using hn.2)
    have hMem := mem_of_lookup_getD hMeaning
    exact ⟨List.mem_map_of_mem hMem, f, (hKnown _ hMem).symm⟩
  refine fun _ => ⟨d, body, rfl, hSubject, hBody, rfl, ?_, ?_⟩
  · intro n hn _
    obtain ⟨-, f, hMeaning⟩ := hExamined n hn
    exact isClassified_of_meaning hMeaning
  · intro hConfidence n hn _
    obtain ⟨other, hOther, rfl⟩ := hcs.exists_right (hExamined n hn).1
    refine activeAt?_isSome_of_findings (fun f hf => ?_) hConfidence
    have hMem : f ∈ cs.flatMap (s.dependencyFindings d) := List.mem_flatMap.mpr ⟨_, hOther, hf⟩
    simp only [List.mem_append]
    tauto

/-- The findings about names take in those about each macro that is looked at. -/
theorem gives_nameFindings (names : List String) :
    Gives (s.nameFindings s.respond d names) fun r => ∀ findings, r = .ok findings →
      ∀ n ∈ names, isBound d.definition.shape.parameters n = false → s.isLive n →
        (s.found n).isClassified ∧ ∀ f ∈ s.dependencyFindings d (s.found n), f ∈ findings := by
  induction names with
  | nil => exact yields_pure (by rintro _ ⟨⟩ n ⟨⟩)
  | cons name names ih =>
      unfold nameFindings
      split
      · rename_i hThis
        refine ih.bind fun r hr => yields_pure ?_
        intro findings hFindings n hn hBound hLive
        cases r with
        | error => cases hFindings
        | ok others =>
            cases hFindings
            rcases List.mem_cons.mp hn with rfl | hn
            · rw [hThis] at hBound
              simp [isBound, Keyword.reserved] at hBound
            · obtain ⟨hc, hOthers⟩ := hr others rfl n hn hBound hLive
              exact ⟨hc, fun f hf => List.mem_cons_of_mem _ (hOthers f hf)⟩
      split
      · rename_i hSkip
        refine ih.mono fun r hr findings hFindings n hn hBound hLive => ?_
        rcases List.mem_cons.mp hn with rfl | hn
        · simp [hBound, hLive] at hSkip
        · exact hr findings hFindings n hn hBound hLive
      rw [pure_bind]
      split
      · exact yields_pure (by rintro _ ⟨⟩)
      · rename_i hc
        refine ih.bind fun r hr => yields_pure ?_
        intro findings hFindings n hn hBound hLive
        cases r with
        | error => cases hFindings
        | ok others =>
            cases hFindings
            rcases List.mem_cons.mp hn with rfl | hn
            · exact ⟨by simpa using hc, fun f hf => List.mem_append_left _ hf⟩
            · obtain ⟨hc, hOthers⟩ := hr others rfl n hn hBound hLive
              exact ⟨hc, fun f hf => List.mem_append_right _ (hOthers f hf)⟩

/-- A function has its grounds, if the findings about names take in those about what is looked
at. -/
theorem grounded_functionMacro {hazards : List Hazard} {findings : List Finding}
    (hSubject : s.subject name = .ok d) (hShape : d.definition.shape.isFunction = true)
    (hBody : Expr.parse d.definition.replacement = .ok body)
    (hNames : ∀ n ∈ plainNames body, isBound d.definition.shape.parameters n = false → s.isLive n →
      (s.found n).isClassified ∧ ∀ f ∈ s.dependencyFindings d (s.found n), f ∈ findings) :
    s.Grounded name (s.functionMacro name d body hazards findings) := by
  have hExamined : ∀ n ∈ examined d.definition body, s.isLive n →
      (s.found n).isClassified ∧ ∀ f ∈ s.dependencyFindings d (s.found n), f ∈ findings := by
    intro n hn hLive
    simp only [examined, hShape, if_true, List.mem_filter, Bool.not_eq_true'] at hn
    exact hNames n hn.1 hn.2 hLive
  refine fun _ => ⟨d, body, rfl, hSubject, hBody, rfl, fun n hn hLive => (hExamined n hn hLive).1,
    ?_⟩
  intro hConfidence n hn hLive
  refine activeAt?_isSome_of_findings (fun f hf => ?_) hConfidence
  have hMem := (hExamined n hn hLive).2 f hf
  simp only [List.mem_append]
  tauto

/-- If others are what they are found to be, a macro that follows a pattern has its grounds. -/
theorem gives_classifyNew (s : Survey) (name : String) :
    Gives (s.classifyNew s.respond name) (s.Grounded name) := by
  have hAsk : ∀ n, Gives (s.respond n) (s.found n = ·) := fun n => yields_pure rfl
  refine classifyNew_yields (fun _ _ _ => grounded_refuse _ _ _) (fun d hSubject hShape => ?_)
    fun d hSubject hShape => ?_
  · exact classifyObject_yields hAsk gives_valueOf (fun _ _ _ => grounded_refuse _ _ _)
      fun body v known cs hBody _ hKnown hFold hcs =>
        grounded_constantMacro hSubject hShape hBody hKnown hFold hcs
  · exact classifyFunction_yields hAsk (fun body => gives_nameFindings _)
      (fun _ _ _ => grounded_refuse _ _ _)
      fun body hazards findings hBody _ hNames =>
      grounded_functionMacro hSubject hShape hBody hNames

namespace Inquiries

variable {q : s.Inquiries} {x : String}

/-- An inquiry that settles ends the same when others are what they are found to be. -/
theorem run_of_settles {t : Inquiry Classification} (h : Settles q.of t (.ok c)) (memory : Memory) :
    (t.run s.respond).run memory = .ok (c, memory) := by
  generalize hResult : (Except.ok c : Except FoldError Classification) = r at h
  induction h with
  | done r =>
      cases hResult
      rfl
  | answered hAnswer _ _ ih =>
      rw [run_ask, pure_bind, found_of_settles hAnswer]
      exact ih hResult
  | failed => cases hResult

theorem grounded_of_settles (h : Settles q.of (q.of x) (.ok c)) : s.Grounded x c := by
  have hRun := run_of_settles h []
  rw [← q.classifyNew_eq_run] at hRun
  exact (s.gives_classifyNew x [] c [] trivial hRun).2

end Inquiries

/-- A macro that follows no pattern may not be changed. -/
theorem Outcome.isClassified (h : s.Outcome name c) (hConfidence : c.confidence ≠ .blocked) :
    c.isClassified := by
  cases h with
  | unsuitable | rejected => exact absurd rfl hConfidence
  | constant => exact isClassified_constantMacro _ _
  | function => exact isClassified_functionMacro _ _

/-- A macro that follows a pattern is classified by a definition. -/
theorem Outcome.exists_subject (h : s.Outcome name c) (hc : c.isClassified) :
    ∃ d, s.subject name = .ok d := by
  cases h with
  | unsuitable | rejected => exact absurd hc (not_isClassified_refuse _ _ _)
  | constant hSubject => exact ⟨_, hSubject⟩
  | function hSubject => exact ⟨_, hSubject⟩

/-- A macro that may be changed is what it comes to when others are what they are found to be. -/
theorem run_classifyNew_of_mem {cs : List Classification} (hs : s.NamesDefinitions)
    (h : s.classifyAll = .ok cs) (hc : c ∈ cs) (hConfidence : c.confidence ≠ .blocked) :
    (s.classifyNew s.respond c.name).run [] = .ok (c, []) := by
  obtain ⟨q⟩ := nonempty_inquiries hs
  obtain ⟨name, -, hFound⟩ := (q.finds_of_classifyNames h).exists_left hc
  have hClassified := (exists_outcome h hc).2.isClassified hConfidence
  have hSettles := hFound.fits.settles hClassified
  obtain ⟨_, _, hGrounds⟩ := Inquiries.grounded_of_settles hSettles hClassified
  have hRun := Inquiries.run_of_settles hSettles []
  rwa [← q.classifyNew_eq_run, ← hGrounds.name_eq] at hRun

/-- A macro that may be changed rests on macros of the unit that follow a pattern and are in force
at its definition, as far as it looks at them. -/
theorem exists_grounds_of_mem {cs : List Classification} (hs : s.NamesDefinitions)
    (h : s.classifyAll = .ok cs) (hc : c ∈ cs) (hConfidence : c.confidence ≠ .blocked) :
    ∃ d body, s.subject c.name = .ok d ∧ Expr.parse d.definition.replacement = .ok body
      ∧ c.definition = some (s.record d)
      ∧ ∀ n ∈ examined d.definition body, s.isLive n →
        (∃ other ∈ cs, other.name = n ∧ other.isClassified)
        ∧ (s.table.activeAt? n d.position).isSome := by
  obtain ⟨q⟩ := nonempty_inquiries hs
  have hFinds := q.finds_of_classifyNames h
  obtain ⟨name, -, hFound⟩ := hFinds.exists_left hc
  have hClassified := (exists_outcome h hc).2.isClassified hConfidence
  obtain ⟨d, body, hGrounds⟩ :=
    Inquiries.grounded_of_settles (hFound.fits.settles hClassified) hClassified
  refine ⟨d, body, hGrounds.name_eq ▸ hGrounds.subject, hGrounds.parsed, hGrounds.definition, ?_⟩
  intro n hn hLive
  have hOther := hGrounds.classified n hn hLive
  have hSettles := Inquiries.settles_of_found (q := q) hOther
  obtain ⟨_, _, hOtherGrounds⟩ := Inquiries.grounded_of_settles hSettles hOther
  have hName := hOtherGrounds.name_eq
  have hInForce := hGrounds.inForce hConfidence n hn hLive
  rw [hName] at hInForce
  refine ⟨?_, hInForce⟩
  obtain ⟨other, hMem, hSame⟩ := hFinds.exists_right (hs n _ hOtherGrounds.subject)
  have hEq := (hSame.fits.unique _ hSettles).resolve_right (by simp)
  cases hEq
  exact ⟨s.found n, hMem, hName, hOther⟩

end Survey

end Demacro
