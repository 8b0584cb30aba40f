import Demacro.Proofs.Classification.Answers
import Demacro.Proofs.Classification.Findings
import Demacro.Proofs.MacroTable
import Demacro.Proofs.Success

/-!
Classification as questions and answers. What is done to classify one macro is a tree: at a leaf it
is over, and at every other node the classification of some macro is asked for, with one branch for
each answer. An inquiry is heedful if a macro that follows no pattern ends it at once. The
classification of one macro is a heedful inquiry for others: as soon as another macro turns out to
follow no pattern, neither does this one, and nothing but the reason depends on which one it was.
-/

namespace Demacro

/-- A computation that asks for the classifications of macros. -/
inductive Inquiry (α : Type) where
  | done (result : Except FoldError α)
  | ask (name : String) (next : Classification → Inquiry α)

namespace Inquiry

variable {α β : Type} {answer : String → Classifying Classification}

/-- The computation, with `answer` for the questions. -/
def run (answer : String → Classifying Classification) : Inquiry α → Classifying α
  | done result => StateT.lift result
  | .ask name next => do run answer (next (← answer name))

/-- One inquiry after another. -/
def bind (f : α → Inquiry β) : Inquiry α → Inquiry β
  | done (.ok a) => f a
  | done (.error e) => done (.error e)
  | .ask name next => .ask name fun c => bind f (next c)

theorem run_done_ok (a : α) : (done (.ok a)).run answer = pure a :=
  rfl

theorem run_ask (name : String) (next : Classification → Inquiry α) :
    (ask name next).run answer = answer name >>= fun c => (next c).run answer :=
  rfl

theorem run_bind (t : Inquiry α) (f : α → Inquiry β) :
    (t.bind f).run answer = t.run answer >>= fun a => (f a).run answer := by
  induction t with
  | done result => cases result <;> rfl
  | ask name next ih =>
      change answer name >>= (fun c => ((next c).bind f).run answer) = _
      rw [run_ask, bind_assoc]
      exact congrArg _ (funext ih)

/-- What does nothing but end with a result is over. -/
theorem eq_done_of_run {t : Inquiry α} {a : α} (h : ∀ answer, t.run answer = pure a) :
    t = .done (.ok a) := by
  cases t with
  | done result =>
      have hResult : (done result).run (fun _ => throw .tooLongToWrite) [] = .ok (a, []) := by
        rw [h]
        rfl
      cases result with
      | ok b =>
          cases hResult
          rfl
      | error e => cases hResult
  | ask name next =>
      have hRun : (Inquiry.ask name next).run (fun _ => throw .tooLongToWrite) [] = .ok
          (a, []) := by
        rw [h]
        rfl
      cases hRun

/-- An answer that follows no pattern ends the inquiry with a result as `stop` says, if the name was
not asked for before. Without such an answer the result is as `post` says of the names that were
asked for, which are those in `seen` at first. -/
def Heeds (stop : α → Prop) (post : List String → α → Prop) : List String → Inquiry α → Prop
  | seen, done (.ok a) => post seen a
  | _, done (.error e) => ∀ name, e ≠ .needs name
  | seen, .ask name next =>
    (∀ c : Classification, c.isClassified → Heeds stop post (name :: seen) (next c))
      ∧ (name ∉ seen → ∀ c : Classification, ¬ c.isClassified →
          ∃ a, next c = done (.ok a) ∧ stop a)

variable {stop : α → Prop} {post : List String → α → Prop} {stop' : β → Prop}
  {post' : List String → β → Prop}

theorem Heeds.bind {t : Inquiry α} {f : α → Inquiry β} {seen : List String}
    (h : t.Heeds stop post seen) (hStop : ∀ a, stop a → ∃ b, f a = done (.ok b) ∧ stop' b)
    (hPost : ∀ seen a, post seen a → (f a).Heeds stop' post' seen) :
    (t.bind f).Heeds stop' post' seen := by
  induction t generalizing seen with
  | done result =>
      cases result with
      | ok a => exact hPost seen a h
      | error e => exact h
  | ask name next ih =>
      refine ⟨fun c hc => ih c (h.1 c hc), fun hNew c hc => ?_⟩
      obtain ⟨a, ha, hStopped⟩ := h.2 hNew c hc
      obtain ⟨b, hb, hStopped⟩ := hStop a hStopped
      exact ⟨b, (congrArg (Inquiry.bind f) ha).trans hb, hStopped⟩

end Inquiry

/-- The classifications differ at most in the reason. -/
def Classification.SameButReason (c c' : Classification) : Prop :=
  { c with reason := none } = { c' with reason := none }

theorem Classification.SameButReason.symm {c c' : Classification} (h : c.SameButReason c') :
    c'.SameButReason c :=
  Eq.symm h

theorem Classification.SameButReason.trans {c c' c'' : Classification} (h : c.SameButReason c')
    (h' : c'.SameButReason c'') : c.SameButReason c'' :=
  Eq.trans h h'

namespace Inquiry

/-- The classifications of several macros. -/
def askAll : List String → Inquiry (List Classification)
  | [] => done (.ok [])
  | name :: names => ask name fun c => (askAll names).bind fun cs => done (.ok (c :: cs))

theorem run_askAll (answer : String → Classifying Classification) (names : List String) :
    (askAll names).run answer = names.mapM answer := by
  induction names with
  | nil => rfl
  | cons name names ih =>
      rw [List.mapM_cons, askAll, run_ask]
      simp only [run_bind, ih, run_done_ok]

/-- Asking again for macros that were asked for before never ends an inquiry early. -/
theorem heeds_askAll {names seen : List String} (h : ∀ name ∈ names, name ∈ seen) :
    (askAll names).Heeds (fun _ => False) (fun _ _ => True) seen := by
  induction names generalizing seen with
  | nil => exact trivial
  | cons name names ih =>
      refine ⟨fun c _ => ?_, fun hNew => absurd (h name List.mem_cons_self) hNew⟩
      refine (ih fun n hn => List.mem_cons_of_mem name (h n (List.mem_cons_of_mem name hn))).bind
        (fun _ hFalse => hFalse.elim) fun _ _ _ => trivial

end Inquiry

namespace Survey

open Inquiry (done ask)

variable {s : Survey} {name : String} {body : Expr} {d : ActiveSpan}

/-- Only the reason tells apart two refusals that both hold something to replace. -/
theorem sameButReason_refuse {r r' : Refusal} (h : r.isSkip = r'.isSkip) (d : Option ActiveSpan)
    (hazards : List Hazard) :
    (s.refuse name r d hazards).SameButReason (s.refuse name r' d hazards) := by
  simp [Classification.SameButReason, refuse, h]

theorem not_isClassified_refuse (r : Refusal) (d : Option ActiveSpan) (hazards : List Hazard) :
    ¬ (s.refuse name r d hazards).isClassified := by
  simp [Classification.isClassified, refuse]

/-- The patterns of constants. -/
theorem pattern_constantMacro (value : Folded) (dependencies : List Classification) :
    (s.constantMacro name d body value dependencies).pattern ∈
      [.simpleConstant, .pointerConstant, .classScopedConstant, .enumHackCandidate] := by
  have hPattern : ∀ home payload usages, (s.constantPattern home payload usages).1 ∈
      [.simpleConstant, .pointerConstant, .classScopedConstant, .enumHackCandidate] := by
    intro home payload usages
    unfold constantPattern
    repeat' split
    all_goals simp
  exact hPattern _ _ _

theorem isClassified_constantMacro (value : Folded) (dependencies : List Classification) :
    (s.constantMacro name d body value dependencies).isClassified := by
  rw [Classification.isClassified, bne_iff_ne]
  intro hOther
  have hPattern := hOther ▸ pattern_constantMacro value dependencies
  exact absurd hPattern (by decide)

theorem isClassified_functionMacro (hazards : List Hazard) (fromNames : List Finding) :
    (s.functionMacro name d body hazards fromNames).isClassified :=
  rfl

/-- The folding was given up for a macro that follows no pattern. -/
def GivenUp (r : Except FoldError (Folded × List String)) : Prop :=
  ∃ other reason, r = .error (.dependency other reason)

/-- The names that the result rests on were asked for. -/
def RestsOn (seen : List String) (r : Except FoldError (Folded × List String)) : Prop :=
  ∀ v names, r = .ok (v, names) → ∀ n ∈ names, n ∈ seen

/-- The folding of a replacement as an inquiry, which is given up for a macro that follows no
pattern. -/
theorem exists_foldAsking_eq_run {known : List (String × Except FoldError Folded)} {budget : Nat}
    (h : Resolved body known) (hKnown : ∀ p ∈ known, ∃ f, p.2 = .ok f)
    (hBudget : body.nodes.length < budget + known.length) :
    ∃ t : Inquiry (Except FoldError (Folded × List String)),
      (∀ answer, s.foldAsking answer body budget known = t.run answer)
        ∧ ∀ seen, (∀ n ∈ known.map Prod.fst, n ∈ seen) →
          t.Heeds GivenUp RestsOn seen := by
  induction budget generalizing known with
  | zero => exact absurd hBudget (by simpa using h.length_le)
  | succ budget ih =>
      cases hFold : Constant.fold (some (answered known)) body with
      | ok f =>
          refine ⟨done (.ok (.ok (f, known.map Prod.fst))), fun answer => ?_, fun seen hSeen => ?_⟩
          · rw [foldAsking, hFold, Inquiry.run_done_ok]
          · intro v names hEq
            cases hEq
            exact hSeen
      | error e =>
          by_cases hNeeds : ∃ name, e = .needs name
          · obtain ⟨name, rfl⟩ := hNeeds
            have hLength := (h.append (.ok ⟨.pointer, .high, []⟩) hFold
              fun _ => Constant.independent_ok _).length_le
            rw [List.length_append, List.length_singleton] at hLength
            obtain ⟨budget, rfl⟩ : ∃ k, budget = k + 1 := ⟨budget - 1, by omega⟩
            by_cases hLive : s.isLive name
            · have hNext : ∀ c : Classification,
                  ∃ t : Inquiry (Except FoldError (Folded × List String)),
                    (∀ answer, s.foldAsking answer body (budget + 1)
                      (known ++ [(name, referenceValue c)]) = t.run answer)
                    ∧ (∀ seen, (∀ n ∈ known.map Prod.fst, n ∈ seen) →
                      t.Heeds GivenUp RestsOn (name :: seen))
                    ∧ (¬ c.isClassified → ∃ r, t = done (.ok r) ∧ GivenUp r) := by
                intro c
                cases hValue : referenceValue c with
                | ok f =>
                    have hResolved := h.append (.ok f) hFold
                      fun _ => Constant.independent_ok f
                    obtain ⟨t, hRun, hHeeds⟩ := ih hResolved
                      (by simpa [or_imp, forall_and] using hKnown) (by simp; omega)
                    refine ⟨t, hRun, fun seen hSeen => hHeeds (name :: seen) ?_, fun hc => ?_⟩
                    · intro n hn
                      rw [List.map_append, List.mem_append] at hn
                      rcases hn with hn | hn
                      · exact List.mem_cons_of_mem name (hSeen n hn)
                      · exact List.mem_cons.mpr (.inl (List.mem_singleton.mp hn))
                    · obtain ⟨other, reason, hFault⟩ := referenceValue_of_unclassified hc
                      rw [hFault] at hValue
                      cases hValue
                | error e =>
                    refine ⟨done (.ok (.error e)), fun answer => ?_, fun seen hSeen => ?_,
                      fun hc => ⟨_, rfl, ?_⟩⟩
                    · refine h.foldAsking_append_error hFold (fun other hOther => ?_) answer budget
                      exact independent_referenceValue c other (hOther ▸ hValue)
                    · rintro v names ⟨⟩
                    · obtain ⟨other, reason, hFault⟩ := referenceValue_of_unclassified hc
                      exact ⟨other, reason,
                        congrArg _ (Except.error.inj (hValue.symm.trans hFault))⟩
              choose next hRun hHeeds hStop using hNext
              refine ⟨ask name next, fun answer => ?_, fun seen hSeen => ?_⟩
              · rw [foldAsking_of_needs hFold, if_pos hLive, Inquiry.run_ask]
                simp only [hRun]
              · exact ⟨fun c _ => hHeeds c seen hSeen, fun _ c hc => hStop c hc⟩
            · refine ⟨done (.ok (.error (.foreignName name))), fun answer => ?_, fun seen _ => ?_⟩
              · rw [foldAsking_of_needs hFold, if_neg hLive]
                exact h.foldAsking_append_error hFold (by rintro _ ⟨⟩) answer budget
              · rintro v names ⟨⟩
          · refine ⟨done (.ok (.error e)), fun answer => ?_, fun seen _ => ?_⟩
            · rw [foldAsking, hFold]
              cases e with
              | needs name => exact absurd ⟨name, rfl⟩ hNeeds
              | _ => rfl
            · rintro v names ⟨⟩

/-- The result of the names was given up for a reason that leaves something to replace. -/
def Refused (r : Except Refusal (List Finding)) : Prop :=
  ∃ refusal, r = .error refusal ∧ refusal.isSkip = false

/-- What the names in a replacement say, as an inquiry. -/
theorem exists_nameFindings_eq_run (s : Survey) (d : ActiveSpan) (names : List String) :
    ∃ t : Inquiry (Except Refusal (List Finding)),
      (∀ answer, s.nameFindings answer d names = t.run answer)
        ∧ ∀ seen, t.Heeds Refused (fun _ r => ∀ refusal, r = .error refusal → Refused r) seen := by
  induction names with
  | nil => exact ⟨done (.ok (.ok [])), fun _ => rfl, fun seen refusal h => nomatch h⟩
  | cons name names ih =>
      obtain ⟨t, hRun, hHeeds⟩ := ih
      have hMap : ∀ findings : List Finding, ∃ u : Inquiry (Except Refusal (List Finding)),
          (∀ answer, (do return (← s.nameFindings answer d names).map (findings ++ ·))
            = u.run answer)
            ∧ ∀ seen, u.Heeds Refused (fun _ r => ∀ refusal, r = .error refusal → Refused r)
              seen := by
        intro findings
        refine ⟨t.bind fun r => done (.ok (r.map (findings ++ ·))), fun answer => ?_,
          fun seen => ?_⟩
        · rw [Inquiry.run_bind, hRun]
          rfl
        · refine (hHeeds seen).bind ?_ ?_
          · rintro _ ⟨refusal, rfl, hSkip⟩
            exact ⟨_, rfl, refusal, rfl, hSkip⟩
          · intro seen r hr refusal hRefusal
            cases r with
            | ok fs => cases hRefusal
            | error other => exact hr other rfl
      unfold nameFindings
      split
      · exact hMap [.blocker .usesThis]
      split
      · exact ⟨t, hRun, hHeeds⟩
      choose next hNext hNextHeeds using fun c => hMap (s.dependencyFindings d c)
      refine ⟨ask name fun c => if c.isClassified then next c
          else done (.ok (.error (.dependsOn name (c.reason.getD (Text.ofString "None"))))),
        fun answer => ?_, fun seen => ⟨fun c hc => ?_, fun _ c hc => ?_⟩⟩
      · rw [Inquiry.run_ask]
        refine congrArg _ (funext fun c => ?_)
        by_cases hc : c.isClassified
        · rw [if_pos hc, if_neg (by simpa using hc)]
          exact hNext c answer
        · rw [if_neg hc, if_pos (by simpa using hc)]
          rfl
      · dsimp only
        rw [if_pos hc]
        exact hNextHeeds c _
      · exact ⟨_, if_neg hc, _, rfl, rfl⟩

/-- A classification that follows a pattern or is told apart from `shell` by the reason only. -/
def IsLike (shell c : Classification) : Prop :=
  ¬ c.isClassified → c.SameButReason shell

/-- A classification that follows no pattern and is told apart from `shell` by the reason only. -/
def IsShell (shell c : Classification) : Prop :=
  ¬ c.isClassified ∧ c.SameButReason shell

/-- The classification of a macro as an inquiry: it depends on a macro that follows no pattern only
in its reason. -/
def IsInquiry (m : (String → Classifying Classification) → Classifying Classification)
    (shell : Classification) (t : Inquiry Classification) : Prop :=
  (∀ answer, m answer = t.run answer) ∧ t.Heeds (IsShell shell) (fun _ => IsLike shell) []

theorem isInquiry_refuse (s : Survey) (name : String) (r : Refusal) (d : Option ActiveSpan)
    (hazards : List Hazard) :
    IsInquiry (fun _ => pure (s.refuse name r d hazards)) (s.refuse name r d hazards)
      (done (.ok (s.refuse name r d hazards))) :=
  ⟨fun _ => rfl, fun _ => rfl⟩

/-- Why a replacement that does not fold follows no pattern; nothing if the fault has no reason. -/
def foldRefusal? : FoldError → Option Refusal
  | .dependency other reason => some (.dependsOn other reason)
  | e => e.reason?.map .notFoldable

theorem isSkip_of_foldRefusal? {e : FoldError} {refusal : Refusal}
    (h : foldRefusal? e = some refusal) : refusal.isSkip = false := by
  unfold foldRefusal? at h
  split at h
  · cases h
    rfl
  · obtain ⟨reason, -, rfl⟩ := Option.map_eq_some_iff.mp h
    rfl

/-- What is left to ask once the replacement of a macro is folded. -/
def afterFolding (s : Survey) (name : String) (d : ActiveSpan) (body : Expr) :
    Except FoldError (Folded × List String) → Inquiry Classification
  | .ok result =>
    (Inquiry.askAll result.2).bind fun cs =>
      if result.1.constant.isShort then done (.ok (s.constantMacro name d body result.1 cs))
      else done (.error .tooLongToWrite)
  | .error e =>
    match foldRefusal? e with
    | some refusal => done (.ok (s.refuse name refusal (some d) []))
    | none => done (.error e)

/-- What is left to ask once the names in the replacement of a macro are looked at. -/
def afterNames (s : Survey) (name : String) (d : ActiveSpan) (body : Expr) (hazards : List Hazard) :
    Except Refusal (List Finding) → Inquiry Classification
  | .error refusal => done (.ok (s.refuse name refusal (some d) hazards))
  | .ok findings => done (.ok (s.functionMacro name d body hazards findings))

theorem foldRefusal?_eq_none_iff {e : FoldError} : foldRefusal? e = none ↔ e.reason? = none := by
  cases e <;> simp [foldRefusal?, FoldError.reason?]

theorem classifyObject_eq_bind {answer : String → Classifying Classification}
    (hBody : Expr.parse d.definition.replacement = .ok body) (hComma : body.isComma = false) :
    s.classifyObject answer name d = s.foldAsking answer body (body.nodes.length + 1) []
    >>= fun r =>
      (s.afterFolding name d body r).run answer := by
  unfold classifyObject
  rw [hBody]
  dsimp only
  rw [if_neg (by simp [hComma])]
  apply bind_congr
  intro r
  cases r with
  | ok result =>
      rw [afterFolding, Inquiry.run_bind, Inquiry.run_askAll]
      apply bind_congr
      intro cs
      split <;> rfl
  | error e => cases e <;> rfl

theorem exists_classifyObject_eq_run (s : Survey) (name : String) (d : ActiveSpan) :
    ∃ shell t, IsInquiry (fun answer => s.classifyObject answer name d) shell t := by
  cases hBody : Expr.parse d.definition.replacement with
  | error fault =>
      unfold classifyObject
      rw [hBody]
      exact ⟨_, _, isInquiry_refuse ..⟩
  | ok body =>
  cases hComma : body.isComma with
  | true =>
      unfold classifyObject
      rw [hBody]
      simp only [hComma, ↓reduceIte]
      exact ⟨_, _, isInquiry_refuse ..⟩
  | false =>
  obtain ⟨t, hRun, hHeeds⟩ : ∃ t : Inquiry (Except FoldError (Folded × List String)),
      (∀ answer, s.foldAsking answer body (body.nodes.length + 1) [] = t.run answer)
        ∧ ∀ seen, (∀ n ∈ ([] : List String), n ∈ seen) → t.Heeds GivenUp RestsOn seen :=
    exists_foldAsking_eq_run resolved_nil (by simp) (Nat.lt_succ_self _)
  let shell := s.refuse name .comma (some d) []
  have hRefused : ∀ refusal : Refusal, refusal.isSkip = false →
      IsShell shell (s.refuse name refusal (some d) []) :=
    fun refusal hSkip => ⟨not_isClassified_refuse _ _ _, sameButReason_refuse hSkip ..⟩
  refine ⟨shell, t.bind (s.afterFolding name d body), fun answer => ?_,
    (hHeeds [] (by simp)).bind ?_ ?_⟩
  · dsimp only
    rw [classifyObject_eq_bind hBody hComma, Inquiry.run_bind, hRun]
  · rintro _ ⟨other, reason, rfl⟩
    exact ⟨_, rfl, hRefused _ rfl⟩
  · intro seen r hr
    cases r with
    | ok result =>
        refine (Inquiry.heeds_askAll (hr _ _ rfl)).bind (fun _ h => h.elim) fun _ cs _ => ?_
        split
        · exact fun hc => absurd (isClassified_constantMacro ..) hc
        · rintro name ⟨⟩
    | error e =>
        unfold afterFolding
        dsimp only
        split
        · rename_i refusal hRefusal
          exact fun _ => (hRefused refusal (isSkip_of_foldRefusal? hRefusal)).2
        · rename_i hRefusal
          rintro name rfl
          cases hRefusal

theorem exists_classifyFunction_eq_run (s : Survey) (name : String) (d : ActiveSpan) :
    ∃ shell t, IsInquiry (fun answer => s.classifyFunction answer name d) shell t := by
  unfold classifyFunction
  dsimp only
  split
  · exact ⟨_, _, isInquiry_refuse ..⟩
  split
  · exact ⟨_, _, isInquiry_refuse ..⟩
  split
  · exact ⟨_, _, isInquiry_refuse ..⟩
  rename_i body hBody
  split
  · exact ⟨_, _, isInquiry_refuse ..⟩
  obtain ⟨t, hRun, hHeeds⟩ := s.exists_nameFindings_eq_run d (plainNames body)
  generalize (if body.isPrimary then _ else _ : List Hazard) = hazards
  let shell := s.refuse name .comma (some d) hazards
  have hRefused : ∀ r, Refused r →
      ∃ c, s.afterNames name d body hazards r = done (.ok c) ∧ IsShell shell c := by
    rintro _ ⟨refusal, rfl, hSkip⟩
    exact ⟨_, rfl, not_isClassified_refuse _ _ _, sameButReason_refuse hSkip ..⟩
  refine ⟨shell, t.bind (s.afterNames name d body hazards), fun answer => ?_,
    (hHeeds []).bind hRefused ?_⟩
  · dsimp only
    rw [Inquiry.run_bind, hRun]
    refine congrArg _ (funext fun r => ?_)
    cases r <;> rfl
  · intro seen r hr
    cases r with
    | ok findings => exact fun hc => absurd (isClassified_functionMacro ..) hc
    | error refusal =>
        obtain ⟨c, hNext, -, hSame⟩ := hRefused _ (hr refusal rfl)
        rw [hNext]
        exact fun _ => hSame

/-- Every macro that is classified by a definition is one of the names of the table. -/
def NamesDefinitions (s : Survey) : Prop :=
  ∀ name d, s.subject name = .ok d → name ∈ s.table.names

theorem namesDefinitions_ofUnit (parse : List UInt8 → SyntaxNode) (settings : Settings)
    (u : CompilationUnit) : (ofUnit parse settings u).NamesDefinitions := by
  intro name d hSubject
  obtain ⟨hMem, hLive⟩ := mem_definitions_of_subject hSubject
  exact MacroTable.mem_names_of_mem_liveDefinitions
    (MacroTable.mem_liveDefinitions_iff_exists_span.mpr ⟨d, hMem, rfl, hLive⟩)

theorem exists_classifyNew_eq_run (hs : s.NamesDefinitions) (name : String) :
    ∃ shell t, IsInquiry (fun answer => s.classifyNew answer name) shell t
      ∧ (name ∉ s.table.names → ∃ result, t = done result) := by
  unfold classifyNew
  split
  · exact ⟨_, _, isInquiry_refuse .., fun _ => ⟨_, rfl⟩⟩
  · rename_i d hSubject
    have hDefined := hs name d hSubject
    split
    · obtain ⟨shell, t, h⟩ := s.exists_classifyFunction_eq_run name d
      exact ⟨shell, t, h, fun hName => absurd hDefined hName⟩
    · obtain ⟨shell, t, h⟩ := s.exists_classifyObject_eq_run name d
      exact ⟨shell, t, h, fun hName => absurd hDefined hName⟩

end Survey

end Demacro
