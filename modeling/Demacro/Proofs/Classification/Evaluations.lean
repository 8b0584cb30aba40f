import Demacro.Proofs.Accounting
import Demacro.Proofs.Expr.Evaluation
import Demacro.Proofs.Rewriting.SingleText

/-!
What the hazards of a macro with arguments say about its parameters, and how often a use evaluates
an argument. Unless it takes any number of arguments, whatever the replacement does to the
parameters is among the hazards, even if the macro follows no pattern. So a parameter that no hazard
names stands in at most one place, and no operator stands next to it: the macro evaluates it at most
once, but need not evaluate it at all, while a function evaluates it exactly once.
-/

namespace Demacro

open Classifying

namespace Parameter

variable {parameters : List String} {places : List Place} {place : Place} {p : String}

theorem count_le_one (hp : p ∈ parameters)
    (h : ∀ n, Hazard.repeatedEvaluation p n ∉ hazards parameters places) : count p places ≤ 1 := by
  by_contra hTwice
  refine h (count p places) (List.mem_flatMap.mpr ⟨p, hp, List.mem_append_left _ ?_⟩)
  rw [if_pos (by omega)]
  exact List.mem_cons_self

theorem isGuarded_of_hazards (hp : place.token.spelling ∈ parameters) (hPlace : place ∈ places)
    (h : ∀ n, Hazard.bareParameter place.token.spelling n ∉ hazards parameters places) :
    isGuarded place = true := by
  by_contra hBare
  have hCounted : place ∈ places.filter (!isGuarded ·) :=
    List.mem_filter.mpr ⟨hPlace, by simpa using hBare⟩
  have hSome : count place.token.spelling (places.filter (!isGuarded ·)) ≠ 0 :=
    Nat.ne_of_gt (List.countP_pos_iff.mpr ⟨place, hCounted, BEq.rfl⟩)
  refine h (count place.token.spelling (places.filter (!isGuarded ·)))
    (List.mem_flatMap.mpr ⟨place.token.spelling, hp, List.mem_append_right _ ?_⟩)
  rw [if_neg hSome]
  exact List.mem_cons_self

/-- The tokens of a sequence are those of its places. -/
theorem map_token_places (before ts : List Token) :
    (Parameter.places before ts).map (·.token) = ts := by
  induction ts generalizing before with
  | nil => rfl
  | cons t ts ih => rw [Parameter.places, List.map_cons, ih]

theorem count_occurrences (hp : p ∈ parameters) (ts : List Token) :
    count p (occurrences parameters ts) = ts.countP fun t => t.isIdentifier && t.spelling == p := by
  conv_rhs => rw [← map_token_places [] ts, List.countP_map]
  rw [count, occurrences, List.countP_filter]
  refine List.countP_congr fun place _ => ?_
  by_cases hName : place.token.spelling = p <;> simp [hName, hp]

end Parameter

namespace Survey

variable {s : Survey} {name : String} {c : Classification} {cs : List Classification}
  {d : ActiveSpan}

/-- The dangers that a replacement brings for the parameters are among the hazards, unless the
number of arguments is not fixed, which rules a change out. -/
structure Warns (s : Survey) (name : String) (c : Classification) : Prop where
  name_eq : c.name = name
  of_variadic : ∀ d, s.subject name = .ok d → d.definition.shape.isVariadic = true →
    c.confidence = .blocked
  subset : ∀ d, s.subject name = .ok d → d.definition.shape.isVariadic = false →
    Parameter.hazards d.definition.shape.parameters
      (Parameter.occurrences d.definition.shape.parameters d.definition.replacement) ⊆ c.hazards

theorem warns_of_subject (hSubject : s.subject name = .ok d) (hName : c.name = name)
    (hVariadic : d.definition.shape.isVariadic = true → c.confidence = .blocked)
    (hHazards : d.definition.shape.isVariadic = false →
      Parameter.hazards d.definition.shape.parameters
        (Parameter.occurrences d.definition.shape.parameters d.definition.replacement)
        ⊆ c.hazards) :
    s.Warns name c where
  name_eq := hName
  of_variadic := fun d' hSubject' => by
    cases hSubject.symm.trans hSubject'
    exact hVariadic
  subset := fun d' hSubject' => by
    cases hSubject.symm.trans hSubject'
    exact hHazards

theorem classifyNew_yields_warns {ask : String → Classifying Classification}
    (hAsk : s.Answers s.Warns ask) (name : String) :
    Yields (Recalls s.Warns) (s.classifyNew ask name) (s.Warns name) := by
  refine classifyNew_yields (fun refusal d hError => ?_) (fun d hSubject hObject => ?_)
    fun d hSubject hFunction => ?_
  · have hNone : ∀ d', s.subject name ≠ .ok d' := fun d' hSubject => by
      rw [hError] at hSubject
      cases hSubject
    exact ⟨rfl, fun d' hSubject => absurd hSubject (hNone d'), fun d' hSubject => absurd hSubject
      (hNone d')⟩
  · -- a macro without arguments has no parameters
    have hShape : d.definition.shape = .object := by
      cases hKind : d.definition.shape with
      | object => rfl
      | function => rw [hKind] at hObject; cases hObject
    have hOther : ∀ c : Classification, c.name = name → s.Warns name c := fun c hName =>
      warns_of_subject hSubject hName (by rw [hShape]; exact nofun)
        (by rw [hShape]; exact fun _ => List.nil_subset _)
    exact classifyObject_yields hAsk (fun _ => valueOf_yields hAsk) (fun _ _ _ => hOther _ rfl)
      fun _ _ _ _ _ _ _ _ _ => hOther _ rfl
  · unfold classifyFunction
    dsimp only
    split
    · rename_i hVariadic
      exact yields_pure (warns_of_subject hSubject rfl (fun _ => rfl) fun hFixed =>
        by simp [hVariadic] at hFixed)
    rename_i hFixed
    have hWarns : ∀ c : Classification, c.name = name →
        Parameter.hazards d.definition.shape.parameters
          (Parameter.occurrences d.definition.shape.parameters d.definition.replacement)
          ⊆ c.hazards →
        s.Warns name c := fun c hName hHazards =>
      warns_of_subject hSubject hName (fun hVariadic => absurd hVariadic hFixed) fun _ => hHazards
    split
    · rename_i hEmpty
      refine yields_pure (hWarns _ rfl ?_)
      rw [List.isEmpty_iff.mp hEmpty]
      exact List.nil_subset _
    split
    · exact yields_pure (hWarns _ rfl (List.Subset.refl _))
    rename_i body hBody
    split
    · exact yields_pure (hWarns _ rfl (List.Subset.refl _))
    refine (nameFindings_yields hAsk (plainNames body)).bind fun r _ => ?_
    have hMore : Parameter.hazards d.definition.shape.parameters
          (Parameter.occurrences d.definition.shape.parameters d.definition.replacement)
        ⊆ (if body.isPrimary = true then
            Parameter.hazards d.definition.shape.parameters
              (Parameter.occurrences d.definition.shape.parameters d.definition.replacement)
          else Parameter.hazards d.definition.shape.parameters
              (Parameter.occurrences d.definition.shape.parameters d.definition.replacement)
              ++ [.bareBody]) := by
      split
      · exact List.Subset.refl _
      · exact List.subset_append_left _ _
    split
    · exact yields_pure (hWarns _ rfl hMore)
    · refine yields_pure (hWarns _ rfl (List.Subset.trans hMore fun hazard hHazard => ?_))
      simp only [functionMacro, List.mem_append]
      tauto

/-- What the replacements of a unit do to their parameters is among the hazards of its macros. -/
theorem warns_of_classifyAll (h : s.classifyAll = .ok cs) (hc : c ∈ cs) : s.Warns c.name c := by
  obtain ⟨name, -, hWarns⟩ :=
    (forall₂_of_classifyAll (fun _ name hAsk => classifyNew_yields_warns hAsk name) h).exists_left
      hc
  rw [hWarns.name_eq]
  exact hWarns

end Survey

namespace CompilationUnit

variable {u : CompilationUnit} {path : String} {text : Text} {search : Option IncludeSearch}
  {e : Event} {d : Definition}

/-- A parameter is one identifier in the text of a file, so its name holds no colon. -/
theorem colon_notMem_parameter (h : read path text search = .ok u) (he : e ∈ u.events)
    (hDefine : e.directive = .define d) {p : String} (hp : p ∈ d.shape.parameters) :
    ':' ∉ p.toList := by
  obtain ⟨l, -, hWritten, -, -, hLine⟩ := exists_written_of_mem_events h he
  obtain ⟨file, content, tokens, hTokens, hInText⟩ := hWritten.inText
  rw [hDefine] at hLine
  obtain ⟨t, ht, hIdentifier, rfl⟩ :=
    (Directive.replacement_suffix (Directive.define?_of_ofLine? hLine)).2 p hp
  exact Token.colon_notMem_spelling hTokens
    (Token.mem_of_mem_logicalLines hInText (List.mem_cons_of_mem _ ht)) hIdentifier

end CompilationUnit

namespace Analysis

variable {parse : List UInt8 → SyntaxNode} {settings : Settings}
  {load : String → Except AccessFault (List UInt8)} {path : String} {text : Text} {a : Analysis}
  {c : Classification}

/-- No run of a function-like macro evaluates an argument twice, unless a hazard names its
parameter. Every run evaluates it, as a function would, exactly if the parameter is one leaf of the
replacement and no operand holds it that a run may leave out. -/
theorem evaluated_once_iff (h : ofText parse settings load path text = .ok a)
    (hc : c ∈ a.classifications) (hPattern : c.pattern = .functionLikeMacro)
    (hHigh : c.confidence = .high) :
    ∃ record ∈ c.definition, ∃ body, Expr.parse record.definition.replacement = .ok body ∧
      ∀ p ∈ record.definition.shape.parameters, (∀ hazard ∈ c.hazards, hazard.parameter? ≠ some p) →
        body.leaves p ≤ Expr.spelled p record.definition.replacement ∧
        Expr.spelled p record.definition.replacement ≤ 1 ∧
        (∀ n, body.Evaluates p n → n ≤ 1) ∧
        ((∀ n, body.Evaluates p n → n = 1) ↔ body.StandsOnce p) := by
  obtain ⟨hRead, hUnit⟩ := ofText_eq_ok h
  obtain ⟨-, hClassified, -⟩ := ofUnit_eq_ok hUnit
  have hWarns := Survey.warns_of_classifyAll hClassified hc
  obtain ⟨-, hOutcome⟩ := Survey.exists_outcome hClassified hc
  generalize c.name = name at hOutcome hWarns
  cases hOutcome with
  | unsuitable | rejected => cases hHigh
  | constant =>
      have hConstant := hPattern ▸ Survey.pattern_constantMacro _ _
      exact absurd hConstant (by decide)
  | @function d body hazards fromNames hSubject hShape hBody =>
      refine ⟨_, rfl, body, hBody, fun p hp hNone => ?_⟩
      have hFixed : d.definition.shape.isVariadic = false := by
        by_contra hVariadic
        exact absurd
          (hHigh.symm.trans (hWarns.of_variadic d hSubject (eq_true_of_ne_false hVariadic)))
          (by decide)
      obtain ⟨-, e, he, hDefine, -⟩ := Survey.exists_event_of_subject hSubject
      have hColon := CompilationUnit.colon_notMem_parameter hRead he hDefine hp
      have hTokens : Expr.spelled p d.definition.replacement ≤ 1 := by
        rw [Expr.spelled, ← Parameter.count_occurrences hp]
        exact Parameter.count_le_one hp fun n hRepeated =>
          hNone _ (hWarns.subset d hSubject hFixed hRepeated) rfl
      have hLeaves := Expr.leaves_le_spelled hColon hBody
      exact ⟨hLeaves, hTokens, fun n hRun => hRun.le_leaves.trans (hLeaves.trans hTokens),
        Expr.evaluates_once_iff (hLeaves.trans hTokens)⟩

theorem evaluated_once_sum :
    ∃ a, ofText .scopeless {} (fun _ => .error .notFound) "unit.cpp"
      "#define ADD(x, y) ((x) + (y))\n" = .ok a
      ∧ ∃ c ∈ a.classifications, c.pattern = .functionLikeMacro ∧ c.confidence = .high
      ∧ ∃ record ∈ c.definition,
        ∃ body, Expr.parse record.definition.replacement = .ok body
        ∧ "y" ∈ record.definition.shape.parameters
          ∧ ∀ n, body.Evaluates "y" n → n = 1 := by
  refine Except.exists_of_passes
    (fun a => decide (∃ c ∈ a.classifications, c.pattern = .functionLikeMacro
    ∧ c.confidence = .high ∧ (∀ hazard ∈ c.hazards, hazard.parameter? ≠ some "y")
    ∧ ∃ record ∈ c.definition,
      "y" ∈ record.definition.shape.parameters
      ∧ (Expr.parse record.definition.replacement).toOption.any
        fun body => decide (body.StandsOnce "y"))) (by decide +kernel) fun a h hTest => ?_
  obtain ⟨c, hc, hPattern, hHigh, hNone, record, hRecord, hParameter, hStands⟩ :=
    of_decide_eq_true hTest
  obtain ⟨record', hRecord', body, hBody, hEach⟩ := evaluated_once_iff h hc hPattern hHigh
  obtain rfl : record = record' := Option.mem_unique hRecord hRecord'
  rw [hBody] at hStands
  exact ⟨c, hc, hPattern, hHigh, record, hRecord, body, hBody, hParameter,
    (hEach "y" hParameter hNone).2.2.2.mpr (of_decide_eq_true hStands)⟩

/-- No hazard names the parameter in the right operand of a logical operator, though a run need not
evaluate it. -/
theorem not_evaluated_once_and :
    ∃ a, ofText .scopeless {} (fun _ => .error .notFound) "unit.cpp"
      "#define BOTH(x, y) ((x) && (y))\n" = .ok a
      ∧ ∃ c ∈ a.classifications, c.pattern = .functionLikeMacro ∧ c.confidence = .high
      ∧ c.hazards = []
        ∧ ∃ record ∈ c.definition, ∃ body, Expr.parse record.definition.replacement = .ok body
          ∧ "y" ∈ record.definition.shape.parameters ∧ ¬body.StandsOnce "y"
          ∧ ∃ n, body.Evaluates "y" n ∧ n ≠ 1 := by
  refine Except.exists_of_passes
    (fun a => decide (∃ c ∈ a.classifications, c.pattern = .functionLikeMacro
    ∧ c.confidence = .high ∧ c.hazards = [] ∧ ∃ record ∈ c.definition,
    "y" ∈ record.definition.shape.parameters
      ∧ (Expr.parse record.definition.replacement).toOption.any
        fun body => decide (body.leaves "y" ≤ 1 ∧ ¬body.StandsOnce "y"))) (by
          decide +kernel) fun a h hTest => ?_
  obtain ⟨c, hc, hPattern, hHigh, hNone, record, hRecord, hParameter, hStands⟩ :=
    of_decide_eq_true hTest
  cases hBody : Expr.parse record.definition.replacement with
  | error =>
      rw [hBody] at hStands
      cases hStands
  | ok body =>
      rw [hBody] at hStands
      obtain ⟨hLeaves, hStands⟩ := of_decide_eq_true hStands
      have hSome : ¬∀ n, body.Evaluates "y" n → n = 1 :=
        fun hOnce => hStands ((Expr.evaluates_once_iff hLeaves).mp hOnce)
      push Not at hSome
      exact ⟨c, hc, hPattern, hHigh, hNone, record, hRecord, body, hBody, hParameter,
        hStands, hSome⟩

end Analysis

end Demacro
