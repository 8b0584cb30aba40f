import Demacro.Proofs.Analysis
import Demacro.Proofs.Classification.Dependencies
import Demacro.Proofs.InForce

/-!
What the names in a replacement stand for. A macro that may be changed refers, as far as it is
looked at, to macros that follow a pattern and are in force at its definition. Nothing looks at what
they are where the macro is used: they are the same there exactly if no `#undef` came last.
-/

namespace Demacro

namespace MacroTable

/-- The definitions of the name that are in force at two positions agree. -/
def BindsAlike (t : MacroTable) (name : String) (p q : Int) : Prop :=
  ∃ s s', t.activeAt? name p = some s ∧ t.activeAt? name q = some s'
    ∧ s.definition.signature = s'.definition.signature

/-- A name whose live definitions are alike means the same wherever a definition was the last
change. -/
theorem bindsAlike_iff {es : List Event} {name : String} {p : Int} {q : Nat} (h : Event.InOrder es)
    (hAlike : (ofEvents es).isAmbiguous name = false)
    (hDefined : ((ofEvents es).activeAt? name p).isSome) (hOutside : Event.Outside es name q) :
    (ofEvents es).BindsAlike name p q ↔
      ∃ e, Event.Decides es name q e ∧ e.directive.isDefine = true := by
  have hPositions := positions_of_inOrder h
  constructor
  · rintro ⟨-, s, -, hActive, -⟩
    obtain ⟨e, hDecides, hDefine⟩ := (activeAt?_iff h hOutside).mp ⟨s, hActive, rfl⟩
    exact ⟨e, hDecides, by rw [hDefine]; rfl⟩
  · rintro ⟨e, hDecides, hIsDefine⟩
    obtain ⟨d, hDefine⟩ := Directive.exists_of_isDefine hIsDefine
    obtain ⟨s', hActive, -⟩ := (activeAt?_iff h hOutside).mpr ⟨e, hDecides, hDefine⟩
    obtain ⟨s, hs⟩ := Option.isSome_iff_exists.mp hDefined
    exact ⟨s, s', hs, hActive, signature_eq_of_not_isAmbiguous hAlike
      (mem_liveDefinitions_of_activeAt? hPositions hs)
      (mem_liveDefinitions_of_activeAt? hPositions hActive)⟩

end MacroTable

namespace Occurrence

variable {table : MacroTable} {scopes : UnitScopes} {t : PlacedToken}
  {rest tokens : List PlacedToken} {o : Occurrence}

theorem token_of_at? (h : at? table scopes t rest = some o) : o.token = t := by
  unfold at? at h
  dsimp only at h
  repeat' split at h
  all_goals cases h
  all_goals rfl

theorem token_mem_of_mem_all (h : o ∈ all table scopes tokens) : o.token ∈ tokens := by
  induction tokens with
  | nil => cases h
  | cons t ts ih =>
      rw [all, List.mem_append, Option.mem_toList] at h
      rcases h with h | h
      · rw [token_of_at? h]
        exact List.mem_cons_self
      · exact List.mem_cons_of_mem t (ih h)

/-- What is found at a token depends on the tokens behind it. -/
theorem exists_at?_of_mem_all (h : o ∈ all table scopes tokens) :
    ∃ before rest, tokens = before ++ o.token :: rest ∧ at? table scopes o.token rest = some o := by
  induction tokens with
  | nil => cases h
  | cons t ts ih =>
      rw [all, List.mem_append, Option.mem_toList] at h
      rcases h with h | h
      · obtain rfl := token_of_at? h
        exact ⟨[], ts, rfl, h⟩
      · obtain ⟨before, rest, rfl, hAt⟩ := ih h
        exact ⟨t :: before, rest, rfl, hAt⟩

end Occurrence

theorem UsageIndex.mem_usages {x : UsageIndex} {name : String} {w : Usage} :
    w ∈ x.usages name ↔ .usage w ∈ x.occurrences ∧ w.token.spelling = name := by
  simp only [usages, List.mem_filterMap]
  constructor
  · rintro ⟨o, ho, hUsage⟩
    split at hUsage
    · split at hUsage
      · rename_i hName
        cases hUsage
        exact ⟨ho, hName⟩
      · cases hUsage
    · cases hUsage
  · rintro ⟨ho, hName⟩
    exact ⟨.usage w, ho, if_pos hName⟩

namespace Survey

variable {parse : List UInt8 → SyntaxNode} {settings : Settings} {u : CompilationUnit}
  {name : String}

/-- A macro is used in code. -/
theorem token_mem_codeTokens {w : Usage} (h : w ∈ (ofUnit parse settings u).uses.usages name) :
    w.token ∈ u.codeTokens :=
  (List.mem_filter.mp (Occurrence.token_mem_of_mem_all (UsageIndex.mem_usages.mp h).1)).1

theorem isLive_ofUnit (h : (MacroTable.ofEvents u.events).liveDefinitions name ≠ []) :
    (ofUnit parse settings u).isLive name := by
  obtain ⟨d, hd⟩ := List.exists_mem_of_ne_nil _ h
  have hContains :=
    MacroTable.contains_of_mem_names (MacroTable.mem_names_of_mem_liveDefinitions hd)
  simp [isLive, ofUnit, hContains, h]

end Survey

namespace Analysis

variable {parse : List UInt8 → SyntaxNode} {settings : Settings}
  {load : String → Except AccessFault (List UInt8)} {path : String} {text : Text} {a : Analysis}
  {c : Classification} {p : Proposal}

/-- A macro that may be changed refers to macros that follow a pattern and are in force at its
definition, wherever a live name is looked at. -/
theorem closed_of_examined (h : ofText parse settings load path text = .ok a)
    (hc : c ∈ a.classifications) (hConfidence : c.confidence ≠ .blocked) :
    ∃ d body, c.definition = some d ∧ Expr.parse d.definition.replacement = .ok body
      ∧ ∀ name ∈ Survey.examined d.definition body,
        (MacroTable.ofEvents a.unit.events).liveDefinitions name ≠ [] →
        (∃ other ∈ a.classifications, other.name = name ∧ other.isClassified)
          ∧ ((MacroTable.ofEvents a.unit.events).activeAt? name d.position).isSome := by
  obtain ⟨-, hUnit⟩ := ofText_eq_ok h
  obtain ⟨d, body, -, hBody, hDefinition, hExamined⟩ := Survey.exists_grounds_of_mem
    (Survey.namesDefinitions_ofUnit parse settings a.unit) (ofUnit_eq_ok hUnit).2.1 hc hConfidence
  exact ⟨_, body, hDefinition, hBody, fun name hName hLive => hExamined name hName
    (Survey.isLive_ofUnit hLive)⟩

/-- An operand of a constant is looked at. -/
theorem closed_sum :
    ∃ a, ofText .scopeless {} (fun _ => .error .notFound) "a.cpp"
        "#define A 1\n#define B (A + 2)\nint x = B;\n" = .ok a
      ∧ ∃ c ∈ a.classifications, c.name = "B" ∧ c.confidence ≠ .blocked
        ∧ ∃ d, c.definition = some d
          ∧ (∃ other ∈ a.classifications, other.name = "A" ∧ other.isClassified)
          ∧ ((MacroTable.ofEvents a.unit.events).activeAt? "A" d.position).isSome := by
  refine Except.exists_of_passes (fun a => decide (
      (MacroTable.ofEvents a.unit.events).liveDefinitions "A" ≠ []
      ∧ ∃ c ∈ a.classifications, c.name = "B" ∧ c.confidence ≠ .blocked ∧ c.definition.all fun d =>
        (Expr.parse d.definition.replacement).passes fun body =>
          (Survey.examined d.definition body).contains "A"))
    (by decide +kernel) fun a h hTest => ?_
  obtain ⟨hLive, c, hc, hName, hConfidence, hExamined⟩ := of_decide_eq_true hTest
  obtain ⟨d, body, hDefinition, hBody, hClosed⟩ := closed_of_examined h hc hConfidence
  rw [hDefinition, Option.all_some, hBody] at hExamined
  exact ⟨c, hc, hName, hConfidence, d, hDefinition,
    hClosed "A" (List.contains_iff_mem.mp hExamined) hLive⟩

/-- The operand of a measure is not: what it names follows no pattern and is defined later. -/
theorem not_closed_measure :
    ∃ a, ofText .scopeless {} (fun _ => .error .notFound) "a.cpp"
        "#define SIZE sizeof(TYPE)\n#define TYPE int\nint x = SIZE;\n" = .ok a
      ∧ ∃ c ∈ a.classifications, c.isClassified ∧ c.confidence ≠ .blocked
        ∧ ∃ d, c.definition = some d
          ∧ ∃ t ∈ d.definition.replacement, t.isIdentifier
          ∧ t.spelling ∉ d.definition.shape.parameters
            ∧ (MacroTable.ofEvents a.unit.events).liveDefinitions t.spelling ≠ []
            ∧ (¬ ∃ other ∈ a.classifications, other.name = t.spelling ∧ other.isClassified)
            ∧ (MacroTable.ofEvents a.unit.events).activeAt? t.spelling d.position = none := by
  refine Except.exists_of_passes
    (fun a => decide (∃ c ∈ a.classifications, c.isClassified ∧ c.confidence ≠ .blocked
      ∧ ∃ d ∈ c.definition.toList, ∃ t ∈ d.definition.replacement, t.isIdentifier
        ∧ t.spelling ∉ d.definition.shape.parameters
        ∧ (MacroTable.ofEvents a.unit.events).liveDefinitions t.spelling ≠ []
        ∧ (¬ ∃ other ∈ a.classifications, other.name = t.spelling ∧ other.isClassified)
        ∧ ((MacroTable.ofEvents a.unit.events).activeAt? t.spelling d.position).isNone))
    (by decide +kernel) fun a h hTest => ?_
  obtain ⟨c, hc, hClassified, hConfidence, d, hd, t, ht, hName, hFree, hLive, hOther, hNone⟩ :=
    of_decide_eq_true hTest
  exact ⟨c, hc, hClassified, hConfidence, d, by simpa using hd, t, ht, hName, hFree, hLive, hOther,
    Option.isNone_iff_eq_none.mp hNone⟩

/-- Where a macro in the plan is used, a name that is looked at means what it means at the
definition exactly if the last change of the name in front of the use is a definition. -/
theorem bindsAlike_at_uses_iff (h : ofText parse settings load path text = .ok a)
    (hp : p ∈ a.plan.proposals) :
    ∃ c ∈ a.classifications, ∃ d body, c.name = p.macroName ∧ c.definition = some d
      ∧ Expr.parse d.definition.replacement = .ok body
      ∧ ∀ name ∈ Survey.examined d.definition body,
        (MacroTable.ofEvents a.unit.events).liveDefinitions name ≠ [] → ∀ w ∈ c.usages,
          ((MacroTable.ofEvents a.unit.events).BindsAlike name d.position w.token.position ↔
            ∃ e, Event.Decides a.unit.events name w.token.position e
            ∧ e.directive.isDefine = true) := by
  obtain ⟨-, hUnit⟩ := ofText_eq_ok h
  obtain ⟨c, hc, hName, hConfidence, -⟩ := exists_outcome_of_mem_plan hUnit hp
  have hAll := (ofUnit_eq_ok hUnit).2.1
  obtain ⟨d, body, -, hBody, hDefinition, hExamined⟩ := Survey.exists_grounds_of_mem
    (Survey.namesDefinitions_ofUnit parse settings a.unit) hAll hc hConfidence
  refine ⟨c, hc, _, body, hName, hDefinition, hBody, fun name hMem hLive w hw => ?_⟩
  obtain ⟨⟨other, hOther, rfl, hClassified⟩, hInForce⟩ :=
    hExamined name hMem (Survey.isLive_ofUnit hLive)
  obtain ⟨_, hSubject⟩ := (Survey.exists_outcome hAll hOther).2.exists_subject hClassified
  obtain ⟨_, -, -, hUsages, -⟩ := (Survey.exists_outcome hAll hc).2.of_ne_blocked hConfidence
  rw [hUsages] at hw
  exact MacroTable.bindsAlike_iff (CompilationUnit.events_inOrder a.unit)
    (Survey.subject_eq_ok hSubject).1
    hInForce (CompilationUnit.outside_of_mem_codeTokens (Survey.token_mem_codeTokens hw) _)

/-- A name that nothing changes again. -/
theorem bindsAlike_sum :
    ∃ a, ofText .scopeless {} (fun _ => .error .notFound) "a.cpp"
        "#define A 1\n#define B (A + 2)\nint x = B;\n" = .ok a
      ∧ ∃ p ∈ a.plan.proposals, p.macroName = "B" ∧ ∃ c ∈ a.classifications, c.name = "B"
        ∧ ∃ d, c.definition = some d ∧ ∃ w ∈ c.usages,
          (MacroTable.ofEvents a.unit.events).BindsAlike "A" d.position w.token.position := by
  refine Except.exists_of_passes (fun a => decide ((∃ p ∈ a.plan.proposals, p.macroName = "B")
      ∧ (MacroTable.ofEvents a.unit.events).liveDefinitions "A" ≠ []
      ∧ ∀ c ∈ a.classifications, c.name = "B" → (c.definition.all fun d =>
          (Expr.parse d.definition.replacement).passes fun body =>
            (Survey.examined d.definition body).contains "A")
        ∧ ∃ w ∈ c.usages, ∃ e ∈ a.unit.events, e.directive.isDefine ∧ e.Changes "A"
          ∧ e.position < w.token.position
          ∧ ∀ x ∈ a.unit.events, x.Changes "A" → x.position < w.token.position →
          x.position ≤ e.position))
    (by decide +kernel) fun a h hTest => ?_
  obtain ⟨⟨p, hp, hName⟩, hLive, hAll⟩ := of_decide_eq_true hTest
  obtain ⟨c, hc, d, body, hSame, hDefinition, hBody, hBinds⟩ := bindsAlike_at_uses_iff h hp
  rw [hName] at hSame
  obtain ⟨hExamined, w, hw, e, he, hDefine, hChanges, hBefore, hLast⟩ := hAll c hc hSame
  rw [hDefinition, Option.all_some, hBody] at hExamined
  have hDecides : Event.Decides a.unit.events "A" w.token.position e :=
    ⟨he, hChanges, hBefore, hLast⟩
  exact ⟨p, hp, hName, c, hc, hSame, d, hDefinition, w, hw,
    (hBinds "A" (List.contains_iff_mem.mp hExamined) hLive w hw).mpr ⟨e, hDecides, hDefine⟩⟩

/-- A name that is undefined behind the definition and stands for a variable at the use. -/
theorem not_bindsAlike_undefined :
    ∃ a, ofText .scopeless {} (fun _ => .error .notFound) "a.cpp"
        "#define A 1\n#define B A\n#undef A\nint A = 5;\nint x = B;\n" = .ok a
      ∧ ∃ p ∈ a.plan.proposals, p.macroName = "B" ∧ ∃ c ∈ a.classifications, c.name = "B"
        ∧ ∃ d, c.definition = some d ∧ d.definition.shape = .object
          ∧ (∃ t ∈ d.definition.replacement, t.isIdentifier ∧ t.spelling = "A")
          ∧ (MacroTable.ofEvents a.unit.events).liveDefinitions "A" ≠ []
          ∧ ∃ w ∈ c.usages,
            ¬ (MacroTable.ofEvents a.unit.events).BindsAlike "A" d.position w.token.position := by
  refine Except.exists_of_passes (fun a => decide (∃ p ∈ a.plan.proposals, p.macroName = "B"
      ∧ ∃ c ∈ a.classifications, c.name = "B" ∧ ∃ d ∈ c.definition.toList,
      d.definition.shape = .object
        ∧ (∃ t ∈ d.definition.replacement, t.isIdentifier ∧ t.spelling = "A")
        ∧ (MacroTable.ofEvents a.unit.events).liveDefinitions "A" ≠ []
        ∧ ∃ w ∈ c.usages,
          ((MacroTable.ofEvents a.unit.events).activeAt? "A" w.token.position).isNone))
    (by decide +kernel) fun a h hTest => ?_
  obtain ⟨p, hp, hName, c, hc, hSame, d, hd, hShape, hMentions, hLive, w, hw, hNone⟩ :=
    of_decide_eq_true hTest
  refine ⟨p, hp, hName, c, hc, hSame, d, by simpa using hd, hShape, hMentions, hLive, w, hw, ?_⟩
  rintro ⟨-, s, -, hActive, -⟩
  rw [hActive] at hNone
  cases hNone

end Analysis

end Demacro
