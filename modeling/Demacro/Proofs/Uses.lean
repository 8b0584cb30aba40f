import Demacro.Proofs.Lines
import Demacro.Proofs.Preprocessing
import Demacro.Proofs.References

/-!
The uses of a macro that may be changed. It has one signature, no condition names it, and every
place in compiled code where its name stands is a use of it with as many arguments as there are
parameters.
-/

namespace Demacro

/-- The arguments of a call fit the parameters of a macro that takes some, and no others. -/
theorem Occurrence.length_of_callFault? {shape : Shape} {arguments : List (List PlacedToken)}
    (h : callFault? shape arguments = none) (hVariadic : shape.isVariadic = false)
    (hParameters : shape.parameters ≠ []) : arguments.length = shape.parameters.length := by
  have hPositive : shape.parameters.length ≠ 0 := by
    simpa using hParameters
  unfold callFault? at h
  dsimp only at h
  rw [if_neg (fun hEmpty => hPositive hEmpty.1), if_neg (by simp [hVariadic])] at h
  split at h
  · cases h
  · rename_i hSame
    simpa using hSame

namespace Occurrence

variable {table : MacroTable} {scopes : UnitScopes} {t : PlacedToken}
  {rest tokens : List PlacedToken} {o : Occurrence} {w : Usage}

/-- Nothing that is spelled like a live macro is passed over. -/
theorem exists_at? (scopes : UnitScopes) (rest : List PlacedToken)
    (hIdentifier : t.isIdentifier = true) (hContains : table.contains t.spelling = true)
    (hLive : table.liveDefinitions t.spelling ≠ []) : ∃ o, at? table scopes t rest = some o := by
  unfold at?
  simp only [hIdentifier, hContains, Bool.not_true, Bool.or_self, Bool.false_eq_true, if_false,
    List.isEmpty_iff, hLive]
  repeat' split
  all_goals exact ⟨_, rfl⟩

/-- A use is one of the definition in force, and its arguments fit. -/
theorem of_at?_eq_usage (h : at? table scopes t rest = some (usage w)) :
    w.token = t ∧ table.activeAt? t.spelling t.position = some w.definition
      ∧ (w.definition.definition.shape.isFunction = true →
          callFault? w.definition.definition.shape w.arguments = none) := by
  unfold at? at h
  dsimp only at h
  split at h
  · cases h
  split at h
  · split at h <;> cases h
  rename_i d hActive
  split at h
  · rename_i hObject
    cases h
    exact ⟨rfl, hActive, fun hFunction => absurd hFunction (by simpa [makeUsage] using hObject)⟩
  split at h
  · cases h
  split at h
  · cases h
  split at h
  · cases h
  · rename_i hFits
    cases h
    exact ⟨rfl, hActive, fun _ => hFits⟩

theorem mem_all_of_at? {before : List PlacedToken} (h : at? table scopes t rest = some o) :
    o ∈ all table scopes (before ++ t :: rest) := by
  induction before with
  | nil => simp [all, h]
  | cons x before ih => exact List.mem_append_right _ ih

end Occurrence

namespace UsageIndex

variable {x : UsageIndex} {o : Occurrence} {name : String}

/-- Where the name of a macro always expands with fitting arguments, it is used. -/
theorem exists_usage (ho : o ∈ x.occurrences) (hName : o.token.spelling = name)
    (hStrays : x.strays name = []) (hUnresolved : x.unresolved name = []) :
    ∃ w ∈ x.usages name, o = .usage w := by
  cases o with
  | usage w => exact ⟨w, List.mem_filterMap.mpr ⟨.usage w, ho, if_pos hName⟩, rfl⟩
  | stray t reason =>
      have hMem : (t, reason) ∈ x.strays name :=
        List.mem_filterMap.mpr ⟨.stray t reason, ho, if_pos hName⟩
      rw [hStrays] at hMem
      cases hMem
  | unresolved t fault =>
      have hMem : (t, fault) ∈ x.unresolved name :=
        List.mem_filterMap.mpr ⟨.unresolved t fault, ho, if_pos hName⟩
      rw [hUnresolved] at hMem
      cases hMem

end UsageIndex

namespace Survey

variable {s : Survey} {name : String} {c : Classification} {d : ActiveSpan}

/-- A macro with arguments follows a pattern only if it takes some, and not any number of them. -/
theorem parameters_of_run {memory memory' : Classifying.Memory}
    {ask : String → Classifying Classification} (hSubject : s.subject name = .ok d)
    (hFunction : d.definition.shape.isFunction = true)
    (h : (s.classifyNew ask name).run memory = .ok (c, memory')) (hClassified : c.isClassified) :
    d.definition.shape.isVariadic = false ∧ d.definition.shape.parameters ≠ [] := by
  simp only [classifyNew, hSubject, hFunction, if_true, classifyFunction] at h
  split at h
  · cases h
    cases hClassified
  rename_i hVariadic
  split at h
  · cases h
    cases hClassified
  · rename_i hParameters
    exact ⟨by simpa using hVariadic, by simpa using hParameters⟩

variable {parse : List UInt8 → SyntaxNode} {settings : Settings} {u : CompilationUnit}
  {t : PlacedToken}

/-- Where the name of a live macro always expands with fitting arguments, each place of it in
compiled code is a use of the definition in force there. -/
theorem exists_usage_ofUnit (ht : t ∈ u.codeTokens) (hReach : t.reachability ≠ .disabled)
    (hIdentifier : t.isIdentifier = true) (hName : t.spelling = name)
    (hLive : (MacroTable.ofEvents u.events).liveDefinitions name ≠ [])
    (hStrays : (ofUnit parse settings u).uses.strays name = [])
    (hUnresolved : (ofUnit parse settings u).uses.unresolved name = []) :
    ∃ w ∈ (ofUnit parse settings u).uses.usages name, w.token = t
      ∧ (MacroTable.ofEvents u.events).activeAt? name t.position = some w.definition
      ∧ (w.definition.definition.shape.isFunction = true →
          Occurrence.callFault? w.definition.definition.shape w.arguments = none) := by
  subst hName
  obtain ⟨d, hd⟩ := List.exists_mem_of_ne_nil _ hLive
  have hContains :=
    MacroTable.contains_of_mem_names (MacroTable.mem_names_of_mem_liveDefinitions hd)
  have hCode : t ∈ UsageIndex.liveCode u := List.mem_filter.mpr ⟨ht, by simpa using hReach⟩
  obtain ⟨before, rest, hSplit⟩ := List.append_of_mem hCode
  obtain ⟨o, ho⟩ :=
    Occurrence.exists_at? (UnitScopes.ofUnit parse u) rest hIdentifier hContains hLive
  have hOccurs : o ∈ (ofUnit parse settings u).uses.occurrences := by
    change o ∈ Occurrence.all _ _ (UsageIndex.liveCode u)
    rw [hSplit]
    exact Occurrence.mem_all_of_at? ho
  have hName : o.token.spelling = t.spelling := by
    rw [Occurrence.token_of_at? ho]
  obtain ⟨w, hw, rfl⟩ := UsageIndex.exists_usage hOccurs hName hStrays hUnresolved
  exact ⟨w, hw, Occurrence.of_at?_eq_usage ho⟩

/-- No live conditional line has the name of a macro on it that is classified by its replacement and
that no condition tests. -/
theorem ne_of_mem_operands {path : String} {text : Text} {search : Option IncludeSearch}
    (hRead : CompilationUnit.read path text search = .ok u)
    (hSubject : (ofUnit parse settings u).subject name = .ok d)
    (hTested : (ofUnit parse settings u).uses.tested name = []) {line : DirectiveLine}
    (hLine : line ∈ u.conditionalLines) (hLive : line.reachability ≠ .disabled)
    (ht : t ∈ line.operands) (hIdentifier : t.isIdentifier = true) : t.spelling ≠ name := by
  rintro rfl
  have hGuard := not_guard_of_subject hRead hSubject
  obtain ⟨e, he, hName, hDefine⟩ :=
    MacroTable.mem_names.mp (namesDefinitions_ofUnit parse settings u _ d hSubject)
  replace he : e ∈ (MacroTable.ofEvents u.events).events := he
  rw [MacroTable.ofEvents_events] at he
  have hOperator : t.isNamed "defined" = false := by
    by_contra hNamed
    simp only [Token.isNamed, Bool.not_eq_false, Bool.and_eq_true, beq_iff_eq] at hNamed
    refine CompilationUnit.name_ne_defined hRead he hDefine ?_
    rw [hName, Token.spelling, hNamed.2]
    decide
  have hMem : line ∈ (ofUnit parse settings u).uses.tested t.spelling :=
    mem_tested_of_mem_operands hLine hLive ht hIdentifier hOperator hGuard
  rw [hTested] at hMem
  cases hMem

end Survey

namespace CompilationUnit

/-- A name means one macro throughout a unit: its live definitions have the given signature, no live
condition names it, and it is used wherever it stands in compiled code. -/
structure Settles (u : CompilationUnit) (name : String) (signature : Shape × List Text)
    (uses : List Usage) : Prop where
  alike : ∀ e ∈ u.events, e.Changes name → ∀ d, e.directive = .define d → d.signature = signature
  used : ∀ t ∈ u.codeTokens, t.reachability ≠ .disabled → t.isIdentifier = true →
    t.spelling = name → ∃ w ∈ uses, w.token = t
      ∧ (MacroTable.ofEvents u.events).activeAt? name t.position = some w.definition
      ∧ (∃ e, Event.Decides u.events name t.position e
        ∧ e.directive = .define w.definition.definition)
      ∧ w.definition.definition.signature = signature
      ∧ (signature.1.isFunction = true → w.arguments.length = signature.1.parameters.length)
  untested : ∀ line ∈ u.conditionalLines, line.reachability ≠ .disabled →
    ∀ t ∈ line.operands, t.isIdentifier = true → t.spelling ≠ name

end CompilationUnit

namespace Analysis

variable {parse : List UInt8 → SyntaxNode} {settings : Settings}
  {load : String → Except AccessFault (List UInt8)} {path : String} {text : Text} {a : Analysis}
  {c : Classification}

/-- A macro that may be changed means the same throughout the unit, and each place of its name is a
use. -/
theorem settles_of_ne_blocked (h : ofText parse settings load path text = .ok a)
    (hc : c ∈ a.classifications) (hConfidence : c.confidence ≠ .blocked) :
    ∃ d, c.definition = some d ∧ a.unit.Settles c.name d.definition.signature c.usages := by
  obtain ⟨hRead, hUnit⟩ := ofText_eq_ok h
  have hAll := (ofUnit_eq_ok hUnit).2.1
  obtain ⟨-, hOutcome⟩ := Survey.exists_outcome hAll hc
  obtain ⟨d, hSubject, hDefinition, hUsages, -⟩ := hOutcome.of_ne_blocked hConfidence
  obtain ⟨hTested, hStrays, hUnresolved, -⟩ := hOutcome.sites_of_ne_blocked hConfidence
  obtain ⟨hMem, hReach⟩ := Survey.mem_definitions_of_subject hSubject
  have hLive : d.definition ∈ (MacroTable.ofEvents a.unit.events).liveDefinitions c.name :=
    MacroTable.mem_liveDefinitions_iff_exists_span.mpr ⟨d, hMem, rfl, hReach⟩
  have hAlike : ∀ other ∈ (MacroTable.ofEvents a.unit.events).liveDefinitions c.name,
      other.signature = d.definition.signature := fun other hOther =>
    MacroTable.signature_eq_of_not_isAmbiguous (Survey.subject_eq_ok hSubject).1 hOther hLive
  refine ⟨_, hDefinition, ?_, ?_, ?_⟩
  · intro e he hChanges other hDefine
    have hName : other.name = c.name := by simpa [hDefine, Directive.name] using hChanges.1
    exact hAlike other (MacroTable.mem_liveDefinitions_ofEvents.mpr ⟨e, he, hDefine, hName,
      hChanges.2⟩)
  · intro t ht hReach hIdentifier hName
    obtain ⟨w, hw, hToken, hActive, hFits⟩ := Survey.exists_usage_ofUnit ht hReach hIdentifier
      hName (List.ne_nil_of_mem hLive) hStrays hUnresolved
    have hInOrder := CompilationUnit.events_inOrder a.unit
    have hSignature := hAlike _
      (MacroTable.mem_liveDefinitions_of_activeAt? (MacroTable.positions_of_inOrder hInOrder)
        hActive)
    have hShape : w.definition.definition.shape = d.definition.shape := congrArg Prod.fst hSignature
    refine ⟨w, hUsages ▸ hw, hToken, hActive, ?_, hSignature, fun hFunction => ?_⟩
    · exact (MacroTable.activeAt?_iff hInOrder (CompilationUnit.outside_of_mem_codeTokens ht _)).mp
        ⟨_, hActive, rfl⟩
    · have hRun := Survey.run_classifyNew_of_mem
        (Survey.namesDefinitions_ofUnit parse settings a.unit) hAll hc hConfidence
      obtain ⟨hVariadic, hParameters⟩ :=
        Survey.parameters_of_run hSubject hFunction hRun (hOutcome.isClassified hConfidence)
      rw [hShape] at hFits
      exact Occurrence.length_of_callFault? (hFits hFunction) hVariadic hParameters
  · intro line hLine hReach t ht hIdentifier
    exact Survey.ne_of_mem_operands hRead hSubject hTested hLine hReach ht hIdentifier

/-- A macro with parameters that also stands in a disabled branch. -/
theorem settles_sum :
    ∃ a, ofText .scopeless {} (fun _ => .error .notFound) "a.cpp"
        "#define SUM(a, b) ((a) + (b))\n#if 0\nint y = SUM;\n#endif\nint x = SUM(1, (2, 3));\n"
        = .ok a
      ∧ ∃ c ∈ a.classifications, c.name = "SUM" ∧ c.confidence ≠ .blocked
        ∧ ∃ d, c.definition = some d ∧ a.unit.Settles "SUM" d.definition.signature c.usages := by
  refine Except.exists_of_passes (fun a => decide (∃ c ∈ a.classifications, c.name = "SUM"
    ∧ c.confidence ≠ .blocked)) (by decide +kernel) fun a h hTest => ?_
  obtain ⟨c, hc, hName, hConfidence⟩ := of_decide_eq_true hTest
  obtain ⟨d, hDefinition, hSettles⟩ := settles_of_ne_blocked h hc hConfidence
  rw [hName] at hSettles
  exact ⟨c, hc, hName, hConfidence, d, hDefinition, hSettles⟩

end Analysis

end Demacro
