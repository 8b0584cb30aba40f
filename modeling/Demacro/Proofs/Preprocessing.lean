import Demacro.Proofs.Analysis
import Demacro.Proofs.Classification.Carriers
import Demacro.Proofs.Reading

/-!
Macros that the preprocessor itself still needs. A condition and an include that is computed from
macros are expanded before the compiler sees anything, so no macro that such a line leads to can
give way to a declaration.
-/

namespace Demacro

namespace DirectiveLine

/-- Whether the line is a condition. -/
def isCondition (line : DirectiveLine) : Bool :=
  ["if", "ifdef", "ifndef", "elif", "elifdef", "elifndef"].contains line.keyword

/-- Whether the line is an include of a file that only expansion gives. -/
def isComputedInclude (line : DirectiveLine) : Bool :=
  line.keyword == "include" && line.operands.head?.any fun t => t.kind != .string && !t.isPunct "<"

/-- The names behind the keyword. The word `defined` is an operator. -/
def names (line : DirectiveLine) : List String :=
  (line.operands.filter fun t => t.isIdentifier && !t.isNamed "defined").map (·.spelling)

end DirectiveLine

namespace CompilationUnit

/-- Whether a line of a file tests the include guard of the same file. -/
def isGuardTest (u : CompilationUnit) (line : DirectiveLine) (name : String) : Bool :=
  u.guards.lookup line.span.path == some name && (line.keyword == "ifndef" || line.keyword == "if")

/-- A name stands on a live line that the preprocessor expands, and not as the guard of the file. -/
def Occurs (u : CompilationUnit) (name : String) : Prop :=
  ∃ line ∈ u.directiveLines, line.reachability ≠ .disabled
    ∧ (line.isCondition = true ∨ line.isComputedInclude = true)
    ∧ name ∈ line.names ∧ u.isGuardTest line name = false

instance (u : CompilationUnit) : DecidablePred u.Occurs :=
  fun name => inferInstanceAs (Decidable (∃ line ∈ u.directiveLines, line.reachability ≠ .disabled
    ∧ (line.isCondition = true ∨ line.isComputedInclude = true)
    ∧ name ∈ line.names ∧ u.isGuardTest line name = false))

/-- The names that the preprocessor needs: those on lines that it expands, and those that live
definitions of needed names mention. -/
inductive Needed (u : CompilationUnit) : String → Prop where
  | occurs {name : String} (h : u.Occurs name) : Needed u name
  | mentioned {m name : String} (hNeeded : Needed u m)
      (hRefers : (MacroTable.ofEvents u.events).Refers m name) : Needed u name

/-- A name is needed exactly if a chain of references leads to it from a line that is expanded. -/
theorem needed_iff {u : CompilationUnit} {name : String} : u.Needed name ↔
    ∃ m, u.Occurs m ∧ Relation.ReflTransGen (MacroTable.ofEvents u.events).Refers m name := by
  constructor
  · intro h
    induction h with
    | @occurs name h => exact ⟨name, h, .refl⟩
    | mentioned _ hRefers ih =>
        obtain ⟨m, hOccurs, hChain⟩ := ih
        exact ⟨m, hOccurs, hChain.tail hRefers⟩
  · rintro ⟨m, hOccurs, hChain⟩
    induction hChain with
    | refl => exact .occurs hOccurs
    | tail _ hRefers ih => exact .mentioned ih hRefers

theorem mem_conditionalLines {u : CompilationUnit} {line : DirectiveLine}
    (hLine : line ∈ u.directiveLines) (hCondition : line.isCondition = true) :
    line ∈ u.conditionalLines := by
  obtain ⟨⟨n, placed⟩, hPlaced, hFound⟩ := List.mem_filterMap.mp hLine
  refine List.mem_filterMap.mpr ⟨(n, placed), hPlaced, ?_⟩
  dsimp only at hFound ⊢
  split at hFound
  · cases hFound
  · rename_i keyword change unresolved hRole
    rw [if_pos rfl, Option.some.injEq] at hFound
    have hKeyword : keyword = line.keyword := by rw [← hFound]
    have hBranch : (Conditional.ofKeyword? keyword).any (· != .endGroup) = true := by
      simp only [DirectiveLine.isCondition, List.contains_eq_mem, List.mem_cons, List.not_mem_nil,
        or_false, decide_eq_true_eq, ← hKeyword] at hCondition
      rcases hCondition with rfl | rfl | rfl | rfl | rfl | rfl <;> decide
    rw [if_pos hBranch, hFound]

end CompilationUnit

namespace Survey

variable {parse : List UInt8 → SyntaxNode} {settings : Settings} {u : CompilationUnit}
  {name : String}

/-- The name of an include guard is defined with an empty replacement, so it is never classified by
a replacement. -/
theorem not_guard_of_subject {path : String} {text : Text} {search : Option IncludeSearch}
    (hRead : CompilationUnit.read path text search = .ok u) {d : ActiveSpan}
    (h : (Survey.ofUnit parse settings u).subject name = .ok d) : name ∉ u.guards.map Prod.snd := by
  intro hGuard
  obtain ⟨⟨guarded, guard⟩, hMem, rfl⟩ := List.mem_map.mp hGuard
  obtain ⟨e, he, hLive, g, hDefine, hName, -, hEmpty⟩ := CompilationUnit.guard_defined hRead hMem
  obtain ⟨hAmbiguous, -, -, hTokens⟩ := subject_eq_ok h
  obtain ⟨hDefinition, hReach⟩ := mem_definitions_of_subject h
  have hGuardLive : g ∈ (MacroTable.ofEvents u.events).liveDefinitions guard :=
    MacroTable.mem_liveDefinitions_ofEvents.mpr ⟨e, he, hDefine, hName, hLive⟩
  have hFirstLive : d.definition ∈ (MacroTable.ofEvents u.events).liveDefinitions guard :=
    MacroTable.mem_liveDefinitions_iff_exists_span.mpr ⟨d, hDefinition, rfl, hReach⟩
  have hSame := MacroTable.signature_eq_of_not_isAmbiguous hAmbiguous hFirstLive hGuardLive
  have hReplacement : d.definition.replacement = [] := by
    have hLexemes := congrArg Prod.snd hSame
    simpa [Definition.signature, hEmpty] using hLexemes
  simp [tokenRefusal?, hReplacement] at hTokens

/-- A name on a live conditional line is tested by it, unless it is that of an include guard. -/
theorem mem_tested_of_mem_operands {line : DirectiveLine} {t : PlacedToken}
    (hLine : line ∈ u.conditionalLines) (hLive : line.reachability ≠ .disabled)
    (ht : t ∈ line.operands) (hIdentifier : t.isIdentifier = true)
    (hOperator : t.isNamed "defined" = false) (hGuard : t.spelling ∉ u.guards.map Prod.snd) :
    line ∈ (Survey.ofUnit parse settings u).uses.tested t.spelling := by
  refine List.mem_filterMap.mpr ⟨(t.spelling, line), ?_, if_pos rfl⟩
  refine List.mem_flatMap.mpr ⟨line, List.mem_filter.mpr ⟨hLine, by simpa using hLive⟩, ?_⟩
  refine List.mem_map.mpr ⟨t, List.mem_filter.mpr ⟨ht, ?_⟩, rfl⟩
  have hNotGuard : (u.guards.map Prod.snd).contains t.spelling = false := by
    simpa using hGuard
  rw [hNotGuard, hIdentifier, hOperator]
  rfl

/-- A condition that names a macro is a test of it, unless it is about an include guard. -/
theorem mem_tested {line : DirectiveLine} (hLine : line ∈ u.directiveLines)
    (hLive : line.reachability ≠ .disabled) (hCondition : line.isCondition = true)
    (hName : name ∈ line.names) (hGuard : name ∉ u.guards.map Prod.snd) :
    line ∈ (Survey.ofUnit parse settings u).uses.tested name := by
  obtain ⟨t, ht, rfl⟩ := List.mem_map.mp hName
  obtain ⟨ht, hName⟩ := List.mem_filter.mp ht
  simp only [Bool.and_eq_true, Bool.not_eq_true'] at hName
  exact mem_tested_of_mem_operands (CompilationUnit.mem_conditionalLines hLine hCondition) hLive
    ht hName.1 hName.2 hGuard

end Survey

namespace Analysis

variable {parse : List UInt8 → SyntaxNode} {settings : Settings}
  {load : String → Except AccessFault (List UInt8)} {path : String} {text : Text} {a : Analysis}
  {p : Proposal}

/-- No condition names a macro that is replaced. -/
theorem not_mem_names_of_isCondition (h : ofText parse settings load path text = .ok a)
    (hp : p ∈ a.plan.proposals) {line : DirectiveLine} (hLine : line ∈ a.unit.directiveLines)
    (hLive : line.reachability ≠ .disabled) (hCondition : line.isCondition = true) :
    p.macroName ∉ line.names := by
  intro hName
  obtain ⟨hRead, hUnit⟩ := ofText_eq_ok h
  obtain ⟨c, -, -, hConfidence, hOutcome⟩ := exists_outcome_of_mem_plan hUnit hp
  obtain ⟨d, hSubject, -⟩ := hOutcome.of_ne_blocked hConfidence
  have hGuard := Survey.not_guard_of_subject hRead hSubject
  have hTested : line ∈ (Survey.ofUnit parse settings a.unit).uses.tested p.macroName :=
    Survey.mem_tested hLine hLive hCondition hName hGuard
  rw [(hOutcome.sites_of_ne_blocked hConfidence).1] at hTested
  cases hTested

/-- A macro that is replaced can be needed only by a computed include, or through a macro that
carries it: nothing else is looked at when a macro is found to be tested. -/
theorem not_needed_iff (h : ofText parse settings load path text = .ok a)
    (hp : p ∈ a.plan.proposals) :
    ¬ a.unit.Needed p.macroName ↔
      (∀ line ∈ a.unit.directiveLines, line.reachability ≠ .disabled →
        line.isComputedInclude = true → p.macroName ∉ line.names)
      ∧ ∀ m ∈ (Survey.ofUnit parse settings a.unit).carriers p.macroName, ¬ a.unit.Occurs m := by
  obtain ⟨-, hUnit⟩ := ofText_eq_ok h
  obtain ⟨c, hc, hName, -⟩ := exists_outcome_of_mem_plan hUnit hp
  have hContains : (MacroTable.ofEvents a.unit.events).contains p.macroName = true :=
    MacroTable.contains_of_mem_names (hName ▸ mem_names_of_mem_classifications hUnit hc)
  have hCarriers : ∀ m, m ∈ (Survey.ofUnit parse settings a.unit).carriers p.macroName ↔ _ :=
    fun m => Survey.mem_carriers hContains
  constructor
  · intro hNot
    constructor
    · intro line hLine hLive hComputed hMem
      refine hNot (.occurs ⟨line, hLine, hLive, .inr hComputed, hMem, ?_⟩)
      have hKeyword : line.keyword = "include" := by
        simpa using (Bool.and_eq_true_iff.mp hComputed).1
      simp [CompilationUnit.isGuardTest, hKeyword]
    · intro m hm hOccurs
      exact hNot (CompilationUnit.needed_iff.mpr
        ⟨m, hOccurs, ((hCarriers m).mp hm).2.to_reflTransGen⟩)
  · rintro ⟨hComputed, hCarried⟩ hNeeded
    obtain ⟨m, hOccurs, hChain⟩ := CompilationUnit.needed_iff.mp hNeeded
    by_cases hSelf : m = p.macroName
    · subst hSelf
      obtain ⟨line, hLine, hLive, hExpanded, hMem, -⟩ := hOccurs
      rcases hExpanded with hCondition | hInclude
      · exact not_mem_names_of_isCondition h hp hLine hLive hCondition hMem
      · exact hComputed line hLine hLive hInclude hMem
    · have hTrans := (Relation.reflTransGen_iff_eq_or_transGen.mp hChain).resolve_left
        (Ne.symm hSelf)
      exact hCarried m ((hCarriers m).mpr ⟨hSelf, hTrans⟩) hOccurs

/-- A macro that nothing mentions and no include is computed from can be replaced. -/
theorem not_needed_unmentioned :
    ∃ a, ofText .scopeless {} (fun _ => .error .notFound) "a.cpp"
        "#define N 1\n#if OTHER\n#endif\nint x = N;\n" = .ok a
      ∧ ∃ p ∈ a.plan.proposals, p.macroName = "N" ∧ ¬ a.unit.Needed p.macroName := by
  refine Except.exists_of_passes (fun a => a.plan.proposals.any (·.macroName == "N")
    && ((Survey.ofUnit .scopeless {} a.unit).referrers "N").isEmpty
    && !a.unit.directiveLines.any (·.isComputedInclude)) (by decide +kernel) fun a h hTest => ?_
  simp only [Bool.and_eq_true, List.any_eq_true, beq_iff_eq, Bool.not_eq_true', List.isEmpty_iff,
    List.any_eq_false] at hTest
  obtain ⟨⟨⟨p, hp, hName⟩, hReferrers⟩, hIncludes⟩ := hTest
  refine ⟨p, hp, hName, (not_needed_iff h hp).mpr ⟨?_, ?_⟩⟩
  · intro line hLine _ hComputed
    exact absurd hComputed (hIncludes line hLine)
  · rw [hName, Survey.carriers_eq_nil hReferrers]
    intro m hm
    cases hm

/-- A macro is replaced although a condition needs it through another macro. -/
theorem needed_through_carrier :
    ∃ a, ofText .scopeless {} (fun _ => .error .notFound) "a.cpp"
        "#define MAJOR 2\n#define VERSION MAJOR\n#if VERSION > 1\nint a;\n#endif\nint b = MAJOR;\n"
          = .ok a
      ∧ ∃ p ∈ a.plan.proposals, p.macroName = "MAJOR" ∧ a.unit.Needed p.macroName := by
  refine Except.exists_of_passes (fun a => a.plan.proposals.any (·.macroName == "MAJOR")
    && decide (a.unit.Occurs "VERSION")
    && ((MacroTable.ofEvents a.unit.events).liveDefinitions "VERSION").any
      (Survey.mentions · "MAJOR"))
    (by decide +kernel) fun a h hTest => ?_
  simp only [Bool.and_eq_true, List.any_eq_true, beq_iff_eq, decide_eq_true_eq] at hTest
  obtain ⟨⟨⟨p, hp, hName⟩, hOccurs⟩, hRefers⟩ := hTest
  refine ⟨p, hp, hName, ?_⟩
  rw [hName]
  exact .mentioned (.occurs hOccurs) hRefers

end Analysis

end Demacro
