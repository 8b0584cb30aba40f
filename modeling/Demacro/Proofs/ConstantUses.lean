import Demacro.Proofs.Analysis
import Demacro.Proofs.Constant.Kinds

/-!
Uses where a constant is required. What a macro is declared as depends on its replacement: it is an
integral constant exactly if the replacement is one. Whether a use requires a constant has no say in
that, and so calls and floating constants are put where only an integral constant will do.
-/

namespace Demacro

namespace Survey

open Classifying

variable {s : Survey} {ask : String → Classifying Classification} {name : String} {d : ActiveSpan}
  {c : Classification}

/-- The value of a macro, if it has one, is of the kind that its replacement shows. -/
structure ValueHasKind (s : Survey) (name : String) (c : Classification) : Prop where
  name_eq : c.name = name
  kind : ∀ v, c.value = some v → s.table.StandsFor name v.kind

theorem value_of_referenceValue {f : Folded} (h : referenceValue c = .ok f) :
    c.value = some f.constant := by
  unfold referenceValue at h
  split at h
  · cases h
  split at h
  · rename_i hValue
    cases h
    exact hValue
  · rename_i hValue
    cases h
    exact hValue
  · cases h

theorem yields_valueOf (hAsk : ∀ n, Yields (Recalls s.ValueHasKind) (ask n) (s.ValueHasKind n)) :
    Yields (Recalls s.ValueHasKind) (s.valueOf ask name) fun r =>
      ∀ f, r = .ok f → s.table.StandsFor name f.constant.kind := by
  unfold valueOf
  split
  · exact (hAsk name).bind fun c hc => yields_pure fun f hf =>
      hc.kind f.constant (value_of_referenceValue hf)
  · exact yields_pure nofun

/-- If the macros that it asks for have values of their kinds, so has a macro. -/
theorem yields_classifyNew
    (hAsk : ∀ n, Yields (Recalls s.ValueHasKind) (ask n) (s.ValueHasKind n)) :
    Yields (Recalls s.ValueHasKind) (s.classifyNew ask name) (s.ValueHasKind name) := by
  refine classifyNew_yields (fun _ _ _ => ⟨rfl, nofun⟩) (fun d hSubject hShape => ?_)
    fun d hSubject hShape => ?_
  · refine classifyObject_yields hAsk (fun _ => yields_valueOf hAsk) (fun _ _ _ => ⟨rfl, nofun⟩)
      fun body v known cs hBody _ hKnown hFold _ => ⟨rfl, ?_⟩
    rintro _ ⟨⟩
    exact ⟨d, body, find?_of_subject hSubject, hShape, hBody,
      HasKind.of_fold (fun n f hf => hKnown _ (mem_of_lookup_getD hf) f rfl) hFold⟩
  · -- A macro with arguments has no value.
    exact classifyFunction_yields (F := fun _ _ => True) hAsk
      (fun body => (nameFindings_yields hAsk _).mono fun _ _ _ _ => trivial)
      (fun _ _ _ => ⟨rfl, nofun⟩) fun _ _ _ _ _ _ => ⟨rfl, nofun⟩

/-- The value of a macro is of the kind that its replacement shows. -/
theorem valueHasKind_of_mem {cs : List Classification} (h : s.classifyAll = .ok cs) (hc : c ∈ cs) :
    s.ValueHasKind c.name c := by
  have hAll : List.Forall₂ s.ValueHasKind s.table.names cs := by
    refine forall₂_of_classifyAll (fun ask name hAsk => yields_classifyNew fun n =>
      (hAsk n).mono ?_) h
    rintro c (hKind | rfl)
    · exact hKind
    · exact ⟨rfl, nofun⟩
  obtain ⟨name, -, hKind⟩ := hAll.exists_left hc
  rwa [hKind.name_eq]

end Survey

/-- The macro is an integral constant that is declared as one. -/
def Classification.IsIntegralConstant (c : Classification) : Prop :=
  c.pattern ∈ [.simpleConstant, .classScopedConstant, .enumHackCandidate]
    ∧ ∃ type initializer value, c.payload = some (.constant type initializer true value)

/-- If some use requires a constant, the macro is an integral constant. -/
def Classification.ServesConstantUses (c : Classification) : Prop :=
  (∃ w ∈ c.usages, w.requiresConstant = true) → c.IsIntegralConstant

/-- Some use requires a constant in the class itself, not in a scope inside of it. -/
def Classification.RequiresConstantIn (c : Classification) (frame : Frame) : Prop :=
  ∃ w ∈ c.usages, w.requiresConstant = true ∧ w.context.innermost?.any (·.same frame) = true

namespace Survey

variable {s : Survey} {name : String} {d : ActiveSpan} {c : Classification} {home : Context}
  {payload : Payload} {usages : List Usage}

/-- An integral constant gets one of three patterns. -/
theorem pattern_of_isIntegral (h : isIntegral payload = true) :
    (s.constantPattern home payload usages).1 ∈ [.simpleConstant, .classScopedConstant,
      .enumHackCandidate] := by
  unfold constantPattern
  split
  · split
    · cases h
    · simp
  · rw [if_neg (by simp [h])]
    split
    · simp
    · simp
    · split <;> simp

/-- A constant becomes an enumerator if it is integral, in a class, and asked to or needed as a
constant there. -/
theorem pattern_eq_enumHackCandidate_iff :
    (s.constantPattern home payload usages).1 = .enumHackCandidate ↔
    isIntegral payload = true ∧ ∃ frame, home.class? = some frame ∧ (s.constantStyle = .enumHack
      ∨ s.constantStyle = .auto
        ∧ ∃ w ∈ usages, w.requiresConstant = true ∧ w.context.innermost?.any (·.same frame)
        = true) := by
  unfold constantPattern
  split
  · rename_i hNone
    refine iff_of_false ?_ (by simp [hNone])
    split <;> nofun
  rename_i frame hClass
  cases hIntegral : isIntegral payload with
  | false => simp
  | true =>
      simp only [Bool.not_true, Bool.false_eq_true, if_false, hClass, Option.some.injEq, true_and,
        exists_eq_left']
      split
      · rename_i hStyle
        simp [hStyle]
      · rename_i hStyle
        simp [hStyle]
      · rename_i hStyle
        split
        · rename_i w hFound
          refine iff_of_true rfl (.inr ⟨hStyle, w, List.mem_of_find?_eq_some hFound, ?_⟩)
          simpa using List.find?_some hFound
        · rename_i hFound
          refine iff_of_false nofun ?_
          rintro (hEnum | ⟨-, w, hw, hNeeds⟩)
          · rw [hStyle] at hEnum
            cases hEnum
          · have hNone := List.find?_eq_none.mp hFound w hw
            simp [hNeeds] at hNone

theorem isIntegral_constantPayload (initializer : Text) (v : Constant) :
    isIntegral (constantPayload initializer v).1 = true ↔ v.kind = .integral := by
  cases v with
  | integral => exact iff_of_true rfl rfl
  | floating | string | pointer => exact iff_of_false nofun nofun

theorem isIntegralConstant_constantMacro {body : Expr} {value : Folded}
    {dependencies : List Classification} :
    (s.constantMacro name d body value dependencies).IsIntegralConstant ↔
    value.constant.kind = .integral := by
  unfold constantMacro Classification.IsIntegralConstant
  dsimp only
  cases value.constant with
  | integral t v => exact iff_of_true ⟨pattern_of_isIntegral rfl, _, _, _, rfl⟩ rfl
  | floating | string | pointer =>
      refine iff_of_false ?_ nofun
      rintro ⟨-, type, initializer, value, hPayload⟩
      cases hPayload

/-- A macro that may be changed is an integral constant exactly if its replacement is one. -/
theorem Outcome.isIntegralConstant_iff (h : s.Outcome name c) (hKind : s.ValueHasKind name c)
    (hConfidence : c.confidence ≠ .blocked) :
    ∃ d body, c.definition = some (s.record d) ∧ Expr.parse d.definition.replacement = .ok body
      ∧ (c.IsIntegralConstant ↔ d.definition.shape.isFunction = false
        ∧ HasKind s.table body .integral) := by
  cases h with
  | unsuitable | rejected => exact absurd rfl hConfidence
  | @constant d body value dependencies hSubject hShape hBody hComma =>
      refine ⟨d, body, rfl, hBody, ?_⟩
      obtain ⟨d', body', hFirst, -, hBody', hValue⟩ := hKind.kind value.constant rfl
      cases hFirst.symm.trans (find?_of_subject hSubject)
      cases hBody.symm.trans hBody'
      rw [isIntegralConstant_constantMacro, and_iff_right hShape]
      constructor
      · intro hIntegral
        rwa [hIntegral] at hValue
      · exact hValue.unique
  | @function d body _ _ hSubject hShape hBody hComma =>
      refine ⟨d, body, rfl, hBody, iff_of_false ?_ (by simp [hShape])⟩
      rintro ⟨-, type, initializer, value, hPayload⟩
      cases hPayload

/-- Where an integral constant is required has a say only in whether a constant of a class becomes
an enumerator. -/
theorem Outcome.enumHackCandidate_iff (h : s.Outcome name c)
    (hConfidence : c.confidence ≠ .blocked) :
    c.pattern = .enumHackCandidate ↔ c.IsIntegralConstant ∧ ∃ frame, c.context.bind Context.class?
    = some frame
      ∧ (s.constantStyle = .enumHack ∨ s.constantStyle = .auto ∧ c.RequiresConstantIn frame) := by
  cases h with
  | unsuitable | rejected => exact absurd rfl hConfidence
  | @constant d body value dependencies hSubject =>
      rw [isIntegralConstant_constantMacro]
      exact pattern_eq_enumHackCandidate_iff.trans
        (and_congr_left' (isIntegral_constantPayload _ _))
  | function =>
      refine iff_of_false nofun ?_
      rintro ⟨⟨-, type, initializer, value, hPayload⟩, -⟩
      cases hPayload

end Survey

/-- The tree of a file with an array declarator in it. -/
def SyntaxNode.oneArray (start sizeStart sizeStop : Nat) (bytes : List UInt8) : SyntaxNode :=
  ⟨"translation_unit", 0, bytes.length, none, false,
    [⟨"array_declarator", start, sizeStop + 1, none, false,
      [⟨"expression", sizeStart, sizeStop, some "size", false, []⟩]⟩]⟩

namespace Analysis

variable {parse : List UInt8 → SyntaxNode} {settings : Settings}
  {load : String → Except AccessFault (List UInt8)} {path : String} {text : Text} {a : Analysis}
  {p : Proposal}

/-- A macro in the plan of which some use requires a constant is an integral constant exactly if it
takes no arguments and its replacement comes to one. Such a use has a say only where there is one
already, in a class: there it makes an enumerator of it. -/
theorem servesConstantUses_iff (h : ofText parse settings load path text = .ok a)
    (hp : p ∈ a.plan.proposals) :
    ∃ c ∈ a.classifications, ∃ d body, c.name = p.macroName ∧ c.definition = some d
      ∧ Expr.parse d.definition.replacement = .ok body
      ∧ (c.ServesConstantUses ↔ (∀ w ∈ c.usages, w.requiresConstant = false)
        ∨ d.definition.shape.isFunction = false
        ∧ HasKind (MacroTable.ofEvents a.unit.events) body .integral)
      ∧ (c.pattern = .enumHackCandidate ↔ c.IsIntegralConstant
        ∧ ∃ frame, c.context.bind Context.class? = some frame
        ∧ (settings.classConstantStyle = .enumHack
          ∨ settings.classConstantStyle = .auto ∧ c.RequiresConstantIn frame)) := by
  obtain ⟨-, hUnit⟩ := ofText_eq_ok h
  obtain ⟨c, hc, hName, hConfidence, -⟩ := exists_outcome_of_mem_plan hUnit hp
  have hAll := (ofUnit_eq_ok hUnit).2.1
  have hOutcome := (Survey.exists_outcome hAll hc).2
  obtain ⟨d, body, hDefinition, hBody, hIntegral⟩ :=
    hOutcome.isIntegralConstant_iff (Survey.valueHasKind_of_mem hAll hc) hConfidence
  refine ⟨c, hc, _, body, hName, hDefinition, hBody, ?_, hOutcome.enumHackCandidate_iff hConfidence⟩
  rw [Classification.ServesConstantUses, hIntegral, imp_iff_not_or]
  refine or_congr_left ?_
  simp

/-- The size of an array as an integer. -/
theorem servesConstantUses_size :
    ∃ a, ofText (.oneArray 16 18 19) {} (fun _ =>
      .error .notFound) "a.cpp" "#define N 4\nint a[N];\n" = .ok a
      ∧ ∃ p ∈ a.plan.proposals, ∃ c ∈ a.classifications, c.name = p.macroName
        ∧ (∃ w ∈ c.usages, w.requiresConstant = true) ∧ c.IsIntegralConstant := by
  refine Except.exists_of_passes (fun a => decide (a.plan.proposals ≠ []
      ∧ ∀ c ∈ a.classifications, (∃ w ∈ c.usages, w.requiresConstant = true)
        ∧ c.definition.all fun d => !d.definition.shape.isFunction
          && (Expr.parse d.definition.replacement).passes Expr.isIntegralLiteral))
    (by decide +kernel) fun a h hTest => ?_
  obtain ⟨hSome, hAll⟩ := of_decide_eq_true hTest
  obtain ⟨p, hp⟩ := List.exists_mem_of_ne_nil _ hSome
  obtain ⟨c, hc, d, body, hName, hDefinition, hBody, hServes, -⟩ := servesConstantUses_iff h hp
  obtain ⟨hRequires, hLiteral⟩ := hAll c hc
  rw [hDefinition, Option.all_some, hBody, Bool.and_eq_true] at hLiteral
  obtain ⟨hShape, hLiteral⟩ := hLiteral
  exact ⟨p, hp, c, hc, hName, hRequires,
    hServes.mpr (.inr ⟨by simpa using hShape, HasKind.of_isIntegralLiteral hLiteral⟩) hRequires⟩

/-- The size of an array as a call. -/
theorem not_servesConstantUses_call :
    ∃ a, ofText (.oneArray 27 29 33) {} (fun _ => .error .notFound) "a.cpp"
        "#define F(x) ((x) + 1)\nint a[F(2)];\n" = .ok a
      ∧ ∃ p ∈ a.plan.proposals, ∃ c ∈ a.classifications, c.name = p.macroName
      ∧ ¬ c.ServesConstantUses := by
  refine Except.exists_of_passes (fun a => decide (∃ p ∈ a.plan.proposals, ∃ c ∈ a.classifications,
      c.name = p.macroName ∧ c.pattern = .functionLikeMacro ∧ ∃ w ∈ c.usages,
      w.requiresConstant = true))
    (by decide +kernel) fun a h hTest => ?_
  obtain ⟨p, hp, c, hc, hName, hPattern, hRequires⟩ := of_decide_eq_true hTest
  refine ⟨p, hp, c, hc, hName, fun hServes => ?_⟩
  have hIntegral := (hServes hRequires).1
  simp [hPattern] at hIntegral

end Analysis

end Demacro
