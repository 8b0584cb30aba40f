import Demacro.Proofs.Classification.Dependencies
import Demacro.Proofs.Collisions

/-!
The places of the definitions that are replaced. No place is asked whether a declaration may start
there: a constant is declared wherever its definition stands, also among values and in the middle of
a statement.
-/

namespace Demacro

/-- A declaration may start behind the token. -/
def Token.admitsDeclaration (t : Token) : Bool :=
  t.isBoundary || t.isPunct ":"

theorem Token.not_isBoundary_of_equals {t : Token} (h : t.isPunct "=" = true) :
    t.isBoundary = false := by
  simp only [isPunct, Bool.and_eq_true, beq_iff_eq] at h
  simp only [isBoundary, isOpenBrace, isCloseBrace, isPunct, h.1, h.2]
  decide

/-- The brace opens a list of values: the enumerators of an enumeration, or the parts of an initial
value. -/
def OpenBrace.holdsValues (b : OpenBrace) : Bool :=
  (header b.before).any (isWordIn ["enum"]) || b.before.head?.any (·.isPunct "=")

namespace CompilationUnit

/-- The live code of a file in front of a directive in it, the nearest token first. -/
def codeBefore (u : CompilationUnit) (e : Event) : List PlacedToken :=
  (u.codeTokens.filter fun t =>
    t.reachability != .disabled && t.span.path == e.directive.span.path
      && t.position < e.position).reverse

/-- The directive stands where a declaration may start: nothing is left unfinished in front of it,
and it is in no list of values. -/
def StandsAtDeclaration (u : CompilationUnit) (e : Event) : Prop :=
  (u.codeBefore e).head?.all (·.admitsDeclaration) = true
    ∧ (OpenBrace.scan 0 (u.codeBefore e) []).head?.all (!·.holdsValues) = true

instance (u : CompilationUnit) (e : Event) : Decidable (u.StandsAtDeclaration e) :=
  inferInstanceAs (Decidable (_ ∧ _))

end CompilationUnit

/-- What a reader has in mind who goes through code from the front. -/
structure CodeReader where
  /-- For each open brace whether it holds values, the innermost first. -/
  braces : List Bool := []
  /-- The tokens behind the last brace or semicolon, the nearest first. -/
  unfinished : List PlacedToken := []

namespace CodeReader

/-- A brace that comes next would hold values. -/
def awaitsValues (r : CodeReader) : Bool :=
  r.unfinished.any (OpenBrace.isWordIn ["enum"]) || r.unfinished.head?.any (·.isPunct "=")

/-- Reads one token. -/
def read (r : CodeReader) (t : PlacedToken) : CodeReader :=
  if t.isCloseBrace then ⟨r.braces.tail, []⟩
  else if t.isOpenBrace then ⟨r.awaitsValues :: r.braces, []⟩
  else if t.isBoundary then ⟨r.braces, []⟩
  else ⟨r.braces, t :: r.unfinished⟩

/-- Reads code from the front. -/
def ofCode (code : List PlacedToken) : CodeReader :=
  code.foldl read {}

/-- A declaration may come next. -/
def IsReady (r : CodeReader) : Prop :=
  r.unfinished.head?.all (·.isPunct ":") = true ∧ r.braces.head?.all (!·) = true

instance (r : CodeReader) : Decidable r.IsReady :=
  inferInstanceAs (Decidable (_ ∧ _))

theorem ofCode_append (code : List PlacedToken) (t : PlacedToken) :
    ofCode (code ++ [t]) = (ofCode code).read t := by
  rw [ofCode, List.foldl_append]
  rfl

/-- What is unfinished is what a look back finds up to a brace or semicolon. -/
theorem unfinished_ofCode (before : List PlacedToken) :
    (ofCode before.reverse).unfinished = before.takeWhile (!·.isBoundary) := by
  induction before with
  | nil => rfl
  | cons t before ih =>
      rw [List.reverse_cons, ofCode_append, read, List.takeWhile_cons, ← ih]
      cases hClose : t.isCloseBrace <;> cases hOpen : t.isOpenBrace <;>
        cases hBoundary : t.isBoundary <;>
        simp_all [Token.isBoundary]

/-- A reader knows what a brace opens from what is in front of it. -/
theorem awaitsValues_ofCode (before after : List PlacedToken) (brace : PlacedToken) :
    (ofCode before.reverse).awaitsValues = OpenBrace.holdsValues ⟨before, brace, after⟩ := by
  have hEquals : (before.takeWhile (!·.isBoundary)).head?.any (·.isPunct "=")
      = before.head?.any (·.isPunct "=") := by
    rw [List.head?_takeWhile]
    cases before.head? with
    | none => rfl
    | some t =>
        cases hPunct : t.isPunct "=" <;> cases hBoundary : t.isBoundary <;>
          simp_all [Option.filter, Token.not_isBoundary_of_equals]
  rw [awaitsValues, unfinished_ofCode, hEquals, OpenBrace.holdsValues, OpenBrace.header,
    List.any_reverse]

/-- The braces that a look back finds without a partner are those that are open for who reads from
the front. -/
theorem map_scan (closed : Nat) (before after : List PlacedToken) :
    (OpenBrace.scan closed before after).map OpenBrace.holdsValues =
    (ofCode before.reverse).braces.drop closed := by
  induction before generalizing closed after with
  | nil => simp [OpenBrace.scan, ofCode]
  | cons t before ih =>
      rw [List.reverse_cons, ofCode_append, read, OpenBrace.scan.eq_def]
      dsimp only
      split
      · rw [ih, List.drop_tail]
      split
      · cases closed with
        | zero => rw [List.map_cons, ih, ← awaitsValues_ofCode, List.drop_zero, List.drop_zero]
        | succ n => rw [ih, List.drop_succ_cons]
      · rw [ih]
        split <;> rfl

end CodeReader

/-- Where a look back finds a place for a declaration, who reads from the front expects one. -/
theorem CompilationUnit.standsAtDeclaration_iff_isReady {u : CompilationUnit} {e : Event} :
    u.StandsAtDeclaration e ↔ (CodeReader.ofCode (u.codeBefore e).reverse).IsReady := by
  have hBraces := CodeReader.map_scan 0 (u.codeBefore e) []
  rw [List.drop_zero] at hBraces
  rw [StandsAtDeclaration, CodeReader.IsReady, CodeReader.unfinished_ofCode, ← hBraces,
    List.head?_map, List.head?_takeWhile, Option.all_map]
  refine and_congr_left' ?_
  cases (u.codeBefore e).head? with
  | none => exact Iff.rfl
  | some t => cases hBoundary : t.isBoundary <;> simp [Token.admitsDeclaration, Option.filter,
      hBoundary]

/-- What is declared at the place is local to a function. -/
def Context.IsLocal (c : Context) : Prop :=
  ∃ frame, c.scope? = some frame ∧ (frame.kind = .functionScope ∨ frame.kind = .blockScope)

/-- The replacement comes to a number, with no other macro in it and no operator that would have to
be grouped. -/
def Definition.isNumber (d : Definition) : Bool :=
  (Expr.parse d.replacement).passes fun body => body.isPrimary
    && (Constant.fold (some fun name => .error (.needs name)) body).passes fun v =>
      v.confidence == .high && v.constant.arithmeticType?.isSome && v.constant.isShort

theorem Definition.exists_of_isNumber {d : Definition} (h : d.isNumber = true) : ∃ body v t,
    Expr.parse d.replacement = .ok body ∧ body.isPrimary = true
      ∧ Constant.fold (some fun name => .error (.needs name)) body = .ok v ∧ v.confidence = .high
      ∧ v.constant.arithmeticType? = some t ∧ v.constant.isShort = true := by
  obtain ⟨body, hBody, hValue⟩ := Except.exists_of_passes _ h fun _ _ hTest => hTest
  obtain ⟨hPrimary, hValue⟩ := Bool.and_eq_true_iff.mp hValue
  obtain ⟨v, hFold, hTest⟩ := Except.exists_of_passes _ hValue fun _ _ hTest => hTest
  simp only [Bool.and_eq_true, beq_iff_eq] at hTest
  obtain ⟨⟨hHigh, hType⟩, hShort⟩ := hTest
  obtain ⟨t, hType⟩ := Option.isSome_iff_exists.mp hType
  exact ⟨body, v, t, hBody, hPrimary, hFold, hHigh, hType, hShort⟩

namespace Survey

/-- The macro is a number that stands outside of classes, and nothing that is known of its
definition and its uses speaks against a change. -/
structure IsPlain (s : Survey) (name : String) (d : ActiveSpan) : Prop where
  subject : s.subject name = .ok d
  shape : d.definition.shape.isFunction = false
  value : d.definition.isNumber = true
  outside : (s.scopes.contextOf d.definition).class? = none
  sites : ∀ f ∈ s.siteFindings name (s.record d), f.limit = .high
  visible : ∀ f ∈ (s.scopeFindings name (s.scopes.contextOf d.definition) (s.uses.usages name)
    false).1, f.limit = .high

variable {s : Survey} {name : String} {d : ActiveSpan}

/-- The classification is that of a constant that is declared where its definition stands. -/
structure IsSimple (s : Survey) (name : String) (d : ActiveSpan) (c : Classification) : Prop where
  name_eq : c.name = name
  pattern : c.pattern = .simpleConstant
  confidence : c.confidence = .high
  definition : c.definition = some (s.record d)
  payload : ∃ type initializer integral value,
    c.payload = some (.constant type initializer integral value)

theorem exists_constantPayload {v : Constant} {t : ArithmeticType} (h : v.arithmeticType? = some t)
    (initializer : Text) : ∃ type integral value remark,
      constantPayload initializer v = (.constant type initializer integral value,
        [.note remark]) := by
  cases v with
  | integral | floating => exact ⟨_, _, _, _, rfl⟩
  | string | pointer => cases h

theorem limit_of_mem_foldFindings {v : Folded} (h : v.confidence = .high) :
    ∀ f ∈ foldFindings v, f.limit = .high := by
  simp [foldFindings, h, Finding.note]

theorem IsPlain.isSimple_constantMacro (h : s.IsPlain name d) {body : Expr} {v : Folded}
    {t : ArithmeticType} (hPrimary : body.isPrimary = true) (hHigh : v.confidence = .high)
    (hType : v.constant.arithmeticType? = some t) :
    s.IsSimple name d (s.constantMacro name d body v []) := by
  obtain ⟨type, integral, value, remark, hPayload⟩ := exists_constantPayload hType d.definition.text
  have hPattern : ∀ usages, s.constantPattern (s.scopes.contextOf d.definition)
      (.constant type d.definition.text integral value) usages = (.simpleConstant, []) := by
    intro usages
    rw [constantPattern, h.outside]
    nofun
  have hGrouping : ∀ usages, Grouping.findings s.code body usages true = ([], []) :=
    fun usages => if_pos hPrimary
  constructor
  case name_eq => rfl
  case definition => rfl
  case pattern => simp only [constantMacro, hPayload, hPattern]
  case payload =>
    exact ⟨type, d.definition.text, integral, value, by simp only [constantMacro, hPayload]⟩
  case confidence =>
    simp only [constantMacro, hPayload, hPattern, hGrouping]
    refine Finding.confidence_eq_high fun f hf => ?_
    simp only [List.mem_append, List.flatMap_nil, List.not_mem_nil, or_false,
      List.mem_singleton] at hf
    rcases hf with ((hf | hf) | hf) | rfl
    · exact limit_of_mem_foldFindings hHigh f hf
    · exact h.sites f hf
    · exact h.visible f hf
    · rfl

/-- A plain constant is classified without a look at any other macro. -/
theorem IsPlain.exists_isSimple (h : s.IsPlain name d) :
    ∃ c, s.IsSimple name d c ∧ ∀ ask, s.classifyNew ask name = pure c := by
  obtain ⟨body, v, t, hBody, hPrimary, hFold, hHigh, hType, hShort⟩ :=
    Definition.exists_of_isNumber h.value
  refine ⟨s.constantMacro name d body v [], h.isSimple_constantMacro hPrimary hHigh hType,
    fun ask => ?_⟩
  have hComma : body.isComma = false := by
    cases body with
    | comma => cases hPrimary
    | _ => rfl
  have hFolded : s.foldAsking ask body (body.nodes.length + 1) [] = pure (.ok (v, [])) := by
    have hKnown : Constant.fold (some (answered [])) body = .ok v := hFold
    rw [foldAsking, hKnown]
    rfl
  rw [classifyNew, h.subject]
  dsimp only
  rw [h.shape, if_neg Bool.false_ne_true, classifyObject, hBody]
  dsimp only
  rw [hComma, if_neg Bool.false_ne_true, hFolded, pure_bind]
  dsimp only
  rw [List.mapM_nil, pure_bind, if_pos hShort]

/-- A macro with arguments that is defined in a function must stay as it is. -/
theorem functionInFunction_mem_scopeFindings (s : Survey) (name : String) {home : Context}
    (hLocal : home.IsLocal) (usages : List Usage) :
    .blocker .functionInFunction ∈ (s.scopeFindings name home usages true).1 := by
  obtain ⟨frame, hScope, hKind⟩ := hLocal
  rw [scopeFindings, hScope]
  rcases hKind with hKind | hKind <;> simp [hKind]

/-- No function is declared in another one. -/
theorem Outcome.not_isLocal_of_functionLikeMacro {c : Classification} (h : s.Outcome name c)
    (hConfidence : c.confidence ≠ .blocked) (hSubject : s.subject name = .ok d)
    (hPattern : c.pattern = .functionLikeMacro) : ¬ (s.scopes.contextOf d.definition).IsLocal := by
  intro hLocal
  cases h with
  | unsuitable | rejected => exact hConfidence rfl
  | constant =>
      have hConstant := hPattern ▸ pattern_constantMacro _ _
      exact absurd hConstant (by decide)
  | function hOther =>
      cases hSubject.symm.trans hOther
      refine hConfidence (Finding.confidence_eq_blocked_iff.mpr ⟨.blocker .functionInFunction,
        ?_, rfl⟩)
      have hMem := s.functionInFunction_mem_scopeFindings name hLocal (s.uses.usages name)
      simp only [List.mem_append]
      tauto

end Survey

namespace Proposal

/-- The proposal puts its declaration in the place of the directive. -/
def Replaces (p : Proposal) (e : Event) : Prop :=
  ∃ x ∈ p.edits, x.kind = .replace ∧ x.toExtent = extentOf e.directive.span
    ∧ p.declaration = some x.text

instance (p : Proposal) (e : Event) : Decidable (p.Replaces e) :=
  inferInstanceAs (Decidable (∃ x ∈ p.edits, _))

variable {s : Survey} {name : String} {d : ActiveSpan} {c : Classification}

theorem replaces_ofDeclaration {id : String} {declaration : Declaration} {e : Event}
    (h : e.directive = .define d.definition) :
    (ofDeclaration id c (s.record d) declaration).Replaces e :=
  ⟨_, List.mem_cons_self, rfl, by rw [h]; rfl, rfl⟩

/-- A constant that is declared where its definition stands gets a proposal, whatever tier is asked
for. -/
theorem exists_of_isSimple (h : s.IsSimple name d c) (settings : Settings)
    (identifiers : List String) :
    ∃ p, ofClassification? settings identifiers c = some p
    ∧ EditPlan.refusal? settings.minimumTier p = none
      ∧ p.macroName = name ∧ ∀ e : Event, e.directive = .define d.definition → p.Replaces e := by
  obtain ⟨type, initializer, integral, value, hPayload⟩ := h.payload
  obtain ⟨declaration, hDeclared, hLimit⟩ :
      ∃ declaration, Declaration.ofSimple c.name c.payload = .ok declaration
      ∧ declaration.limit = .high := by
    rw [hPayload]
    exact ⟨_, rfl, rfl⟩
  refine ⟨ofDeclaration (idOf c (s.record d)) c (s.record d) declaration, ?_, ?_, h.name_eq,
    fun e => replaces_ofDeclaration⟩
  · simp [ofClassification?, h.definition, Classification.isClassified, h.pattern, h.confidence,
      Declaration.ofClassification, hDeclared]
  · cases hMinimum : settings.minimumTier <;>
      simp [EditPlan.refusal?, ofDeclaration, h.confidence, hLimit, SafetyTier.ofConfidence,
        SafetyTier.lower, SafetyTier.rank]

end Proposal

namespace Analysis

variable {parse : List UInt8 → SyntaxNode} {settings : Settings}
  {load : String → Except AccessFault (List UInt8)} {path : String} {text : Text} {a : Analysis}
  {p : Proposal}

theorem mem_plan_or_involved (hUnit : ofUnit parse settings a.unit = .ok a)
    (hp : p ∈ EditPlan.admitted settings.minimumTier a.proposals) :
    p ∈ a.plan.proposals ∨ p.id ∈ EditPlan.involved a.plan.conflicts := by
  rw [(ofUnit_eq_ok hUnit).2.2.2]
  by_cases hInvolved : p.id ∈ EditPlan.involved (EditPlan.assemble
      (EditPlan.admitted settings.minimumTier a.proposals) [] []).conflicts
  · exact .inr hInvolved
  · exact .inl (EditPlan.mem_proposals_assemble hp
      (EditPlan.mem_emitted_assemble.mpr ⟨List.mem_map_of_mem hp, hInvolved⟩))

/-- A proposal in the plan replaces a definition, and a declaration may start in its place exactly
if who reads the live code of the file up to it expects one. But nothing asks for that: every plain
constant is replaced where it is defined, unless its edits are in a conflict. All that is seen of a
place is its scope, so that no function is declared in another one. -/
theorem standsAtDeclaration_iff_of_replaces (h : ofText parse settings load path text = .ok a) :
    (∀ p ∈ a.plan.proposals, ∃ d, ∃ e ∈ a.unit.events, e.directive = .define d ∧ p.Replaces e
      ∧ (a.unit.StandsAtDeclaration e ↔ (CodeReader.ofCode (a.unit.codeBefore e).reverse).IsReady)
      ∧ (p.pattern = .functionLikeMacro → ¬ ((UnitScopes.ofUnit parse a.unit).contextOf d).IsLocal))
    ∧ ∀ name d, (Survey.ofUnit parse settings a.unit).IsPlain name d → ∃ p, p.macroName = name
      ∧ (p ∈ a.plan.proposals ∨ p.id ∈ EditPlan.involved a.plan.conflicts)
      ∧ ∃ e ∈ a.unit.events, e.directive = .define d.definition ∧ e.position = d.position
      ∧ p.Replaces e := by
  obtain ⟨-, hUnit⟩ := ofText_eq_ok h
  have hAll := (ofUnit_eq_ok hUnit).2.1
  constructor
  · intro p hp
    obtain ⟨c, hc, d, declaration, hSubject, -, hConfidence, -, rfl⟩ :=
      exists_classification_of_mem_plan hUnit hp
    obtain ⟨-, e, he, hDefine, -⟩ := Survey.exists_event_of_subject hSubject
    exact ⟨d.definition, e, he, hDefine, Proposal.replaces_ofDeclaration hDefine,
      CompilationUnit.standsAtDeclaration_iff_isReady,
      (Survey.exists_outcome hAll hc).2.not_isLocal_of_functionLikeMacro hConfidence hSubject⟩
  · intro name d hPlain
    obtain ⟨c, hSimple, hPure⟩ := hPlain.exists_isSimple
    have hs := Survey.namesDefinitions_ofUnit parse settings a.unit
    have hc := Survey.mem_of_classifyNew_eq_pure hs hAll (hs name d hPlain.subject) hPure
    obtain ⟨p, hProposal, hRefusal, hName, hReplaces⟩ :=
      Proposal.exists_of_isSimple hSimple settings (Proposal.identifiersOf a.unit)
    have hMem : p ∈ a.proposals := by
      rw [(ofUnit_eq_ok hUnit).2.2.1]
      exact List.mem_filterMap.mpr ⟨c, hc, hProposal⟩
    obtain ⟨-, e, he, hDefine, hPosition⟩ := Survey.exists_event_of_subject hPlain.subject
    have hAdmitted : p ∈ EditPlan.admitted settings.minimumTier a.proposals :=
      List.mem_filter.mpr ⟨hMem, Option.isNone_iff_eq_none.mpr hRefusal⟩
    exact ⟨p, hName, mem_plan_or_involved hUnit hAdmitted, e, he, hDefine, hPosition,
      hReplaces e hDefine⟩

/-- A plain constant behind a declaration is replaced, and stands where a declaration may start. -/
theorem standsAtDeclaration_behind :
    ∃ a, ofText .scopeless {} (fun _ => .error .notFound) "unit.cpp"
      "int a;\n#define N 1\nint b = N;\n" = .ok a
      ∧ (∃ d, (Survey.ofUnit .scopeless {} a.unit).IsPlain "N" d)
      ∧ ∃ p ∈ a.plan.proposals, p.macroName = "N"
        ∧ ∃ e ∈ a.unit.events, p.Replaces e ∧ a.unit.StandsAtDeclaration e := by
  refine Except.exists_of_passes (fun a =>
    let s := Survey.ofUnit .scopeless {} a.unit
    ((s.subject "N").passes fun d => !d.definition.shape.isFunction && d.definition.isNumber
      && decide ((s.scopes.contextOf d.definition).class? = none)
      && decide (∀ f ∈ s.siteFindings "N" (s.record d), f.limit = .high)
      && decide (∀ f ∈ (s.scopeFindings "N" (s.scopes.contextOf d.definition)
        (s.uses.usages "N") false).1, f.limit = .high))
    && decide (a.plan.conflicts = [])
    && decide (∀ e ∈ a.unit.events, (CodeReader.ofCode (a.unit.codeBefore e).reverse).IsReady))
    (by decide +kernel) fun a h hTest => ?_
  simp only [Bool.and_eq_true, decide_eq_true_eq] at hTest
  obtain ⟨⟨hPlain, hConflicts⟩, hReady⟩ := hTest
  obtain ⟨d, hSubject, hPlain⟩ := Except.exists_of_passes _ hPlain fun _ _ hTest => hTest
  simp only [Bool.and_eq_true, Bool.not_eq_true', decide_eq_true_eq] at hPlain
  obtain ⟨⟨⟨⟨hShape, hValue⟩, hOutside⟩, hSites⟩, hVisible⟩ := hPlain
  have hIsPlain : (Survey.ofUnit .scopeless {} a.unit).IsPlain "N" d :=
    ⟨hSubject, hShape, hValue, hOutside, hSites, hVisible⟩
  obtain ⟨hPlaces, hEmitted⟩ := standsAtDeclaration_iff_of_replaces h
  obtain ⟨p, hName, hp, -⟩ := hEmitted "N" d hIsPlain
  have hp : p ∈ a.plan.proposals :=
    hp.resolve_right (by simp [hConflicts, EditPlan.involved, EditPlan.partners])
  obtain ⟨-, e, he, -, hReplaces, hStands, -⟩ := hPlaces p hp
  exact ⟨⟨d, hIsPlain⟩, p, hp, hName, e, he, hReplaces, hStands.mpr (hReady e he)⟩

/-- A constant among the enumerators that it gives a value to. -/
theorem not_standsAtDeclaration_enumerators :
    ∃ a, ofText .scopeless {} (fun _ => .error .notFound) "unit.cpp"
        "enum E \x7b\n#define A 1\n  X = A\n\x7d;\n" = .ok a
      ∧ ∃ p ∈ a.plan.proposals, ∃ e ∈ a.unit.events, p.Replaces e
      ∧ ¬ a.unit.StandsAtDeclaration e :=
  Except.exists_of_passes
    (fun a => decide (∃ p ∈ a.plan.proposals, ∃ e ∈ a.unit.events, p.Replaces e
    ∧ ¬ a.unit.StandsAtDeclaration e)) (by decide +kernel) fun _ _ => of_decide_eq_true

end Analysis

end Demacro
