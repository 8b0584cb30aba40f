import Demacro.Analysis

/-!
What a proposal says. One with edits was made from a declaration for a macro that may be changed,
and all of its edits carry its own identifier.
-/

namespace Demacro

namespace Declaration

variable {settings : Settings} {identifiers : List String} {id path : String} {c : Classification}
  {d : Declaration}

private theorem ofSimple_outside {name : String} {payload : Option Payload}
    (h : ofSimple name payload = .ok d) : d.outside = none := by
  unfold ofSimple at h
  split at h
  · cases h; rfl
  · cases h

private theorem ofPointer_outside {name : String} {payload : Option Payload}
    (h : ofPointer settings name payload = .ok d) : d.outside = none := by
  unfold ofPointer at h
  repeat' split at h
  all_goals cases h
  all_goals rfl

private theorem ofEnumerator_outside {name : String} {payload : Option Payload}
    (h : ofEnumerator name payload = .ok d) : d.outside = none := by
  unfold ofEnumerator at h
  repeat' split at h
  all_goals cases h
  all_goals rfl

private theorem ofFunction_outside {name : String} {notes : List String} {context : Option Context}
    {payload : Option Payload} (h : ofFunction name notes context payload = .ok d) :
    d.outside = none := by
  unfold ofFunction at h
  split at h
  · cases h; rfl
  · cases h

private theorem outsideDefinition_eq_ok {name type : String} {context : Context}
    {initializer : Text} {e : Edit} {note : String} {limit : SafetyTier}
    (h : outsideDefinition settings id name path context type initializer = .ok (e, note, limit)) :
    e.proposal = id ∧ e.kind ≠ .delete := by
  unfold outsideDefinition at h
  dsimp only at h
  split at h
  · cases h
  split at h
  · cases h
  split at h
  · rw [Except.ok.injEq, Prod.mk.injEq] at h
    simp [← h.1]
  split at h
  · cases h
  · rw [Except.ok.injEq, Prod.mk.injEq] at h
    simp [← h.1]

private theorem ofMember_outside {name : String} {context : Option Context}
    {payload : Option Payload} (h : ofMember settings id name path context payload = .ok d) :
    ∀ e ∈ d.outside, e.proposal = id ∧ e.kind ≠ .delete := by
  unfold ofMember at h
  split at h
  · cases h
  dsimp only at h
  split at h
  · cases h
    simp
  split at h
  · cases h
  split at h
  · cases h
  rename_i hOutside
  cases h
  simpa using outsideDefinition_eq_ok hOutside

/-- A definition outside of a class belongs to the proposal that it is made for and deletes
nothing. -/
theorem of_mem_outside (h : ofClassification settings identifiers id path c = .ok d) :
    ∀ e ∈ d.outside, e.proposal = id ∧ e.kind ≠ .delete := by
  unfold ofClassification at h
  split at h
  · simp [ofSimple_outside h]
  · simp [ofPointer_outside h]
  · exact ofMember_outside h
  · simp [ofEnumerator_outside h]
  · split at h
    · cases h
    · simp [ofFunction_outside h]
  · cases h

/-- A definition outside of a class goes to the companion file, or stands behind the outermost
class. -/
private theorem outsideDefinition_place {name type : String} {context : Context}
    {initializer : Text} {e : Edit} {note : String} {limit : SafetyTier}
    (h : outsideDefinition settings id name path context type initializer = .ok (e, note, limit)) :
    e.isAppend = true ∧ isHeader path = true ∧ e.path = Path.withoutSuffix path
    ++ settings.companionSuffix
      ∨ e.isAppend = false ∧ isHeader path = false ∧ ∃ frame stop,
        (context.frames.filter (·.kind == .classScope)).head? = some frame
        ∧ frame.statementEnd? = some stop ∧ e.toExtent = ⟨frame.path, stop, stop⟩ := by
  unfold outsideDefinition at h
  dsimp only at h
  split at h
  · cases h
  rename_i outermost others hClasses
  split at h
  · cases h
  split at h
  · rename_i hHeader
    rw [Except.ok.injEq, Prod.mk.injEq] at h
    exact .inl (by simp [← h.1, Edit.isAppend, hHeader])
  rename_i hHeader
  split at h
  · cases h
  · rename_i stop hStop
    rw [Except.ok.injEq, Prod.mk.injEq] at h
    refine .inr ⟨by simp [← h.1,
      Edit.isAppend], by simpa using hHeader, outermost, stop, ?_, hStop, by rw [← h.1]⟩
    rw [hClasses]
    rfl

/-- A definition outside of a class is that of a class constant that the class cannot initialize
itself. It goes to the companion file, or stands behind the outermost class. -/
theorem of_outside_eq_some {e : Edit} (h : ofClassification settings identifiers id path c = .ok d)
    (hOutside : d.outside = some e) :
    c.pattern = .classScopedConstant
      ∧ (∀ type initializer value, c.payload ≠ some (.constant type initializer true value))
      ∧ (e.isAppend = true ∧ isHeader path = true ∧ e.path = Path.withoutSuffix path
        ++ settings.companionSuffix
        ∨ e.isAppend = false ∧ isHeader path = false
        ∧ ∃ context frame stop, c.context = some context
          ∧ (context.frames.filter (·.kind == .classScope)).head? = some frame
          ∧ frame.statementEnd? = some stop ∧ e.toExtent = ⟨frame.path, stop, stop⟩) := by
  unfold ofClassification at h
  split at h
  · simp [ofSimple_outside h] at hOutside
  · simp [ofPointer_outside h] at hOutside
  · rename_i hPattern
    unfold ofMember at h
    split at h
    · cases h
    rename_i context frame hContext
    obtain ⟨_, hSome, hFrame⟩ := Option.bind_eq_some_iff.mp hContext
    obtain ⟨_, -, hEq⟩ := Option.map_eq_some_iff.mp hFrame
    cases hEq
    dsimp only at h
    split at h
    · cases h
      cases hOutside
    rename_i hIntegral
    split at h
    · cases h
    split at h
    · cases h
    rename_i hPlaced
    cases h
    cases hOutside
    rcases outsideDefinition_place hPlaced with hAppend | ⟨hKind, hHeader, outermost, stop, hPlace⟩
    · exact ⟨hPattern, hIntegral, .inl hAppend⟩
    · exact ⟨hPattern, hIntegral, .inr ⟨hKind, hHeader, context, outermost, stop, hSome, hPlace⟩⟩
  · simp [ofEnumerator_outside h] at hOutside
  · split at h
    · cases h
    · simp [ofFunction_outside h] at hOutside
  · cases h

/-- A function has the name that the settings give it. A new name is not in use, and no macro refers
to the old one. -/
theorem functionName_eq_ok {name newName : String} {referencedBy notes : List String}
    (h : functionName settings identifiers name referencedBy = .ok (newName, notes)) :
    newName = (if settings.functionNaming = .camelCase then camelCase name else name)
      ∧ (newName ≠ name → newName ∉ identifiers ∧ referencedBy = []) := by
  unfold functionName at h
  generalize (if settings.functionNaming = .camelCase then camelCase name else name)
    = renamed at h ⊢
  dsimp only at h
  split at h
  · rename_i hSame
    cases h
    exact ⟨hSame.symm, fun hNew => absurd rfl hNew⟩
  split at h
  · cases h
  rename_i hUnused
  split at h
  · cases h
  rename_i hNone
  cases h
  exact ⟨rfl, fun _ => ⟨by simpa using hUnused, by simpa using hNone⟩⟩

/-- A declaration has the name of its macro, unless it is a function that is renamed. -/
theorem name_of_ofClassification (h : ofClassification settings identifiers id path c = .ok d) :
    d.name = (if c.pattern = .functionLikeMacro ∧ settings.functionNaming = .camelCase
      then camelCase c.name else c.name)
      ∧ (d.name ≠ c.name → d.name ∉ identifiers ∧ c.referencedBy = []) := by
  unfold ofClassification at h
  cases hPattern : c.pattern with
  | simpleConstant =>
      rw [hPattern] at h
      unfold ofSimple at h
      dsimp only at h
      split at h <;> cases h
      simp
  | pointerConstant =>
      rw [hPattern] at h
      unfold ofPointer at h
      dsimp only at h
      repeat' split at h
      all_goals cases h
      all_goals simp
  | classScopedConstant =>
      rw [hPattern] at h
      unfold ofMember at h
      dsimp only at h
      repeat' split at h
      all_goals cases h
      all_goals simp
  | enumHackCandidate =>
      rw [hPattern] at h
      unfold ofEnumerator at h
      dsimp only at h
      repeat' split at h
      all_goals cases h
      all_goals simp
  | functionLikeMacro =>
      rw [hPattern] at h
      dsimp only at h
      split at h
      · cases h
      rename_i newName notes hNew
      have hName : d.name = newName := by
        unfold ofFunction at h
        split at h
        · cases h
          rfl
        · cases h
      rw [hName]
      simpa using functionName_eq_ok hNew
  | unclassified =>
      rw [hPattern] at h
      cases h

end Declaration

namespace Proposal

variable {settings : Settings} {identifiers : List String} {c : Classification} {p : Proposal}

/-- A proposal is made for a macro that follows a pattern and has a definition. -/
theorem of_ofClassification? (h : ofClassification? settings identifiers c = some p) :
    c.isClassified = true ∧ p.macroName = c.name ∧ ∃ d, c.definition = some d
    ∧ p.id = idOf c d := by
  unfold ofClassification? at h
  split at h
  · cases h
  rename_i d hDefinition
  split at h
  · cases h
  rename_i hClassified
  dsimp only at h
  rw [Bool.not_eq_true', Bool.not_eq_false] at hClassified
  split at h
  · cases h
    exact ⟨hClassified, rfl, d, hDefinition, rfl⟩
  split at h <;> cases h <;> exact ⟨hClassified, rfl, d, hDefinition, rfl⟩

/-- A macro that gets a proposal with edits follows a pattern, may be changed, and has a
declaration. -/
theorem ofClassification?_eq_some (h : ofClassification? settings identifiers c = some p)
    (hEdits : p.edits ≠ []) :
    ∃ d declaration, c.definition = some d ∧ c.confidence ≠ .blocked
      ∧ Declaration.ofClassification settings identifiers (idOf c d) d.definition.span.path c
          = .ok declaration
      ∧ p = ofDeclaration (idOf c d) c d declaration := by
  unfold ofClassification? at h
  split at h
  · cases h
  rename_i d hDefinition
  split at h
  · cases h
  dsimp only at h
  split at h
  · cases h
    exact absurd rfl hEdits
  rename_i hConfidence
  split at h
  · cases h
    exact absurd rfl hEdits
  rename_i declaration hDeclaration
  cases h
  exact ⟨d, declaration, hDefinition, hConfidence, hDeclaration, rfl⟩

/-- All edits of a proposal carry its identifier. -/
theorem proposal_of_mem_edits (h : ofClassification? settings identifiers c = some p) {e : Edit}
    (he : e ∈ p.edits) : e.proposal = p.id := by
  obtain ⟨d, declaration, -, -, hDeclaration, rfl⟩ :=
    ofClassification?_eq_some h (List.ne_nil_of_mem he)
  simp only [ofDeclaration, List.mem_cons, List.mem_append, Option.mem_toList] at he
  rcases he with rfl | (hOutside | hDeleted) | hUsage
  · rfl
  · exact (Declaration.of_mem_outside hDeclaration e hOutside).1
  · obtain ⟨event, -, rfl⟩ := List.mem_map.mp hDeleted
    rfl
  · obtain ⟨usage, -, rfl⟩ := List.mem_map.mp hUsage
    rfl

end Proposal

end Demacro
