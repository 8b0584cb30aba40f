import Demacro.Proofs.Classification.Findings
import Demacro.Proofs.MacroTable
import Demacro.Proofs.Proposal

/-!
The analysis of a unit taken apart: where its classifications, its proposals and its plan come from,
and what a proposal in the plan rests on.
-/

namespace Demacro

namespace EditPlan

variable {proposals : List Proposal} {leftovers : List Leftover} {minimum : SafetyTier}
  {warnings : List ReportEntry} {p : Proposal}

theorem mem_assemble {candidates : List Proposal} {report : List ReportEntry}
    {known : List Conflict} (h : p ∈ (assemble candidates report known).proposals) :
    p ∈ candidates :=
  (List.mem_filter.mp h).1

/-- The report has no say in what is in a plan. -/
theorem build_proposals : (build proposals leftovers minimum warnings).proposals =
    (assemble (proposals.filter fun p => (refusal? minimum p).isNone) [] []).proposals :=
  rfl

/-- A proposal in the plan of a unit is one of its proposals, and nothing speaks against it. -/
theorem mem_build (h : p ∈ (build proposals leftovers minimum warnings).proposals) :
    p ∈ proposals ∧ refusal? minimum p = none := by
  rw [build_proposals] at h
  simpa using List.mem_filter.mp (mem_assemble h)

theorem edits_ne_nil_of_refusal? (h : refusal? minimum p = none) : p.edits ≠ [] := by
  intro hEdits
  simp [refusal?, hEdits] at h

end EditPlan

namespace Survey

variable {parse : List UInt8 → SyntaxNode} {settings : Settings} {u : CompilationUnit}
  {d : ActiveSpan}

/-- A macro is classified by a definition in a directive about its name. -/
theorem exists_event_of_subject {name : String}
    (h : (ofUnit parse settings u).subject name = .ok d) : d.definition.name = name
      ∧ ∃ e ∈ u.events, e.directive = .define d.definition ∧ e.position = d.position := by
  obtain ⟨hSpan, hName⟩ := name_of_mem_definitions (mem_definitions_of_subject h).1
  obtain ⟨e, he, hDefine, hPosition, -⟩ := MacroTable.exists_event_of_span hSpan
  exact ⟨hName, e, he, hDefine, hPosition⟩

/-- The record of a definition holds all directives about its name. -/
theorem mem_events_record {e : Event} : e ∈ ((ofUnit parse settings u).record d).events ↔
    e ∈ u.events ∧ e.directive.name = d.definition.name := by
  simp only [record, MacroTable.mem_history, ofUnit, MacroTable.ofEvents_events]

end Survey

/-- What a proposal with edits rests on: a macro that may be changed, its first live definition, and
the declaration that takes the place of that. -/
structure Proposal.IsMadeFor (settings : Settings) (s : Survey) (u : CompilationUnit) (p : Proposal)
    (c : Classification) (d : ActiveSpan) (declaration : Declaration) : Prop where
  subject : s.subject c.name = .ok d
  definition : c.definition = some (s.record d)
  confidence : c.confidence ≠ .blocked
  declared : Declaration.ofClassification settings (identifiersOf u) (idOf c (s.record d))
    d.definition.span.path c
    = .ok declaration
  eq : p = ofDeclaration (idOf c (s.record d)) c (s.record d) declaration

namespace Analysis

variable {parse : List UInt8 → SyntaxNode} {settings : Settings} {u : CompilationUnit}
  {a : Analysis}

theorem ofUnit_eq_ok (h : ofUnit parse settings u = .ok a) :
    a.unit = u ∧ (Survey.ofUnit parse settings u).classifyAll = .ok a.classifications
      ∧ a.proposals = Proposal.ofUnit settings u a.classifications
      ∧ a.plan = EditPlan.build a.proposals (a.classifications.filterMap leftover?)
          settings.minimumTier (repetitionWarnings (Survey.ofUnit parse settings u).table) := by
  obtain ⟨classifications, hClassifications, h⟩ := Except.bind_eq_ok_iff.mp h
  cases h
  exact ⟨rfl, hClassifications, rfl, rfl⟩

/-- The analysis of a text is that of the unit that the text was read as. -/
theorem ofText_eq_ok {load : String → Except AccessFault (List UInt8)} {path : String} {text : Text}
    (h : ofText parse settings load path text = .ok a) :
    CompilationUnit.read path text (search? settings load) = .ok a.unit
      ∧ ofUnit parse settings a.unit = .ok a := by
  obtain ⟨unit, hUnit, h⟩ := Except.bind_eq_ok_iff.mp h
  rw [Except.mapError_eq_ok_iff] at hUnit h
  obtain rfl := (ofUnit_eq_ok h).1
  exact ⟨hUnit, h⟩

theorem mem_proposals (h : ofUnit parse settings u = .ok a) {p : Proposal} (hp : p ∈ a.proposals) :
    ∃ c ∈ a.classifications,
      Proposal.ofClassification? settings (Proposal.identifiersOf u) c = some p := by
  rw [(ofUnit_eq_ok h).2.2.1] at hp
  exact List.mem_filterMap.mp hp

/-- A macro whose proposal has edits is what the proposal is made for. -/
theorem exists_isMadeFor (h : ofUnit parse settings u = .ok a) {c : Classification}
    (hc : c ∈ a.classifications) {p : Proposal}
    (hProposal : Proposal.ofClassification? settings (Proposal.identifiersOf u) c = some p)
    (hEdits : p.edits ≠ []) :
    ∃ d declaration, p.IsMadeFor settings (Survey.ofUnit parse settings u) u c d declaration := by
  obtain ⟨record, declaration, hDefinition, hConfidence, hDeclaration, hEq⟩ :=
    Proposal.ofClassification?_eq_some hProposal hEdits
  obtain ⟨d, hSubject, hRecord, -⟩ :=
    (Survey.exists_outcome (ofUnit_eq_ok h).2.1 hc).2.of_ne_blocked hConfidence
  obtain rfl := Option.some.inj (hRecord.symm.trans hDefinition)
  exact ⟨d, declaration, hSubject, hRecord, hConfidence, hDeclaration, hEq⟩

/-- A proposal with edits is made for a macro of the unit. -/
theorem exists_classification_of_mem_proposals (h : ofUnit parse settings u = .ok a) {p : Proposal}
    (hp : p ∈ a.proposals) (hEdits : p.edits ≠ []) :
    ∃ c ∈ a.classifications, ∃ d declaration,
      p.IsMadeFor settings (Survey.ofUnit parse settings u) u c d declaration := by
  obtain ⟨c, hc, hProposal⟩ := mem_proposals h hp
  exact ⟨c, hc, exists_isMadeFor h hc hProposal hEdits⟩

/-- A proposal in the plan is made for a macro of the unit. -/
theorem exists_classification_of_mem_plan (h : ofUnit parse settings u = .ok a) {p : Proposal}
    (hp : p ∈ a.plan.proposals) :
    ∃ c ∈ a.classifications, ∃ d declaration,
      p.IsMadeFor settings (Survey.ofUnit parse settings u) u c d declaration := by
  rw [(ofUnit_eq_ok h).2.2.2] at hp
  obtain ⟨hMem, hRefusal⟩ := EditPlan.mem_build hp
  exact exists_classification_of_mem_proposals h hMem (EditPlan.edits_ne_nil_of_refusal? hRefusal)

/-- A macro of a unit has a definition in it. -/
theorem mem_names_of_mem_classifications (h : ofUnit parse settings u = .ok a) {c : Classification}
    (hc : c ∈ a.classifications) : c.name ∈ (MacroTable.ofEvents u.events).names :=
  (Survey.exists_outcome (ofUnit_eq_ok h).2.1 hc).1

/-- The macro of a proposal in the plan has an outcome that leaves room for a change. -/
theorem exists_outcome_of_mem_plan (h : ofUnit parse settings u = .ok a) {p : Proposal}
    (hp : p ∈ a.plan.proposals) :
    ∃ c ∈ a.classifications, c.name = p.macroName ∧ c.confidence ≠ .blocked
      ∧ (Survey.ofUnit parse settings u).Outcome p.macroName c := by
  obtain ⟨c, hc, d, declaration, -, -, hConfidence, -, rfl⟩ :=
    exists_classification_of_mem_plan h hp
  exact ⟨c, hc, rfl, hConfidence, (Survey.exists_outcome (ofUnit_eq_ok h).2.1 hc).2⟩

end Analysis

/-- The tree of a file that holds no scopes, as far as scopes are looked for in it. -/
def SyntaxNode.scopeless (bytes : List UInt8) : SyntaxNode :=
  ⟨"translation_unit", 0, bytes.length, none, false, []⟩

end Demacro
