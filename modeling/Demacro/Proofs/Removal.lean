import Demacro.Proofs.Analysis
import Demacro.Proofs.InForce

/-!
The directives that a proposal removes. They are those of its macro that have an effect, each place
once, whatever they did to the definition: an `#undef` goes also where nothing was defined.
-/

namespace Demacro

/-- The place of a directive in the files of a unit. -/
def Event.site (e : Event) : String × Nat :=
  (e.directive.span.path, e.directive.span.start)

/-- The edit deletes the text of the directive. -/
def Edit.Removes (x : Edit) (e : Event) : Prop :=
  x.kind = .delete ∧ x.toExtent = Proposal.extentOf e.directive.span

instance (x : Edit) (e : Event) : Decidable (x.Removes e) :=
  inferInstanceAs (Decidable (_ ∧ _))

namespace Proposal

variable {settings : Settings} {identifiers : List String} {id : String} {c : Classification}
  {d : DefinitionRecord} {declaration : Declaration} {x : Edit} {e : Event} {es : List Event}
  {seen : List (String × Nat)}

theorem otherSites_cons : otherSites seen (e :: es) =
    if e.site ∈ seen then otherSites seen es else e :: otherSites (e.site :: seen) es := by
  by_cases hSeen : e.site ∈ seen
  · rw [if_pos hSeen]
    exact if_pos (List.contains_iff_mem.mpr hSeen)
  · rw [if_neg hSeen]
    exact if_neg fun hContains => hSeen (List.contains_iff_mem.mp hContains)

theorem mem_of_mem_otherSites (h : e ∈ otherSites seen es) : e ∈ es := by
  induction es generalizing seen with
  | nil => cases h
  | cons o es ih =>
      rw [otherSites_cons] at h
      split at h
      · exact List.mem_cons_of_mem o (ih h)
      · rcases List.mem_cons.mp h with rfl | h
        · exact List.mem_cons_self
        · exact List.mem_cons_of_mem o (ih h)

/-- No place that was seen is kept. -/
theorem site_notMem_of_mem_otherSites (h : e ∈ otherSites seen es) : e.site ∉ seen := by
  induction es generalizing seen with
  | nil => cases h
  | cons o es ih =>
      rw [otherSites_cons] at h
      split at h
      · exact ih h
      · rename_i hNew
        rcases List.mem_cons.mp h with rfl | h
        · exact hNew
        · exact fun hSeen => ih h (List.mem_cons_of_mem _ hSeen)

/-- Every place that was not seen is kept. -/
theorem exists_mem_otherSites (he : e ∈ es) (hSeen : e.site ∉ seen) :
    ∃ o ∈ otherSites seen es, o.site = e.site := by
  induction es generalizing seen with
  | nil => cases he
  | cons o es ih =>
      rw [otherSites_cons]
      rcases List.mem_cons.mp he with rfl | he
      · rw [if_neg hSeen]
        exact ⟨e, List.mem_cons_self, rfl⟩
      split
      · exact ih he hSeen
      · by_cases hSite : o.site = e.site
        · exact ⟨o, List.mem_cons_self, hSite⟩
        · have hLater : e.site ∉ o.site :: seen := by
            simp [hSeen, Ne.symm hSite]
          obtain ⟨x, hx, hSame⟩ := ih he hLater
          exact ⟨x, List.mem_cons_of_mem o hx, hSame⟩

/-- What is kept is the first directive at each place that was not seen. -/
theorem mem_otherSites_iff (h : es.Pairwise (·.position < ·.position)) : e ∈ otherSites seen es ↔
    e ∈ es ∧ e.site ∉ seen ∧ ∀ o ∈ es, o.site = e.site → e.position ≤ o.position := by
  have hFirst : ∀ {e}, e ∈ otherSites seen es → ∀ o ∈ es, o.site = e.site →
      e.position ≤ o.position := by
    intro e he
    induction es generalizing seen with
    | nil => cases he
    | cons x es ih =>
        rw [List.pairwise_cons] at h
        obtain ⟨hLess, hRest⟩ := h
        intro o ho hSite
        rw [otherSites_cons] at he
        split at he
        · rename_i hSeen
          rcases List.mem_cons.mp ho with rfl | ho
          · exact absurd (hSite ▸ hSeen) (site_notMem_of_mem_otherSites he)
          · exact ih hRest he o ho hSite
        · rcases List.mem_cons.mp he with rfl | he
          · rcases List.mem_cons.mp ho with rfl | ho
            · exact Nat.le_refl _
            · exact Nat.le_of_lt (hLess o ho)
          · rcases List.mem_cons.mp ho with rfl | ho
            · exact absurd (hSite ▸ List.mem_cons_self) (site_notMem_of_mem_otherSites he)
            · exact ih hRest he o ho hSite
  constructor
  · exact fun he => ⟨mem_of_mem_otherSites he, site_notMem_of_mem_otherSites he, hFirst he⟩
  · rintro ⟨he, hSeen, hLeast⟩
    obtain ⟨o, ho, hSite⟩ := exists_mem_otherSites he hSeen
    have hMem := mem_of_mem_otherSites ho
    have hLe := hFirst ho e he hSite.symm
    have hLe' := hLeast o hMem hSite
    by_cases hSame : o = e
    · exact hSame ▸ ho
    · rcases h.or_of_ne hMem he hSame with hLess | hLess <;> omega

/-- No place is kept twice. -/
theorem nodup_otherSites : ((otherSites seen es).map Event.site).Nodup := by
  induction es generalizing seen with
  | nil => exact .nil
  | cons o es ih =>
      rw [otherSites_cons]
      split
      · exact ih
      · rw [List.map_cons, List.nodup_cons]
        refine ⟨fun hMem => ?_, ih⟩
        obtain ⟨e, he, hSite⟩ := List.mem_map.mp hMem
        exact site_notMem_of_mem_otherSites he (hSite ▸ List.mem_cons_self)

/-- The edits that delete are those of other directives about the name that have an effect. -/
theorem mem_edits_delete_iff
    (hDeclaration : Declaration.ofClassification settings identifiers id d.definition.span.path c
      = .ok declaration) :
    x ∈ (ofDeclaration id c d declaration).edits ∧ x.kind = .delete ↔
      ∃ e ∈ otherDirectives d, e.reachability ≠ .disabled
        ∧ ⟨extentOf e.directive.span, [], id, .delete⟩ = x := by
  have hDeletions : x ∈ deletions id (otherDirectives d) ↔
      ∃ e ∈ otherDirectives d, e.reachability ≠ .disabled
        ∧ ⟨extentOf e.directive.span, [], id, .delete⟩ = x := by
    simp [deletions, and_assoc]
  rw [← hDeletions]
  simp only [ofDeclaration, List.mem_cons, List.mem_append, Option.mem_toList]
  constructor
  · rintro ⟨rfl | (hOutside | hDeletion) | hUsage, hKind⟩
    · cases hKind
    · exact absurd hKind (Declaration.of_mem_outside hDeclaration x hOutside).2
    · exact hDeletion
    · obtain ⟨u, -, rfl⟩ := List.mem_map.mp hUsage
      cases hKind
  · intro hDeletion
    refine ⟨.inr (.inl (.inr hDeletion)), ?_⟩
    obtain ⟨e, -, rfl⟩ := List.mem_map.mp hDeletion
    rfl

end Proposal

namespace Analysis

variable {parse : List UInt8 → SyntaxNode} {settings : Settings}
  {load : String → Except AccessFault (List UInt8)} {path : String} {text : Text} {a : Analysis}
  {p : Proposal}

/-- The record that a proposal in the plan rests on holds the directives about its name, and what it
defines the name as. -/
theorem exists_record_of_mem_plan (h : ofText parse settings load path text = .ok a)
    (hp : p ∈ a.plan.proposals) : ∃ c d declaration,
      Declaration.ofClassification settings (Proposal.identifiersOf a.unit) (Proposal.idOf c d)
          d.definition.span.path c = .ok declaration
      ∧ p = Proposal.ofDeclaration (Proposal.idOf c d) c d declaration
      ∧ (∀ e, e ∈ d.events ↔ e ∈ a.unit.events ∧ e.directive.name = p.macroName)
      ∧ ∃ e ∈ d.events, e.directive = .define d.definition := by
  obtain ⟨-, hUnit⟩ := ofText_eq_ok h
  obtain ⟨c, -, d, declaration, hSubject, -, -, hDeclaration, rfl⟩ :=
    exists_classification_of_mem_plan hUnit hp
  obtain ⟨hName, e, he, hDefine, -⟩ := Survey.exists_event_of_subject hSubject
  refine ⟨c, _, declaration, hDeclaration, rfl, fun e => ?_, e, Survey.mem_events_record.mpr
    ⟨he, ?_⟩, hDefine⟩
  · rw [Survey.mem_events_record, hName]
    rfl
  · rw [hDefine]
    rfl

/-- A proposal deletes directives of its macro that have an effect. Among them is every `#undef` of
the macro, unless its place was also read otherwise. It ends a span of the macro exactly if a
definition is in force in front of it. -/
theorem removes_undef_iff (h : ofText parse settings load path text = .ok a)
    (hp : p ∈ a.plan.proposals) :
    (∀ x ∈ p.edits, x.kind = .delete → ∃ e ∈ a.unit.events, e.Changes p.macroName ∧ x.Removes e)
      ∧ ∀ e ∈ a.unit.events, e.Changes p.macroName → e.directive.isDefine = false →
        ((∀ o ∈ a.unit.events, o.directive.name = p.macroName → o.site = e.site →
            o.directive = e.directive ∧ o.reachability ≠ .disabled) → ∃ x ∈ p.edits, x.Removes e)
        ∧ ((∃ s ∈ (MacroTable.ofEvents a.unit.events).definitions p.macroName,
          s.closedBy = some e) ↔
            ∃ o, Event.Decides a.unit.events p.macroName e.position o
            ∧ o.directive.isDefine = true) := by
  obtain ⟨c, d, declaration, hDeclaration, hProposal, hEvents, first, hFirst, hDefine⟩ :=
    exists_record_of_mem_plan h hp
  have hDelete : ∀ x, x ∈ p.edits ∧ x.kind = .delete ↔ ∃ e ∈ Proposal.otherDirectives d,
      e.reachability ≠ .disabled ∧ ⟨Proposal.extentOf e.directive.span, [], Proposal.idOf c d,
        .delete⟩ = x := by
    intro x
    rw [hProposal]
    exact Proposal.mem_edits_delete_iff hDeclaration
  constructor
  · intro x hx hKind
    obtain ⟨e, he, hLive, rfl⟩ := (hDelete x).mp ⟨hx, hKind⟩
    obtain ⟨he, hName⟩ := (hEvents e).mp (Proposal.mem_of_mem_otherSites he)
    exact ⟨e, he, ⟨hName, hLive⟩, rfl, rfl⟩
  intro e he hChanges hUndef
  constructor
  · intro hSame
    -- The definition that is replaced stands elsewhere, since it is no `#undef`.
    have hApart : e.site ∉ [(d.definition.span.path, d.definition.span.start)] := by
      intro hSite
      have hFirstSite : first.site = e.site := by
        rw [List.mem_singleton.mp hSite, Event.site, hDefine]
        rfl
      obtain ⟨hFirst, hName⟩ := (hEvents first).mp hFirst
      rw [← (hSame first hFirst hName hFirstSite).1, hDefine] at hUndef
      cases hUndef
    obtain ⟨o, ho, hSite⟩ :=
      Proposal.exists_mem_otherSites ((hEvents e).mpr ⟨he, hChanges.1⟩) hApart
    obtain ⟨hMem, hName⟩ := (hEvents o).mp (Proposal.mem_of_mem_otherSites ho)
    obtain ⟨hDirective, hLive⟩ := hSame o hMem hName hSite
    obtain ⟨hx, hKind⟩ := (hDelete _).mpr ⟨o, ho, hLive, rfl⟩
    exact ⟨_, hx, hKind, by rw [hDirective]⟩
  · exact MacroTable.exists_closedBy_iff
      (MacroTable.positions_of_inOrder (CompilationUnit.events_inOrder a.unit)) he hChanges

/-- An `#undef` behind a definition is removed, and it ended the span of the definition. -/
theorem removes_undef_behind :
    ∃ a, ofText .scopeless {} (fun _ =>
      .error .notFound) "a.cpp" "#define N 1\nint x = N;\n#undef N\n" = .ok a
      ∧ ∃ p ∈ a.plan.proposals, p.macroName = "N"
        ∧ ∃ e ∈ a.unit.events, e.directive.isDefine = false ∧ (∃ x ∈ p.edits, x.Removes e)
          ∧ ∃ s ∈ (MacroTable.ofEvents a.unit.events).definitions "N", s.closedBy = some e := by
  refine Except.exists_of_passes (fun a => a.plan.proposals.any (·.macroName == "N")
    && decide (∃ e ∈ a.unit.events, e.Changes "N" ∧ e.directive.isDefine = false
      ∧ (∀ o ∈ a.unit.events, o.directive.name = "N" → o.site = e.site →
          o.directive = e.directive ∧ o.reachability ≠ .disabled)
      ∧ ∃ o ∈ a.unit.events, o.directive.isDefine = true ∧ o.Changes "N" ∧ o.position < e.position
        ∧ ∀ x ∈ a.unit.events, x.Changes "N" → x.position < e.position → x.position ≤ o.position))
    (by decide +kernel) fun a h hTest => ?_
  simp only [Bool.and_eq_true, List.any_eq_true, beq_iff_eq, decide_eq_true_eq] at hTest
  obtain ⟨⟨p, hp, hName⟩, e, he, hChanges, hUndef, hSame, o, ho, hDefines, hOther, hBefore,
    hLast⟩ := hTest
  have hDecides : Event.Decides a.unit.events "N" e.position o := ⟨ho, hOther, hBefore, hLast⟩
  obtain ⟨-, hUndefs⟩ := removes_undef_iff h hp
  rw [hName] at hUndefs
  obtain ⟨hRemoved, hClosed⟩ := hUndefs e he hChanges hUndef
  exact ⟨p, hp, hName, e, he, hUndef, hRemoved hSame, hClosed.mpr ⟨o, hDecides, hDefines⟩⟩

/-- An `#undef` in front of all definitions is removed, and it ended the span of none. -/
theorem removes_undef_in_front :
    ∃ a, ofText .scopeless {} (fun _ =>
      .error .notFound) "a.cpp" "#undef N\n#define N 1\nint x = N;\n" = .ok a
      ∧ ∃ p ∈ a.plan.proposals, p.macroName = "N"
        ∧ ∃ e ∈ a.unit.events, e.directive.isDefine = false ∧ (∃ x ∈ p.edits, x.Removes e)
          ∧ ∀ s ∈ (MacroTable.ofEvents a.unit.events).definitions "N", s.closedBy ≠ some e := by
  refine Except.exists_of_passes (fun a => decide (∃ p ∈ a.plan.proposals, p.macroName = "N"
      ∧ ∃ e ∈ a.unit.events, e.directive.isDefine = false ∧ (∃ x ∈ p.edits, x.Removes e)
        ∧ ∀ s ∈ (MacroTable.ofEvents a.unit.events).definitions "N", s.closedBy.isNone))
    (by decide +kernel) fun a h hTest => ?_
  obtain ⟨p, hp, hName, e, he, hUndef, hRemoved, hOpen⟩ := of_decide_eq_true hTest
  refine ⟨p, hp, hName, e, he, hUndef, hRemoved, fun s hs hClosed => ?_⟩
  have hNone := hOpen s hs
  rw [hClosed] at hNone
  cases hNone

end Analysis

end Demacro
