import Demacro.Proofs.Plan.Order
import Demacro.Proofs.References
import Demacro.Proofs.Removal
import Demacro.Proofs.Scopes
import Demacro.Proofs.Spacing

/-!
Collisions between the changes of one unit. Where no file is scanned twice, the changes of
directives and of uses are apart from each other and from all that is inserted. Only definitions
that are placed behind one class collide, since they are inserted at the same point.
-/

namespace Demacro

/-- The tree of a file that starts with a named class up to the offset `stop`. -/
def SyntaxNode.oneClass (nameStart nameStop stop : Nat) (bytes : List UInt8) : SyntaxNode :=
  ⟨"translation_unit", 0, bytes.length, none, false,
    [⟨"class_specifier", 0, stop, none, false,
      [⟨"type_identifier", nameStart, nameStop, some "name", false, []⟩,
        ⟨"field_declaration_list", nameStop + 1, stop, some "body", false, []⟩]⟩]⟩

/-- The edit inserts text at a point of a file. -/
def Edit.IsInsertion (x : Edit) : Prop :=
  x.isAppend = false ∧ x.start = x.stop

instance (x : Edit) : Decidable x.IsInsertion :=
  inferInstanceAs (Decidable (_ ∧ _))

/-- What two lists of edits insert at one point is the same. -/
def Edit.InsertAlike (xs ys : List Edit) : Prop :=
  ∀ x ∈ xs, ∀ y ∈ ys, x.IsInsertion → y.IsInsertion → x.toExtent = y.toExtent → x.change = y.change

instance (xs ys : List Edit) : Decidable (Edit.InsertAlike xs ys) :=
  inferInstanceAs (Decidable (∀ x ∈ xs, ∀ y ∈ ys, x.IsInsertion → y.IsInsertion →
    x.toExtent = y.toExtent → x.change = y.change))

/-- A part of the source that is changed as a whole: a macro directive, or the name at a use. -/
inductive EditTarget where
  | directive (e : Event)
  | name (t : PlacedToken)

namespace EditTarget

/-- The range of the part. -/
def extent : EditTarget → Extent
  | directive e => Proposal.extentOf e.directive.span
  | name t => Proposal.extentOf t.span

/-- The position of the first token. -/
def first : EditTarget → Nat
  | directive e => e.position
  | name t => t.position

/-- The position of the last token. -/
def last : EditTarget → Nat
  | directive e => e.lastPosition
  | name t => t.position

/-- The macro that the part is about. -/
def macroName : EditTarget → String
  | directive e => e.directive.name
  | name t => t.spelling

/-- The part belongs to the code or the directives of a unit. -/
def IsIn (u : CompilationUnit) : EditTarget → Prop
  | directive e => e ∈ u.events
  | name t => t ∈ u.codeTokens

variable {u : CompilationUnit} {p q : EditTarget}

theorem exists_covers {path : String} {text : Text} {search : Option IncludeSearch}
    (hRead : CompilationUnit.read path text search = .ok u) (hp : p.IsIn u) :
    ∃ t t', u.Covers p.extent t t' ∧ t.position = p.first ∧ t'.position = p.last := by
  cases p with
  | directive e => exact CompilationUnit.exists_covers_of_mem_events hRead hp
  | name t =>
      have ht := CompilationUnit.mem_tokens_of_mem_codeTokens hp
      exact ⟨t, t, ⟨ht, ht, Nat.le_refl _, rfl, rfl, rfl, rfl⟩, rfl, rfl⟩

/-- Code stands in no directive. -/
theorem outside_of_mem_codeTokens (hp : p.IsIn u) {t : PlacedToken} (ht : t ∈ u.codeTokens) :
    t.position < p.first ∨ p.last ≤ t.position := by
  cases p with
  | directive e =>
      exact (CompilationUnit.outside_of_mem_codeTokens ht _ e hp rfl).imp_right Nat.le_of_lt
  | name t' => exact Nat.lt_or_ge _ _

/-- Of two parts one stands in front of the other. -/
theorem apart (hp : p.IsIn u) (hq : q.IsIn u) (hNe : p ≠ q) :
    p.last < q.first ∨ q.last < p.first := by
  have hMixed : ∀ {e t}, e ∈ u.events → t ∈ u.codeTokens →
      t.position < e.position ∨ e.lastPosition < t.position :=
    fun {e t} he ht => CompilationUnit.outside_of_mem_codeTokens ht _ e he rfl
  cases p with
  | directive e =>
      cases q with
      | directive e' => exact
          (CompilationUnit.events_inOrder u).apart.or_of_ne hp hq fun hSame => hNe (hSame ▸ rfl)
      | name t => exact (hMixed hp hq).symm
  | name t =>
      cases q with
      | directive e => exact hMixed hq hp
      | name t' =>
          refine Nat.lt_or_gt_of_ne fun hSame => hNe ?_
          rw [CompilationUnit.eq_of_position_eq (CompilationUnit.mem_tokens_of_mem_codeTokens hp)
            (CompilationUnit.mem_tokens_of_mem_codeTokens hq) hSame]

end EditTarget

/-- The macro is a constant that a class cannot initialize itself, and what defines it goes behind
the outermost class around it. -/
def Classification.IsDefinedBehindClass (c : Classification) (point : Extent) : Prop :=
  c.pattern = .classScopedConstant
    ∧ (∀ type initializer value, c.payload ≠ some (.constant type initializer true value))
    ∧ (∃ d, c.definition = some d ∧ isHeader d.definition.span.path = false)
    ∧ ∃ context frame stop, c.context = some context
      ∧ (context.frames.filter (·.kind == .classScope)).head? = some frame
      ∧ frame.statementEnd? = some stop ∧ point = ⟨frame.path, stop, stop⟩

namespace Proposal

/-- What the proposal for a macro makes of a part of the source that is about it. -/
def changeOf (c : Classification) (d : DefinitionRecord) (declaration : Declaration) :
    EditTarget → Text × EditKind
  | .directive e =>
    if e.site = (d.definition.span.path, d.definition.span.start) then (declaration.text, .replace)
    else ([], .delete)
  | .name t =>
    match c.qualified.find? fun q => q.usage.token.position == t.position with
    | some q => ((q.qualifier ++ "::" ++ declaration.name : String), .replace)
    | none => (declaration.name, .replace)

/-- The edit changes a part of the source that is about the macro, or inserts what is outside of a
class behind a token of the code, or goes to the end of a file. -/
inductive Reaches (u : CompilationUnit) (c : Classification) (d : DefinitionRecord)
    (declaration : Declaration) (x : Edit) : Prop where
  | appended (hKind : x.isAppend = true)
  | inserted {t : PlacedToken} (hOutside : declaration.outside = some x) (ht : t ∈ u.codeTokens)
      (hKind : x.isAppend = false) (hExtent : x.toExtent = ⟨t.span.path, t.span.stop, t.span.stop⟩)
  | changed (target : EditTarget) (hIn : target.IsIn u) (hName : target.macroName = c.name)
      (hExtent : x.toExtent = target.extent)
      (hChange : (x.text, x.kind) = changeOf c d declaration target)

variable {u : CompilationUnit} {c c' : Classification} {d d' : DefinitionRecord}
  {declaration declaration' : Declaration} {x y : Edit} {target target' : EditTarget}
  {t : PlacedToken}

section

variable {path : String} {text : Text} {search : Option IncludeSearch}

/-- Changes of two parts of the source do not overlap. -/
theorem eq_of_overlaps (hRead : CompilationUnit.read path text search = .ok u)
    (hOnce : u.ScannedOnce x.path) (hx : target.IsIn u) (hy : target'.IsIn u)
    (hxExtent : x.toExtent = target.extent) (hyExtent : y.toExtent = target'.extent)
    (hOverlaps : x.overlaps y = true) : target = target' := by
  by_contra hNe
  have hPath := (Edit.path_eq_of_overlaps hOverlaps).1
  obtain ⟨t, t', hCovers, hFirst, hLast⟩ := EditTarget.exists_covers hRead hx
  obtain ⟨s, s', hCovers', hFirst', hLast'⟩ := EditTarget.exists_covers hRead hy
  rw [← hxExtent] at hCovers
  rw [← hyExtent] at hCovers'
  obtain ⟨hLess, hLess'⟩ :=
    Edit.lt_of_overlaps hOverlaps (hCovers.lt hOnce) (hCovers'.lt (hPath ▸ hOnce))
  rcases EditTarget.apart hx hy hNe with hApart | hApart
  · have hLe := hCovers.stop_le_start hCovers' hOnce hPath (by omega)
    omega
  · have hLe := hCovers'.stop_le_start hCovers (hPath ▸ hOnce) hPath.symm (by omega)
    omega

/-- The change of a part of the source does not overlap what is inserted behind a token of the
code. -/
theorem not_overlaps_inserted (hRead : CompilationUnit.read path text search = .ok u)
    (hOnce : u.ScannedOnce x.path) (hx : target.IsIn u) (hxExtent : x.toExtent = target.extent)
    (ht : t ∈ u.codeTokens) (hyExtent : y.toExtent = ⟨t.span.path, t.span.stop, t.span.stop⟩) :
    x.overlaps y = false := by
  by_contra hOverlaps
  rw [Bool.not_eq_false] at hOverlaps
  have hPath := (Edit.path_eq_of_overlaps hOverlaps).1
  obtain ⟨s, s', hCovers, hFirst, hLast⟩ := EditTarget.exists_covers hRead hx
  rw [← hxExtent] at hCovers
  have hPoint : y.start = t.span.stop ∧ y.stop = t.span.stop ∧ y.path = t.span.path := by
    rw [hyExtent]
    exact ⟨rfl, rfl, rfl⟩
  obtain ⟨hLess, hLess'⟩ := Edit.inside_of_overlaps hOverlaps (hCovers.lt hOnce) (by omega)
  have hOutside := EditTarget.outside_of_mem_codeTokens hx ht
  rcases hCovers.outside hOnce (CompilationUnit.mem_tokens_of_mem_codeTokens ht)
    (by rw [hPath, hPoint.2.2]) (by omega) with hLe | hLe <;> omega

/-- Edits overlap only if they make the same change or insert at the same point. -/
theorem Reaches.of_overlaps (hRead : CompilationUnit.read path text search = .ok u)
    (hOnce : u.ScannedOnce x.path) (hx : Reaches u c d declaration x)
    (hy : Reaches u c' d' declaration' y)
    (hSame : c.name = c'.name → changeOf c d declaration = changeOf c' d' declaration')
    (hOverlaps : x.overlaps y = true) :
    x.change = y.change ∨ x.IsInsertion ∧ y.IsInsertion ∧ x.toExtent = y.toExtent := by
  obtain ⟨hPath, hxKind, hyKind⟩ := Edit.path_eq_of_overlaps hOverlaps
  cases hx with
  | appended hKind =>
      rw [hxKind] at hKind
      cases hKind
  | inserted _ ht _ hExtent =>
      cases hy with
      | appended hKind =>
          rw [hyKind] at hKind
          cases hKind
      | inserted _ ht' _ hExtent' =>
          have hPoint : x.start = x.stop := by rw [hExtent]
          have hPoint' : y.start = y.stop := by rw [hExtent']
          have hStart := Edit.start_eq_of_overlaps hOverlaps hPoint hPoint'
          refine .inr ⟨⟨hxKind, hPoint⟩, ⟨hyKind, hPoint'⟩, ?_⟩
          rw [hExtent, hExtent'] at hPath hStart
          dsimp only at hPath hStart
          rw [hExtent, hExtent', hPath, hStart]
      | changed target hIn _ hExtent' _ =>
          rw [Edit.overlaps_comm, not_overlaps_inserted hRead (hPath ▸ hOnce) hIn hExtent' ht
            hExtent] at hOverlaps
          cases hOverlaps
  | changed target hIn hName hExtent hChange =>
      cases hy with
      | appended hKind =>
          rw [hyKind] at hKind
          cases hKind
      | inserted _ ht _ hExtent' =>
          rw [not_overlaps_inserted hRead hOnce hIn hExtent ht hExtent'] at hOverlaps
          cases hOverlaps
      | changed target' hIn' hName' hExtent' hChange' =>
          obtain rfl := eq_of_overlaps hRead hOnce hIn hIn' hExtent hExtent' hOverlaps
          refine .inl ?_
          rw [← hSame (hName.symm.trans hName')] at hChange'
          obtain ⟨hText, hKind⟩ := Prod.mk.inj (hChange.trans hChange'.symm)
          rw [Edit.change, Edit.change, hExtent, hExtent', hText, hKind]

/-- Only what is outside of a class is inserted. -/
theorem Reaches.outside_of_isInsertion (hRead : CompilationUnit.read path text search = .ok u)
    (hOnce : u.ScannedOnce x.path) (hx : Reaches u c d declaration x) (hInsertion : x.IsInsertion) :
    declaration.outside = some x := by
  cases hx with
  | appended hKind =>
      rw [hInsertion.1] at hKind
      cases hKind
  | inserted hOutside => exact hOutside
  | changed target hIn _ hExtent _ =>
      obtain ⟨t, t', hCovers, -, -⟩ := EditTarget.exists_covers hRead hIn
      rw [← hExtent] at hCovers
      exact absurd hInsertion.2 (Int.ne_of_lt (hCovers.lt hOnce))

end

/-- What the proposal for a macro rests on: the directives and uses of its name, and the scopes
around it. -/
structure RestsOn (settings : Settings) (u : CompilationUnit) (c : Classification)
    (d : DefinitionRecord) (declaration : Declaration) : Prop where
  declared : Declaration.ofClassification settings (identifiersOf u)
    (idOf c d) d.definition.span.path c
    = .ok declaration
  events : ∀ e ∈ d.events, e ∈ u.events ∧ e.directive.name = c.name
  defined : ∃ e ∈ d.events, e.directive = .define d.definition
  used : ∀ w ∈ c.usages, w.token ∈ u.codeTokens ∧ w.token.spelling = c.name
  ends : ∀ context ∈ c.context, ∀ frame ∈ context.frames, ∀ stop, frame.statementEnd? = some stop →
    ∃ t ∈ u.codeTokens, t.isPunct ";" = true ∧ t.span.path = frame.path ∧ t.span.stop = stop

theorem RestsOn.reaches {settings : Settings} (h : RestsOn settings u c d declaration)
    (hx : x ∈ (ofDeclaration (idOf c d) c d declaration).edits) : Reaches u c d declaration x := by
  simp only [ofDeclaration, List.mem_cons, List.mem_append, Option.mem_toList] at hx
  rcases hx with rfl | (hOutside | hDeleted) | hUsage
  · obtain ⟨e, he, hDefine⟩ := h.defined
    obtain ⟨hMem, hName⟩ := h.events e he
    refine .changed (.directive e) hMem hName ?_ ?_
    · simp [EditTarget.extent, hDefine, Directive.span]
    · simp [changeOf, Event.site, hDefine, Directive.span]
  · obtain ⟨-, -, hPlace⟩ := Declaration.of_outside_eq_some h.declared hOutside
    rcases hPlace with ⟨hAppend, -⟩ | ⟨hKind, -, context, frame, stop, hContext, hFrame, hStop,
      hExtent⟩
    · exact .appended hAppend
    · have hMem := (List.mem_filter.mp (List.mem_of_head? hFrame)).1
      obtain ⟨t, ht, -, hPath, hEnd⟩ := h.ends context hContext frame hMem stop hStop
      exact .inserted hOutside ht hKind (by rw [hExtent, hPath, hEnd])
  · obtain ⟨e, he, rfl⟩ := List.mem_map.mp hDeleted
    have hOther := (List.mem_filter.mp he).1
    obtain ⟨hMem, hName⟩ := h.events e (mem_of_mem_otherSites hOther)
    refine .changed (.directive e) hMem hName rfl ?_
    rw [changeOf, if_neg (by simpa using site_notMem_of_mem_otherSites hOther)]
  · obtain ⟨w, hw, rfl⟩ := List.mem_map.mp hUsage
    obtain ⟨hMem, hName⟩ := h.used w (List.mem_filter.mp hw).1
    refine .changed (.name w.token) hMem hName rfl ?_
    dsimp only [changeOf, spelling]
    cases c.qualified.find? fun q => q.usage.token.position == w.token.position <;> rfl

end Proposal

namespace Survey

variable {s : Survey} {name : String} {c c' : Classification} {cs : List Classification}

/-- The context of a macro that may be changed is that of its definition. -/
theorem Outcome.context_of_ne_blocked {d : ActiveSpan} (h : s.Outcome name c)
    (hConfidence : c.confidence ≠ .blocked) (hSubject : s.subject name = .ok d) :
    c.context = some (s.scopes.contextOf d.definition) := by
  cases h with
  | unsuitable | rejected => exact absurd rfl hConfidence
  | constant hOther | function hOther =>
      cases hSubject.symm.trans hOther
      rfl

/-- One classification that may be changed is made for a name. -/
theorem eq_of_name_eq (hs : s.NamesDefinitions) (h : s.classifyAll = .ok cs) (hc : c ∈ cs)
    (hc' : c' ∈ cs) (hConfidence : c.confidence ≠ .blocked)
    (hConfidence' : c'.confidence ≠ .blocked) (hName : c.name = c'.name) : c = c' := by
  have hRun := run_classifyNew_of_mem hs h hc hConfidence
  rw [hName, run_classifyNew_of_mem hs h hc' hConfidence'] at hRun
  cases hRun
  rfl

end Survey

namespace Analysis

variable {parse : List UInt8 → SyntaxNode} {settings : Settings}
  {load : String → Except AccessFault (List UInt8)} {path : String} {text : Text} {a : Analysis}
  {p q : Proposal} {x y : Edit}

/-- What a proposal is made for is what it rests on. -/
theorem restsOn_of_isMadeFor {u : CompilationUnit} {c : Classification} {d : ActiveSpan}
    {declaration : Declaration}
    (h : p.IsMadeFor settings (Survey.ofUnit parse settings u) u c d declaration)
    (hOutcome : (Survey.ofUnit parse settings u).Outcome c.name c) :
    Proposal.RestsOn settings u c ((Survey.ofUnit parse settings u).record d) declaration := by
  obtain ⟨_, -, -, hUsages, -⟩ := hOutcome.of_ne_blocked h.confidence
  obtain ⟨hName, e, he, hDefine, -⟩ := Survey.exists_event_of_subject h.subject
  exact {
    declared := h.declared
    events := fun e he => hName ▸ Survey.mem_events_record.mp he
    defined := ⟨e, Survey.mem_events_record.mpr ⟨he, by rw [hDefine]; rfl⟩, hDefine⟩
    used := fun w hw => by
      rw [hUsages] at hw
      exact ⟨Survey.token_mem_codeTokens hw, (UsageIndex.mem_usages.mp hw).2⟩
    ends := fun context hContext frame hFrame stop hStop => by
      rw [hOutcome.context_of_ne_blocked h.confidence h.subject] at hContext
      cases hContext
      exact UnitScopes.exists_token_of_statementEnd? hFrame hStop }

/-- A proposal that is admitted to the plan of a unit is made for a macro that may be changed. -/
theorem exists_restsOn_of_mem_admitted (hUnit : ofUnit parse settings a.unit = .ok a)
    (hp : p ∈ EditPlan.admitted settings.minimumTier a.proposals) :
    ∃ c ∈ a.classifications, c.confidence ≠ .blocked ∧ ∃ d declaration, c.definition = some d
      ∧ Proposal.RestsOn settings a.unit c d declaration
      ∧ p = Proposal.ofDeclaration (Proposal.idOf c d) c d declaration := by
  obtain ⟨hMem, hAdmitted⟩ := List.mem_filter.mp hp
  obtain ⟨c, hc, d, declaration, hMade⟩ := exists_classification_of_mem_proposals hUnit hMem
    (EditPlan.edits_ne_nil_of_refusal? (Option.isNone_iff_eq_none.mp hAdmitted))
  have hOutcome := (Survey.exists_outcome (ofUnit_eq_ok hUnit).2.1 hc).2
  exact ⟨c, hc, hMade.confidence, _, declaration, hMade.definition,
    restsOn_of_isMadeFor hMade hOutcome, hMade.eq⟩

/-- Each edit of an admitted proposal carries its identifier. -/
theorem ownsEdits_of_mem_admitted (hUnit : ofUnit parse settings a.unit = .ok a)
    (hp : p ∈ EditPlan.admitted settings.minimumTier a.proposals) : p.OwnsEdits := by
  obtain ⟨c, -, hProposal⟩ := mem_proposals hUnit (List.mem_filter.mp hp).1
  exact fun x hx => Proposal.proposal_of_mem_edits hProposal hx

/-- Edits of admitted proposals overlap only if they make the same change or insert at the same
point. -/
theorem change_eq_of_overlaps (h : ofText parse settings load path text = .ok a)
    (hOnce : ∀ file, a.unit.ScannedOnce file)
    (hp : p ∈ EditPlan.admitted settings.minimumTier a.proposals)
    (hq : q ∈ EditPlan.admitted settings.minimumTier a.proposals) (hx : x ∈ p.edits)
    (hy : y ∈ q.edits) (hOverlaps : x.overlaps y = true) :
    x.change = y.change ∨ x.IsInsertion ∧ y.IsInsertion ∧ x.toExtent = y.toExtent := by
  obtain ⟨hRead, hUnit⟩ := ofText_eq_ok h
  obtain ⟨c, hc, hConfidence, d, declaration, hDefinition, hRests, rfl⟩ :=
    exists_restsOn_of_mem_admitted hUnit hp
  obtain ⟨c', hc', hConfidence', d', declaration', hDefinition', hRests', rfl⟩ :=
    exists_restsOn_of_mem_admitted hUnit hq
  refine (hRests.reaches hx).of_overlaps hRead (hOnce x.path) (hRests'.reaches hy)
    (fun hName => ?_) hOverlaps
  -- One proposal is made for a name.
  obtain rfl := Survey.eq_of_name_eq (Survey.namesDefinitions_ofUnit parse settings a.unit)
    (ofUnit_eq_ok hUnit).2.1 hc hc' hConfidence hConfidence' hName
  obtain rfl := Option.some.inj (hDefinition.symm.trans hDefinition')
  obtain rfl := Except.ok.inj (hRests.declared.symm.trans hRests'.declared)
  rfl

/-- What is inserted is the definition of a constant of a class. -/
theorem isDefinedBehindClass_of_isInsertion (h : ofText parse settings load path text = .ok a)
    (hOnce : ∀ file, a.unit.ScannedOnce file)
    (hp : p ∈ EditPlan.admitted settings.minimumTier a.proposals) (hx : x ∈ p.edits)
    (hInsertion : x.IsInsertion) :
    ∃ c ∈ a.classifications, c.name = p.macroName ∧ c.IsDefinedBehindClass x.toExtent := by
  obtain ⟨hRead, hUnit⟩ := ofText_eq_ok h
  obtain ⟨c, hc, -, d, declaration, hDefinition, hRests, rfl⟩ :=
    exists_restsOn_of_mem_admitted hUnit hp
  have hOutside := (hRests.reaches hx).outside_of_isInsertion hRead (hOnce x.path) hInsertion
  obtain ⟨hPattern, hPayload, hPlace⟩ := Declaration.of_outside_eq_some hRests.declared hOutside
  refine ⟨c, hc, rfl, hPattern, hPayload, ?_⟩
  rcases hPlace with ⟨hAppend, -⟩ | ⟨-, hHeader, hPoint⟩
  · rw [hInsertion.1] at hAppend
    cases hAppend
  · exact ⟨⟨d, hDefinition, hHeader⟩, hPoint⟩

/-- If no file is scanned twice, conflicts of a unit are between definitions that go behind one
class: a plan has none exactly if admitted proposals insert nothing different at one point, and all
that they insert is definitions of class constants. -/
theorem conflicts_eq_nil_iff (h : ofText parse settings load path text = .ok a)
    (hOnce : ∀ file, a.unit.ScannedOnce file) :
    (a.plan.conflicts = [] ↔ ∀ p ∈ EditPlan.admitted settings.minimumTier a.proposals,
      ∀ q ∈ EditPlan.admitted settings.minimumTier a.proposals, Edit.InsertAlike p.edits q.edits)
    ∧ (∀ k ∈ a.plan.conflicts,
      k.first.IsInsertion ∧ k.second.IsInsertion ∧ k.first.toExtent = k.second.toExtent)
    ∧ ∀ p ∈ EditPlan.admitted settings.minimumTier a.proposals, ∀ x ∈ p.edits, x.IsInsertion →
      ∃ c ∈ a.classifications, c.name = p.macroName ∧ c.IsDefinedBehindClass x.toExtent := by
  have hUnit := (ofText_eq_ok h).2
  have hPlan : a.plan.conflicts =
      (EditPlan.assemble (EditPlan.admitted settings.minimumTier a.proposals) [] []).conflicts := by
    rw [(ofUnit_eq_ok hUnit).2.2.2]
    rfl
  refine ⟨?_, fun k hk => ?_, fun p hp x hx => isDefinedBehindClass_of_isInsertion h hOnce hp hx⟩
  · rw [hPlan, EditPlan.conflicts_assemble_eq_nil_iff fun p hp => ownsEdits_of_mem_admitted
      hUnit hp]
    constructor
    · intro hApart p hp q hq x hx y hy hInsertion hInsertion' hPoint
      exact hApart p hp q hq x hx y hy
        (Edit.overlaps_of_insertions hPoint hInsertion.2 hInsertion.1 hInsertion'.1)
    · intro hSame p hp q hq x hx y hy hOverlaps
      rcases change_eq_of_overlaps h hOnce hp hq hx hy hOverlaps with hChange
        | ⟨hInsertion, hInsertion', hPoint⟩
      · exact hChange
      · exact hSame p hp q hq x hx y hy hInsertion hInsertion' hPoint
  · rw [hPlan] at hk
    rcases EditPlan.change_ne_of_mem_conflicts hk with hKnown | ⟨hFirst, hSecond, hNe, hOverlaps⟩
    · cases hKnown
    · obtain ⟨p, hp, hx⟩ := EditPlan.mem_pool hFirst
      obtain ⟨q, hq, hy⟩ := EditPlan.mem_pool hSecond
      exact (change_eq_of_overlaps h hOnce hp hq hx hy hOverlaps).resolve_left hNe

/-- One constant of a class is in no conflict. -/
theorem conflicts_oneConstant :
    ∃ a, ofText (.oneClass 6 12 35) {} (fun _ => .error .notFound) "unit.cpp"
        "class Circle \x7b\n#define PI 3.14159\n\x7d;\nint n = 4;\n" = .ok a
      ∧ (∀ file, a.unit.ScannedOnce file) ∧ (∃ p ∈ a.plan.proposals, ∃ x ∈ p.edits, x.IsInsertion)
      ∧ a.plan.conflicts = [] := by
  refine Except.exists_of_passes (fun a => decide (∀ t ∈ a.unit.tokens, t.span.path = "unit.cpp")
    && decide ((Token.ofText "unit.cpp"
      "class Circle \x7b\n#define PI 3.14159\n\x7d;\nint n = 4;\n").toOption
      = some (a.unit.tokens.map PlacedToken.toToken))
    && decide (∃ p ∈ a.plan.proposals, ∃ x ∈ p.edits, x.IsInsertion)
    && decide (∀ p ∈ EditPlan.admitted .medium a.proposals,
      ∀ q ∈ EditPlan.admitted .medium a.proposals,
      Edit.InsertAlike p.edits q.edits)) (by decide +kernel) fun a h hTest => ?_
  simp only [Bool.and_eq_true, decide_eq_true_eq] at hTest
  obtain ⟨⟨⟨hFile, hText⟩, hInserts⟩, hSame⟩ := hTest
  have hOnce := CompilationUnit.scannedOnce_of_single hFile hText
  exact ⟨hOnce, hInserts, (conflicts_eq_nil_iff h hOnce).1.mpr hSame⟩

/-- Two constants of a class are in a conflict, since their definitions go to the same point. -/
theorem conflicts_twoConstants :
    ∃ a, ofText (.oneClass 6 12 55) {} (fun _ => .error .notFound) "unit.cpp"
        "class Circle \x7b\n#define PI 3.14159\n#define TAU 6.28318\n\x7d;\n" = .ok a
      ∧ (∀ file, a.unit.ScannedOnce file) ∧ a.plan.conflicts ≠ [] ∧ a.plan.proposals = [] := by
  refine Except.exists_of_passes (fun a => decide (∀ t ∈ a.unit.tokens, t.span.path = "unit.cpp")
    && decide ((Token.ofText "unit.cpp"
        "class Circle \x7b\n#define PI 3.14159\n#define TAU 6.28318\n\x7d;\n").toOption
      = some (a.unit.tokens.map PlacedToken.toToken))
    && decide (a.plan.conflicts ≠ []) && a.plan.proposals.isEmpty) (by
      decide +kernel) fun a h hTest => ?_
  simp only [Bool.and_eq_true, decide_eq_true_eq, List.isEmpty_iff] at hTest
  obtain ⟨⟨⟨hFile, hText⟩, hConflicts⟩, hProposals⟩ := hTest
  exact ⟨CompilationUnit.scannedOnce_of_single hFile hText, hConflicts, hProposals⟩

end Analysis

end Demacro
