import Demacro.Proofs.Collisions
import Demacro.Proofs.Inclusion
import Demacro.Proofs.Lists
import Demacro.Proofs.Plan.Divergence
import Demacro.Proofs.Run
import Demacro.Proofs.Survival
import Demacro.Proofs.Uses.Partition

/-!
The edits that a proposal needs. The declaration takes the place of the first live definition, each
other place of a directive about the macro is deleted once, and each use gets the spelling that it
needs. Places of directives are compared with those that were met before, places of uses are not: a
use in a file that is read again is changed again.
-/

namespace Demacro

/-- The first definition of a name that has an effect. -/
structure Event.IsFirstDefinition (es : List Event) (name : String) (e : Event) : Prop where
  mem : e ∈ es
  defines : e.Defines name
  live : e.reachability ≠ .disabled
  first : ∀ o ∈ es, o.Defines name → o.reachability ≠ .disabled → e.position ≤ o.position

/-- The first directive about a name at its place. The directives behind it at this place are those
of a file that is read again. -/
structure Event.IsFirstAtPlace (es : List Event) (name : String) (e : Event) : Prop where
  mem : e ∈ es
  about : e.directive.name = name
  first : ∀ o ∈ es, o.directive.name = name → o.site = e.site → e.position ≤ o.position

/-- The edit starts where the directive does. -/
def Edit.StartsAt (x : Edit) (e : Event) : Prop :=
  x.path = e.directive.span.path ∧ x.start = e.directive.span.start

instance (x : Edit) (e : Event) : Decidable (x.StartsAt e) :=
  inferInstanceAs (Decidable (_ ∧ _))

/-- One token starts at a place of a file that is read once. -/
theorem CompilationUnit.HoldsOnce.eq_of_start_eq {u : CompilationUnit} {path : String}
    (h : u.HoldsOnce path) {t t' : PlacedToken} (ht : t ∈ u.tokens) (ht' : t' ∈ u.tokens)
    (hPath : t.span.path = path) (hPath' : t'.span.path = path)
    (hStart : t.span.start = t'.span.start) : t = t' := by
  by_contra hNe
  have hMem : t ∈ u.tokens.filter (·.span.path == path) :=
    List.mem_filter.mpr ⟨ht, beq_iff_eq.mpr hPath⟩
  have hMem' : t' ∈ u.tokens.filter (·.span.path == path) :=
    List.mem_filter.mpr ⟨ht', beq_iff_eq.mpr hPath'⟩
  rcases List.Pairwise.or_of_ne h hMem hMem' hNe with hApart | hApart
  · exact hApart hStart
  · exact hApart hStart.symm

namespace Proposal

/-- The name of what is declared for a macro. -/
def newName (settings : Settings) (c : Classification) : String :=
  if c.pattern = .functionLikeMacro ∧ settings.functionNaming = .camelCase then camelCase c.name
    else c.name

/-- The edit that deletes a directive. -/
def deletion (id : String) (e : Event) : Edit :=
  ⟨extentOf e.directive.span, [], id, .delete⟩

/-- The edit that gives a use the spelling that it needs. -/
def respelling (id : String) (c : Classification) (name : String) (w : Usage) : Edit :=
  ⟨extentOf w.token.span, spelling c name w, id, .replace⟩

/-- Where a directive about the name stands, but for the place of `first`, one edit deletes it, or
none if it is disabled. The first directive at a place decides, in a file that is read once the only
one. Nothing else is deleted. -/
structure DeletesOthers (u : CompilationUnit) (name id : String) (first : Event)
    (deletions : List Edit) : Prop where
  once : ∀ e, e.IsFirstAtPlace u.events name → e.site ≠ first.site →
    deletions.filter (·.StartsAt e) = if e.reachability = .disabled then [] else [deletion id e]
  alone : ∀ e ∈ u.events, e.directive.name = name → u.HoldsOnce e.directive.span.path →
    e.IsFirstAtPlace u.events name
  only : ∀ x ∈ deletions, ∃ e, e.IsFirstAtPlace u.events name ∧ e.site ≠ first.site
    ∧ e.reachability ≠ .disabled
    ∧ x = deletion id e

/-- No other use at the place of the use needs another spelling. -/
def StandsAlone (c : Classification) (name : String) (w : Usage) : Prop :=
  ∀ w' ∈ c.usages, extentOf w'.token.span = extentOf w.token.span → spelling c name w' ≠ c.name →
    w'.token.position = w.token.position

/-- One edit gives a use the spelling that it needs, and none is at its place if it keeps the name
of the macro. This is so for just the uses that stand alone, such as those in files that are read
once. Nothing else is respelled. -/
structure RespellsUses (u : CompilationUnit) (c : Classification) (id name : String)
    (respellings : List Edit) : Prop where
  once : ∀ w ∈ c.usages, respellings.filter (·.toExtent = extentOf w.token.span)
      = (if spelling c name w = c.name then [] else [respelling id c name w]) ↔ StandsAlone c name w
  alone : ∀ w ∈ c.usages, u.HoldsOnce w.token.span.path → StandsAlone c name w
  only : ∀ x ∈ respellings, ∃ w ∈ c.usages, spelling c name w ≠ c.name ∧ x = respelling id c name w

/-- The edits of a proposal: the declaration in the place of the first live definition of the macro,
what deletes the other directives, what respells uses, and one insertion at most, that of a
definition outside of a class. -/
structure ConsistsOf (settings : Settings) (u : CompilationUnit) (c : Classification) (p : Proposal)
    (first : Event) (outside : Option Edit) (deletions respellings : List Edit) : Prop where
  defines : first.IsFirstDefinition u.events p.macroName
  edits : ∃ declared, p.declaration = some declared ∧ p.edits
    = ⟨extentOf first.directive.span, declared, p.id, .replace⟩
    :: (outside.toList ++ deletions ++ respellings)
  inserts : ∀ x ∈ outside, c.pattern = .classScopedConstant ∧ x.proposal = p.id
    ∧ (x.isAppend = true ∨ x.IsInsertion ∧ x.kind = .replace)
  deletes : DeletesOthers u p.macroName p.id first deletions
  respells : RespellsUses u c p.id (newName settings c) respellings

variable {d : DefinitionRecord} {first e : Event} {id name : String} {c : Classification}
  {w : Usage} {u : CompilationUnit}

theorem startsAt_deletion {o : Event} : (deletion id o).StartsAt e ↔ o.site = e.site := by
  simp [Edit.StartsAt, deletion, extentOf, Event.site]

theorem mem_otherDirectives_iff (hEvents : d.events = u.events.filter (·.directive.name == name))
    (hSite : first.site = (d.definition.span.path, d.definition.span.start)) :
    e ∈ otherDirectives d ↔ e.IsFirstAtPlace u.events name ∧ e.site ≠ first.site := by
  have hPositions := MacroTable.positions_of_inOrder (CompilationUnit.events_inOrder u)
  rw [otherDirectives, ← hSite, hEvents, mem_otherSites_iff (hPositions.filter _),
    List.mem_singleton]
  constructor
  · rintro ⟨he, hNew, hFirst⟩
    obtain ⟨hMem, hName⟩ := List.mem_filter.mp he
    refine ⟨⟨hMem, beq_iff_eq.mp hName, fun o ho hAbout => ?_⟩, hNew⟩
    exact hFirst o (List.mem_filter.mpr ⟨ho, beq_iff_eq.mpr hAbout⟩)
  · rintro ⟨⟨hMem, hAbout, hFirst⟩, hNew⟩
    refine ⟨List.mem_filter.mpr ⟨hMem, beq_iff_eq.mpr hAbout⟩, hNew, fun o ho => ?_⟩
    obtain ⟨ho, hName⟩ := List.mem_filter.mp ho
    exact hFirst o ho (beq_iff_eq.mp hName)

/-- A directive in a file that is read once is the first one at its place. -/
theorem isFirstAtPlace_of_holdsOnce {path : String} {text : Text} {search : Option IncludeSearch}
    (hRead : CompilationUnit.read path text search = .ok u) (he : e ∈ u.events)
    (hAbout : e.directive.name = name) (hOnce : u.HoldsOnce e.directive.span.path) :
    e.IsFirstAtPlace u.events name := by
  refine ⟨he, hAbout, fun o ho _ hSite => ?_⟩
  obtain ⟨t, _, hCovers, hPosition, -⟩ := CompilationUnit.exists_covers_of_mem_events hRead he
  obtain ⟨t', _, hCovers', hPosition', -⟩ := CompilationUnit.exists_covers_of_mem_events hRead ho
  obtain ⟨hPath, hPlace⟩ := Prod.mk.inj hSite
  have hStart : (t.span.start : Int) = t'.span.start := by
    rw [← hCovers.start, ← hCovers'.start]
    exact congrArg Nat.cast hPlace.symm
  have hSame := hOnce.eq_of_start_eq hCovers.first hCovers'.first hCovers.firstPath
    (hCovers'.firstPath.trans hPath) (Int.ofNat_inj.mp hStart)
  rw [← hPosition, ← hPosition', hSame]

/-- Each other place of a directive is deleted once. -/
theorem deletesOthers {path : String} {text : Text} {search : Option IncludeSearch}
    (hRead : CompilationUnit.read path text search = .ok u)
    (hEvents : d.events = u.events.filter (·.directive.name == name))
    (hSite : first.site = (d.definition.span.path, d.definition.span.start)) :
    DeletesOthers u name id first (deletions id (otherDirectives d)) := by
  refine ⟨fun e he hNew => ?_, fun e he hAbout => isFirstAtPlace_of_holdsOnce hRead he hAbout,
    fun x hx => ?_⟩
  · have hMem := (mem_otherDirectives_iff hEvents hSite).mpr ⟨he, hNew⟩
    have hPlace : (otherDirectives d).filter (fun o => o.site = e.site) = [e] :=
      filter_key_of_nodup nodup_otherSites hMem
    have hStarts : (fun o => decide ((deletion id o).StartsAt e)) = fun o =>
        decide (o.site = e.site) :=
      funext fun o => decide_eq_decide.mpr startsAt_deletion
    have hDeletions : deletions id (otherDirectives d)
        = ((otherDirectives d).filter (·.reachability != .disabled)).map (deletion id) := rfl
    rw [hDeletions, List.filter_map, Function.comp_def, hStarts, List.filter_comm, hPlace]
    by_cases hDisabled : e.reachability = .disabled
    · simp [hDisabled]
    · simp [hDisabled]
  · obtain ⟨e, he, rfl⟩ := List.mem_map.mp hx
    obtain ⟨hMem, hLive⟩ := List.mem_filter.mp he
    obtain ⟨hFirst, hNew⟩ := (mem_otherDirectives_iff hEvents hSite).mp hMem
    exact ⟨e, hFirst, hNew, bne_iff_ne.mp hLive, rfl⟩

/-- A use in a file that is read once stands alone. -/
theorem standsAlone_of_holdsOnce (hTokens : ∀ w ∈ c.usages, w.token ∈ u.tokens) (hw : w ∈ c.usages)
    (hOnce : u.HoldsOnce w.token.span.path) : StandsAlone c name w := by
  intro w' hw' hExtent _
  obtain ⟨hPath, hStart, -⟩ := Extent.mk.inj hExtent
  rw [hOnce.eq_of_start_eq (hTokens w' hw') (hTokens w hw) hPath rfl (Int.ofNat_inj.mp hStart)]

/-- Each use is respelled once if it stands alone. -/
theorem respellsUses (hTokens : ∀ w ∈ c.usages, w.token ∈ u.tokens)
    (hNames : ∀ w ∈ c.usages, w.token.spelling = c.name)
    (hOrder : (c.usages.map (·.token.position)).Nodup) :
    RespellsUses u c id name (usageEdits id c name) := by
  let needs (w : Usage) : Bool := spelling c name w ≠ c.name
  let shares (w w' : Usage) : Bool := extentOf w'.token.span = extentOf w.token.span
  have hEdits : usageEdits id c name = (c.usages.filter needs).map (respelling id c name) := by
    refine congrArg (List.map _) (List.filter_congr fun w hw => ?_)
    rw [hNames w hw, Bool.eq_iff_iff, bne_iff_ne, decide_eq_true_iff]
  have hPlace : ∀ w : Usage, (usageEdits id c name).filter (·.toExtent = extentOf w.token.span)
      = (c.usages.filter fun w' => needs w' && shares w w').map (respelling id c name) := by
    intro w
    rw [hEdits, List.filter_map, List.filter_filter]
    exact congrArg (List.map _) (List.filter_congr fun w' _ => Bool.and_comm _ _)
  refine ⟨fun w hw => ?_, fun w hw => standsAlone_of_holdsOnce hTokens hw, fun x hx => ?_⟩
  · rw [hPlace]
    constructor
    · intro hOnce w' hw' hExtent hNeeds
      have hHere : ∀ v ∈ c.usages, extentOf v.token.span = extentOf w.token.span →
          spelling c name v ≠ c.name → v ∈ c.usages.filter fun v => needs v && shares w v :=
        fun v hv hShares hNeeds =>
        List.mem_filter.mpr ⟨hv, by simp [needs, shares, hNeeds, hShares]⟩
      have hOther := hHere w' hw' hExtent hNeeds
      split at hOnce
      · rw [List.map_eq_nil_iff.mp hOnce] at hOther
        cases hOther
      · have hSelf := hHere w hw rfl ‹_›
        obtain ⟨v, hOne⟩ := List.length_eq_one_iff.mp (by simpa using congrArg List.length hOnce)
        rw [hOne, List.mem_singleton] at hOther hSelf
        rw [hOther, hSelf]
    · intro hAlone
      -- Behind `needs`, sharing the place is being the same use.
      have hSame : (c.usages.filter fun v => needs v && shares w v) = [w].filter needs := by
        rw [← filter_key_of_nodup hOrder hw, List.filter_filter]
        refine List.filter_congr fun v hv => ?_
        rw [Bool.eq_iff_iff, Bool.and_eq_true, Bool.and_eq_true, decide_eq_true_iff,
          decide_eq_true_iff, decide_eq_true_iff]
        refine and_congr_right fun hNeeds =>
          ⟨fun hExtent => hAlone v hv hExtent hNeeds, fun hPosition => ?_⟩
        rw [List.inj_on_of_nodup_map hOrder hv hw hPosition]
      rw [hSame]
      by_cases hKept : spelling c name w = c.name
      · simp [needs, hKept]
      · simp [needs, hKept]
  · rw [hEdits] at hx
    obtain ⟨w, hw, rfl⟩ := List.mem_map.mp hx
    obtain ⟨hMem, hNeeds⟩ := List.mem_filter.mp hw
    exact ⟨w, hMem, of_decide_eq_true hNeeds, rfl⟩

end Proposal

namespace Survey

variable {parse : List UInt8 → SyntaxNode} {settings : Settings} {u : CompilationUnit}
  {name : String} {d : ActiveSpan}

/-- The uses of a macro come in the order of their places. -/
theorem usages_pairwise (parse : List UInt8 → SyntaxNode) (settings : Settings)
    (u : CompilationUnit) (name : String) :
    ((ofUnit parse settings u).uses.usages name).Pairwise (·.token.position
      < ·.token.position) := by
  have hTokens : ((ofUnit parse settings u).uses.occurrences.map Occurrence.token).Pairwise
      (·.position < ·.position) := by
    have hAll : (ofUnit parse settings u).uses.occurrences.map Occurrence.token
        = (UsageIndex.liveCode u).filter fun t => t.isIdentifier && u.defines t.spelling :=
        Occurrence.map_token_all
    rw [hAll]
    exact (CompilationUnit.liveCode_pairwise u).filter _
  refine List.Pairwise.filterMap _ ?_ (List.pairwise_map.mp hTokens)
  intro o o' hLess w hw w' hw'
  cases o with
  | stray | unresolved => cases hw
  | usage v =>
      cases o' with
      | stray | unresolved => cases hw'
      | usage v' =>
          cases (Option.ite_none_right_eq_some.mp hw).2
          cases (Option.ite_none_right_eq_some.mp hw').2
          exact hLess

/-- A macro is classified by its first definition that has an effect. -/
theorem exists_isFirstDefinition (h : (ofUnit parse settings u).subject name = .ok d) :
    ∃ e : Event, e.IsFirstDefinition u.events name ∧ e.directive = .define d.definition := by
  obtain ⟨hMem, hLive⟩ := mem_definitions_of_subject h
  obtain ⟨hSpan, hName⟩ := name_of_mem_definitions hMem
  obtain ⟨e, he, hDefine, hPosition, hReach⟩ := MacroTable.exists_event_of_span hSpan
  have hDefines : e.Defines name := by
    refine ⟨?_, ?_⟩
    · rw [hDefine]
      rfl
    · rw [hDefine]
      exact hName
  exact ⟨e, ⟨he, hDefines, hReach ▸ hLive, fun o ho hOther hOtherLive =>
    hPosition ▸ subject_position_le h ho hOther hOtherLive⟩, hDefine⟩

end Survey

namespace Analysis

variable {parse : List UInt8 → SyntaxNode} {settings : Settings}
  {load : String → Except AccessFault (List UInt8)} {path : String} {text : Text} {a : Analysis}
  {p : Proposal}

/-- The edits of a proposal. The first one puts the declaration in the place of the first live
definition of the macro. Each other place of a directive about the macro is deleted by one edit
unless it is disabled, and each use that stands alone is changed by one edit if it needs another
spelling. Besides there is one insertion at most, that of a definition outside of a class. The tier
is none above that of the confidence. -/
theorem exists_edits_of_mem_proposals (h : ofText parse settings load path text = .ok a)
    (hp : p ∈ a.proposals) (hEdits : p.edits ≠ []) :
    ∃ c ∈ a.classifications, Proposal.ofClassification? settings (Proposal.identifiersOf a.unit) c
    = some p
      ∧ c.usages = (Survey.ofUnit parse settings a.unit).uses.usages p.macroName
      ∧ p.tier.rank ≤ (SafetyTier.ofConfidence c.confidence).rank
      ∧ ∃ first outside deletions respellings,
        p.ConsistsOf settings a.unit c first outside deletions respellings := by
  obtain ⟨hRead, hUnit⟩ := ofText_eq_ok h
  obtain ⟨c, hc, hProposal⟩ := mem_proposals hUnit hp
  obtain ⟨d, declaration, hMade⟩ := exists_isMadeFor hUnit hc hProposal hEdits
  have hOutcome := (Survey.exists_outcome (ofUnit_eq_ok hUnit).2.1 hc).2
  have hRests := restsOn_of_isMadeFor hMade hOutcome
  obtain ⟨first, hFirst, hDefine⟩ := Survey.exists_isFirstDefinition hMade.subject
  obtain ⟨_, -, -, hUsages, -⟩ := hOutcome.of_ne_blocked hMade.confidence
  have hName : Proposal.newName settings c = declaration.name :=
    (Declaration.name_of_ofClassification hMade.declared).1.symm
  have hEvents : ((Survey.ofUnit parse settings a.unit).record d).events
      = a.unit.events.filter (·.directive.name == c.name) := by
    rw [Survey.record, (Survey.exists_event_of_subject hMade.subject).1]
    exact congrArg (List.filter _) MacroTable.ofEvents_events
  have hOrder := (Survey.usages_pairwise parse settings a.unit c.name).imp Nat.ne_of_lt
  have hEq := hMade.eq
  subst hEq
  refine ⟨c, hc, hProposal, hUsages, ?_, first, declaration.outside, _, _, {
    defines := hFirst
    edits := ⟨declaration.text, rfl, by rw [hDefine]; rfl⟩
    inserts := fun x hx => ?_
    deletes := Proposal.deletesOthers hRead hEvents (by rw [Event.site, hDefine]; rfl)
    respells := by
      rw [hName]
      exact Proposal.respellsUses (fun w hw => CompilationUnit.mem_tokens_of_mem_codeTokens
        (hRests.used w hw).1)
        (fun w hw => (hRests.used w hw).2) (hUsages ▸ List.pairwise_map.mpr hOrder) }⟩
  · rw [Proposal.ofDeclaration, SafetyTier.rank_lower]
    exact Nat.min_le_left _ _
  · obtain ⟨hPattern, -, hPlace⟩ := Declaration.of_outside_eq_some hMade.declared hx
    obtain ⟨hId, hKind⟩ := Declaration.of_mem_outside hMade.declared x hx
    refine ⟨hPattern, hId, ?_⟩
    rcases hPlace with ⟨hAppend, -⟩ | ⟨hAppend, -, context, frame, stop, -, -, -, hExtent⟩
    · exact .inl hAppend
    · refine .inr ⟨⟨hAppend, by rw [hExtent]⟩, ?_⟩
      cases hReplace : x.kind with
      | replace => rfl
      | delete => exact absurd hReplace hKind
      | append => simp [Edit.isAppend, hReplace] at hAppend

/-- A macro that is renamed, with a redefinition and an `#undef` that go and an `#undef` that
stays. -/
theorem exists_edits_of_mem_proposals_renamed :
    ∃ a, ofText .scopeless { functionNaming := .camelCase } (fun _ => .error .notFound) "unit.cpp"
      "#define FN(x) (x)\nint y = FN(2);\n#define FN(x) (x)\n#if 0\n#undef FN\n#endif\n#undef FN\n"
        = .ok a
      ∧ ∃ p ∈ a.proposals, p.edits.map (fun x => (x.start, x.stop, x.kind))
          = [(0, 17, .replace), (33, 50, .delete), (74, 83, .delete), (26, 28, .replace)]
        ∧ ∃ c ∈ a.classifications,
          Proposal.ofClassification? { functionNaming :=
            .camelCase } (Proposal.identifiersOf a.unit) c = some p
          ∧ c.usages = (Survey.ofUnit .scopeless { functionNaming :=
            .camelCase } a.unit).uses.usages p.macroName
          ∧ p.tier.rank ≤ (SafetyTier.ofConfidence c.confidence).rank
          ∧ ∃ first outside deletions respellings,
            p.ConsistsOf { functionNaming :=
              .camelCase } a.unit c first outside deletions respellings := by
  refine Except.exists_of_passes (fun a => decide (∃ p ∈ a.proposals,
      p.edits.map (fun x => (x.start, x.stop, x.kind))
        = [(0, 17, .replace), (33, 50, .delete), (74, 83, .delete), (26, 28, .replace)]))
    (by decide +kernel) fun a h hTest => ?_
  obtain ⟨p, hp, hPlaces⟩ := of_decide_eq_true hTest
  have hEdits : p.edits ≠ [] := by
    intro hNone
    rw [hNone] at hPlaces
    cases hPlaces
  exact ⟨p, hp, hPlaces, exists_edits_of_mem_proposals h hp hEdits⟩

/-- A use in a file that is read twice is changed twice. -/
theorem exists_respelled_twice :
    ∃ a, ofText .scopeless { functionNaming := .camelCase }
      (Run.readFrom [("t.h", "int y = FN(2);\n")]) "unit.cpp"
        "#define FN(x) (x)\n#include \"t.h\"\n#include \"t.h\"\n" = .ok a
      ∧ ∃ p ∈ a.proposals, ∃ c ∈ a.classifications, c.name = p.macroName ∧ ∃ w ∈ c.usages,
        Proposal.spelling c "fn" w ≠ c.name
        ∧ p.edits.filter (·.toExtent = Proposal.extentOf w.token.span)
          = [Proposal.respelling p.id c "fn" w, Proposal.respelling p.id c "fn" w] :=
  Except.exists_of_passes
    (fun a => decide (∃ p ∈ a.proposals, ∃ c ∈ a.classifications, c.name = p.macroName
      ∧ ∃ w ∈ c.usages, Proposal.spelling c "fn" w ≠ c.name
      ∧ p.edits.filter (·.toExtent = Proposal.extentOf w.token.span)
        = [Proposal.respelling p.id c "fn" w, Proposal.respelling p.id c "fn" w]))
    (by decide +kernel) fun _ _ hTest => of_decide_eq_true hTest

end Analysis

end Demacro
