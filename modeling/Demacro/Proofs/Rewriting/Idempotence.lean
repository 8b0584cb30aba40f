import Demacro.Proofs.Plan.Emission
import Demacro.Proofs.Rewriting.Proposals
import Demacro.Proofs.Rewriting.Reweaving
import Demacro.Proofs.Selection.Scanning

/-!
Rewriting is done once. The plan of a unit of one text gives up every live directive about a macro
that is replaced, all its edits are attached to what they change, and the directives that stay are
read as before. So nothing defines the macro in the changed text, and nothing is proposed for it
again.
-/

namespace Demacro

/-- The tree of a file with a specialized class that starts at the offset 41. -/
def SyntaxNode.specialization (bytes : List UInt8) : SyntaxNode :=
  ⟨"translation_unit", 0, bytes.length, none, false,
    [⟨"template_declaration", 30, 81, none, false,
      [⟨"struct_specifier", 41, 80, none, false,
        [⟨"template_type", 48, 62, some "name", false, []⟩,
          ⟨"field_declaration_list", 63, 80, some "body", false, []⟩]⟩]⟩]⟩

/-- A class with a comment in its name, and a macro in it that a comment behind the class
mentions. -/
def Text.specialization : Text :=
  "template<class T> struct Foo;\ntemplate<> struct Foo<int // c\n> \x7b\n#define N 1.5\n\x7d; /*\n#define N 1.5\n*/\n"

/-- A macro that is defined twice, and another one. -/
def Text.repeated : Text :=
  "#define N 1\n#define SUM(x) ((x) + 2)\nint y = SUM(N);\n#define N 1\n"

open Token

/-- The line of a directive that edits change as a whole. -/
def IsGivenUp (edits : List Edit) (line : List Token) : Prop :=
  Directive.isLine line = true ∧ IsGone edits line

instance (edits : List Edit) : DecidablePred (IsGivenUp edits) :=
  fun _ => inferInstanceAs (Decidable (_ ∧ _))

/-- Only directives are found again. -/
theorem rowOf_isGivenUp {edits : List Edit} : rowOf (IsGivenUp edits) = rowOf (IsGone edits) := by
  funext line
  cases line with
  | nil => rfl
  | cons t ts =>
      have hLine : Directive.isLine (t :: ts) = t.isPunct "#" := by simp [Directive.isLine]
      simp only [rowOf, IsGivenUp, hLine]
      congr 1
      simp only [not_and, eq_iff_iff, and_congr_right_iff]
      exact fun hPunct => ⟨fun h => h hPunct, fun h _ => h⟩

/-- Two logical lines that start at the same place are one. -/
theorem Token.eq_of_mem_logicalLines {path : String} {text : Text} {tokens l l' : List Token}
    {t t' : Token} (hTokens : ofText path text = .ok tokens) (hl : l ∈ logicalLines tokens)
    (hl' : l' ∈ logicalLines tokens) (ht : t ∈ l) (ht' : t' ∈ l')
    (hStart : t.span.start = t'.span.start) : t = t' ∧ l = l' := by
  have hPairwise := (pairwise_of_ofTextAt hTokens).2
  obtain rfl : t = t' := by
    by_contra hNe
    rcases hPairwise.or_of_ne (mem_of_mem_logicalLines hl ht) (mem_of_mem_logicalLines hl' ht')
      hNe with h | h <;> omega
  refine ⟨rfl, ?_⟩
  by_contra hNe
  rw [← flatten_logicalLines tokens] at hPairwise
  have hNodup : (logicalLines tokens).flatten.Nodup := hPairwise.imp fun {x y} hLess hSame => by
    rw [hSame] at hLess
    omega
  rcases (List.nodup_flatten.mp hNodup).2.or_of_ne hl hl' hNe with hApart | hApart
  · exact hApart ht ht'
  · exact hApart ht' ht

/-- The name that a directive is about, if it has one operand. -/
theorem Directive.name_eq_of_operands {keyword : String} {first : Token} {rest : List Token}
    {d : Directive} {name : Text} (h : ofLine? keyword first rest = some (.ok d))
    (hOperands : (split (first :: rest)).2.map lexeme = [name]) : d.name = name.display := by
  obtain ⟨t, hSplit, rfl⟩ : ∃ t, (split (first :: rest)).2 = [t] ∧ t.lexeme = name := by
    simpa [List.map_eq_cons_iff] using hOperands
  unfold ofLine? at h
  split at h
  · rw [Option.some.injEq, Except.map_eq_ok_iff] at h
    obtain ⟨definition, hDefinition, rfl⟩ := h
    unfold define? at hDefinition
    simp only [hSplit] at hDefinition
    split at hDefinition
    · cases hDefinition
    split at hDefinition
    · cases hDefinition
    · cases hDefinition
      rfl
  split at h
  · rw [Option.some.injEq, Except.map_eq_ok_iff] at h
    obtain ⟨_, hName, rfl⟩ := h
    unfold undef? at hName
    simp only [hSplit] at hName
    split at hName
    · cases hName
      rfl
    · cases hName
  · cases h

theorem Directive.isMacroLine_of_ofLine? {first t : Token} {rest : List Token} {ts : List Token}
    {d : Directive} (h : ofLine? (split (first :: rest)).1 t ts = some (.ok d)) :
    Reading.IsMacroLine (first :: rest) := by
  unfold ofLine? at h
  split at h
  · rename_i hDefine
    exact .inl hDefine
  split at h
  · rename_i hUndef
    exact .inr hUndef
  · cases h

namespace CompilationUnit

variable {u : CompilationUnit} {path : String} {text : Text} {tokens : List Token} {e e' : Event}

/-- In a unit of one text no file is scanned twice. -/
theorem scannedOnce_of_read (hRead : read path text none = .ok u) (file : String) :
    u.ScannedOnce file := by
  obtain ⟨tokens, hTokens, -⟩ := exists_tokens hRead
  have hText : (Token.ofText path text).toOption = some (u.tokens.map PlacedToken.toToken) := by
    rw [tokens_eq hRead hTokens, hTokens]
    rfl
  refine scannedOnce_of_single (fun t ht => ?_) hText file
  have hMem : t.toToken ∈ tokens := by
    rw [← tokens_eq hRead hTokens]
    exact List.mem_map_of_mem ht
  exact ((pairwise_of_ofTextAt hTokens).1 _ hMem).1

/-- A directive is known by its place. -/
theorem eq_of_site_eq (hRead : read path text none = .ok u) (he : e ∈ u.events)
    (he' : e' ∈ u.events) (h : e.site = e'.site) : e = e' := by
  obtain ⟨hPath, hStart⟩ := Prod.mk.inj h
  obtain ⟨t, _, hCovers, hFirst, -⟩ := exists_covers_of_mem_events hRead he
  obtain ⟨t', _, hCovers', hFirst', -⟩ := exists_covers_of_mem_events hRead he'
  have hOnce := scannedOnce_of_read hRead e.directive.span.path
  have hFirstPath : t'.span.path = e.directive.span.path := hCovers'.firstPath.trans hPath.symm
  have hSame : t.span.start = t'.span.start := by
    have hFrom := hCovers.start
    have hFrom' := hCovers'.start
    simp only [Proposal.extentOf] at hFrom hFrom'
    omega
  have hRoom := hOnce.start_lt_stop hCovers.first hCovers.firstPath
  have hRoom' := hOnce.start_lt_stop hCovers'.first hFirstPath
  obtain rfl : t = t' := by
    by_contra hNe
    rcases (tokens_pairwise u).or_of_ne hCovers.first hCovers'.first hNe with hLess | hLess
    · have hApart :=
        hOnce.stop_le_start hCovers.first hCovers'.first hCovers.firstPath hFirstPath hLess
      omega
    · have hApart :=
        hOnce.stop_le_start hCovers'.first hCovers.first hFirstPath hCovers.firstPath hLess
      omega
  by_contra hNe
  rcases (events_inOrder u).apart.or_of_ne he he' hNe with hLess | hLess
  · have hForward := (events_inOrder u).forward e he
    omega
  · have hForward := (events_inOrder u).forward e' he'
    omega

/-- A live definition stands on a line that defines its name. -/
theorem exists_line_of_mem_liveDefinitions {d : Definition} {name : String}
    (hd : d ∈ (MacroTable.ofEvents u.events).liveDefinitions name) :
    ∃ line ∈ u.lines, line.Defines name := by
  obtain ⟨e, he, hDefine, hName, hLive⟩ := MacroTable.mem_liveDefinitions_ofEvents.mp hd
  obtain ⟨l, hl, keyword, unresolved, hRole, -, -, hReach⟩ := exists_line_of_mem_events he
  refine ⟨l.2, mem_of_mem_numbered hl, hReach ▸ hLive, keyword, e.directive, unresolved, hRole, ?_⟩
  rw [hDefine]
  exact ⟨rfl, hName⟩

/-- A line that defines a name is that of a live directive. -/
theorem exists_event_of_defines (hRead : read path text none = .ok u) {line : UnitLine}
    {name : String} (hLine : line ∈ u.lines) (h : line.Defines name) :
    ∃ e ∈ u.events, e.directive.name = name
      ∧ e.reachability ≠ .disabled ∧ line.first.isPunct "#" = true
      ∧ e.directive.span = Directive.lineSpan line.first line.rest := by
  obtain ⟨hLive, keyword, d, unresolved, hRole, -, hName⟩ := h
  obtain ⟨n, hPlaced⟩ := exists_numbered (n := 0) hLine
  have hSpells := (written_of_mem_lines hRead hLine).role
  rw [hRole] at hSpells
  cases hSpells with
  | change hPunct hOfLine =>
      refine ⟨⟨d, n, n + line.rest.length, line.reachability⟩, List.mem_filterMap.mpr
        ⟨(n, line), hPlaced, ?_⟩, hName, hLive, hPunct, (Directive.ofLine?_eq_ok hOfLine).1⟩
      dsimp only
      rw [hRole]

/-- The include guard of the text is one of the unit. -/
theorem display_mem_guards (hRead : read path text none = .ok u)
    (hTokens : Token.ofText path text = .ok tokens) {guard : Text}
    (hGuard : Reading.includeGuard? (logicalLines tokens) = some guard) :
    guard.display ∈ u.guards.map Prod.snd := by
  obtain ⟨r, hFile, h⟩ := Except.bind_eq_ok_iff.mp hRead
  cases h
  rw [show maxIncludeDepth = 63 + 1 from rfl, Reading.addFileWithin] at hFile
  obtain ⟨_, last, hText, hLines, rfl⟩ := Reading.addFile_eq_ok hFile
  obtain rfl := Except.ok.inj (hTokens.symm.trans hText)
  obtain ⟨-, -, hGuards, -⟩ := Reading.addLines_scanned
    (by simpa using Reading.addFileWithin_keeps_lines none 63)
    (fun hSome => absurd hSome (by simp))
    (fun hSome => Reading.isGuard_head (Option.isSome_iff_exists.mp hSome).choose_spec) hLines
  have hLast : ∀ (b : Bool) (r : Reading), (if b then r.addOnce path else r).guards = r.guards := by
    intro b r
    cases b <;> rfl
  dsimp only
  rw [hLast, hGuards]
  simp [Reading.started, hGuard, assign]

end CompilationUnit

namespace Analysis

variable {parse : List UInt8 → SyntaxNode} {settings : Settings} {a : Analysis} {path : String}
  {text : Text} {tokens : List Token} {p q : Proposal} {x y : Edit} {e : Event}

theorem mem_admitted_of_mem_plan (hUnit : ofUnit parse settings a.unit = .ok a)
    (hp : p ∈ a.plan.proposals) : p ∈ EditPlan.admitted settings.minimumTier a.proposals := by
  rw [(ofUnit_eq_ok hUnit).2.2.2] at hp
  obtain ⟨hMem, hRefusal⟩ := EditPlan.mem_build hp
  exact List.mem_filter.mpr ⟨hMem, by rw [hRefusal]; rfl⟩

theorem applicable_plan (hUnit : ofUnit parse settings a.unit = .ok a) : a.plan.Applicable := by
  rw [(ofUnit_eq_ok hUnit).2.2.2]
  exact (EditPlan.applicable_assemble (EditPlan.admitted settings.minimumTier a.proposals) []
    []).congr rfl

/-- The plan makes a change exactly if the first proposal that asks for it is in the plan. -/
theorem makes_plan_iff (hUnit : ofUnit parse settings a.unit = .ok a)
    {change : Extent × Text × EditKind} :
    a.plan.Makes change ↔
    ∃ q, EditPlan.asking? (EditPlan.admitted settings.minimumTier a.proposals) change = some q
      ∧ q.id ∈ a.plan.emitted := by
  have hPlan := (ofUnit_eq_ok hUnit).2.2.2
  have hOwn := fun p hp => ownsEdits_of_mem_admitted (p := p) hUnit hp
  rw [show a.plan.Makes change ↔
    (EditPlan.assemble (EditPlan.admitted settings.minimumTier a.proposals) [] []).Makes change
    by rw [hPlan]; rfl, EditPlan.makes_assemble_iff hOwn]
  rw [hPlan]
  rfl

/-- The edits of the plan in a file are those of its proposals. -/
theorem of_mem_editsFor (hUnit : ofUnit parse settings a.unit = .ok a)
    (hx : x ∈ a.plan.editsFor path) : x.path = path ∧ ∃ p ∈ a.plan.proposals, x ∈ p.edits := by
  obtain ⟨hMem, hPath⟩ := ((applicable_plan hUnit).mem_editsFor path x).mp hx
  have hOwn := fun p hp => ownsEdits_of_mem_admitted (p := p) hUnit hp
  have hEmission : a.plan.Emission (EditPlan.admitted settings.minimumTier a.proposals) [] := by
    rw [(ofUnit_eq_ok hUnit).2.2.2]
    exact (EditPlan.emission_assemble [] [] hOwn (by simp)).congr rfl rfl
  exact ⟨hPath, hEmission.owned x hMem⟩

section

variable (hRead : CompilationUnit.read path text none = .ok a.unit)
  (hUnit : ofUnit parse settings a.unit = .ok a)

include hRead hUnit

/-- A change of what stands in the text is asked for by one proposal. -/
theorem eq_of_change_eq (hp : p ∈ EditPlan.admitted settings.minimumTier a.proposals)
    (hq : q ∈ EditPlan.admitted settings.minimumTier a.proposals) (hx : x ∈ p.edits)
    (hy : y ∈ q.edits) (hChange : x.change = y.change) (hAppend : x.isAppend = false)
    (hRange : x.start < x.stop) : p = q := by
  obtain ⟨c, hc, hConfidence, d, declaration, hDefinition, hRests, rfl⟩ :=
    exists_restsOn_of_mem_admitted hUnit hp
  obtain ⟨c', hc', hConfidence', d', declaration', hDefinition', hRests', rfl⟩ :=
    exists_restsOn_of_mem_admitted hUnit hq
  obtain ⟨hSame, -, hKind⟩ : x.toExtent = y.toExtent ∧ x.text = y.text ∧ x.kind = y.kind := by
    simpa [Edit.change] using hChange
  have hAppend' : y.isAppend = false := by rwa [Edit.isAppend, ← hKind]
  have hOverlaps : x.overlaps y = true := by
    simp [Edit.overlaps, Extent.isEmpty, ← hSame, hAppend, hAppend', hRange, hRange.ne]
  cases hRests.reaches hx with
  | appended hEnd =>
      rw [hAppend] at hEnd
      cases hEnd
  | inserted _ _ _ hExtent =>
      rw [hExtent] at hRange
      exact absurd hRange (lt_irrefl _)
  | changed target hIn hName hExtent _ =>
      cases hRests'.reaches hy with
      | appended hEnd =>
          rw [hAppend'] at hEnd
          cases hEnd
      | inserted _ _ _ hExtent' =>
          rw [hSame, hExtent'] at hRange
          exact absurd hRange (lt_irrefl _)
      | changed target' hIn' hName' hExtent' _ =>
          obtain rfl := Proposal.eq_of_overlaps hRead
            (CompilationUnit.scannedOnce_of_read hRead x.path) hIn hIn' hExtent hExtent' hOverlaps
          obtain rfl := Survey.eq_of_name_eq (Survey.namesDefinitions_ofUnit parse settings a.unit)
            (ofUnit_eq_ok hUnit).2.1 hc hc' hConfidence hConfidence' (hName.symm.trans hName')
          obtain rfl := Option.some.inj (hDefinition.symm.trans hDefinition')
          obtain rfl := Except.ok.inj (hRests.declared.symm.trans hRests'.declared)
          rfl

/-- What a proposal of the plan changes in the text, the plan does change. -/
theorem exists_edit_of_mem_edits (hp : p ∈ a.plan.proposals) (hx : x ∈ p.edits)
    (hAppend : x.isAppend = false) (hRange : x.start < x.stop) :
    ∃ y ∈ a.plan.editsFor x.path, y.toExtent = x.toExtent := by
  have hAdmitted := mem_admitted_of_mem_plan hUnit hp
  obtain ⟨q, hq⟩ := EditPlan.exists_asking hAdmitted hx
  have hAsks : q.edits.any (decide <| ·.change = x.change) = true :=
    List.find?_some (p := fun p : Proposal => p.edits.any (decide <| ·.change = x.change)) hq
  obtain ⟨z, hz, hSame⟩ := List.any_eq_true.mp hAsks
  obtain rfl := eq_of_change_eq hRead hUnit hAdmitted (EditPlan.mem_of_asking? hq) hx hz
    (of_decide_eq_true hSame).symm hAppend hRange
  obtain ⟨y, hy, hChange⟩ := (makes_plan_iff hUnit).mpr ⟨p, hq, List.mem_map_of_mem hp⟩
  have hExtent : y.toExtent = x.toExtent := congrArg Prod.fst hChange
  exact ⟨y, ((applicable_plan hUnit).mem_editsFor _ y).mpr ⟨hy, by rw [hExtent]⟩, hExtent⟩

/-- A proposal of the plan changes every live directive about its macro. -/
theorem exists_change_of_live (hp : p ∈ a.plan.proposals) (he : e ∈ a.unit.events)
    (hName : e.directive.name = p.macroName) (hLive : e.reachability ≠ .disabled) :
    ∃ x ∈ p.edits, x.isAppend = false ∧ x.toExtent = Proposal.extentOf e.directive.span := by
  obtain ⟨c, hc, d, declaration, hMade⟩ := exists_classification_of_mem_plan hUnit hp
  have hRests := restsOn_of_isMadeFor hMade (Survey.exists_outcome (ofUnit_eq_ok hUnit).2.1 hc).2
  by_cases hSite : e.site = (d.definition.span.path, d.definition.span.start)
  · -- The definition that the proposal rests on is replaced by the declaration.
    obtain ⟨o, ho, hDefine⟩ := hRests.defined
    obtain rfl := CompilationUnit.eq_of_site_eq hRead he (hRests.events o ho).1
      (hSite.trans (by rw [Event.site, hDefine]; rfl))
    exact ⟨_, by rw [hMade.eq]; exact List.mem_cons_self, rfl, by rw [hDefine]; rfl⟩
  · -- Every other directive is deleted.
    have hRecorded : e ∈ ((Survey.ofUnit parse settings a.unit).record d).events := by
      rw [Survey.mem_events_record, (Survey.exists_event_of_subject hMade.subject).1, hName,
        hMade.eq]
      exact ⟨he, rfl⟩
    have hOther : e.site ∉ [(d.definition.span.path, d.definition.span.start)] := by
      simpa using hSite
    obtain ⟨o, ho, hSame⟩ := Proposal.exists_mem_otherSites hRecorded hOther
    obtain rfl := CompilationUnit.eq_of_site_eq hRead
      (Survey.mem_events_record.mp (Proposal.mem_of_mem_otherSites ho)).1 he hSame
    have hDeleted := ((Proposal.mem_edits_delete_iff hRests.declared).mpr ⟨o, ho, hLive, rfl⟩).1
    rw [← hMade.eq] at hDeleted
    exact ⟨_, hDeleted, rfl, rfl⟩

/-- The plan changes every live directive about a macro that is replaced. -/
theorem exists_edit_of_live (hp : p ∈ a.plan.proposals) (he : e ∈ a.unit.events)
    (hName : e.directive.name = p.macroName) (hLive : e.reachability ≠ .disabled) :
    ∃ x ∈ a.plan.editsFor path, x.toExtent = Proposal.extentOf e.directive.span := by
  obtain ⟨x, hx, hAppend, hExtent⟩ := exists_change_of_live hRead hUnit hp he hName hLive
  obtain ⟨_, _, hCovers, -⟩ := CompilationUnit.exists_covers_of_mem_events hRead he
  have hRange := hCovers.lt (CompilationUnit.scannedOnce_of_read hRead _)
  obtain ⟨tokens, hTokens, -⟩ := CompilationUnit.exists_tokens hRead
  obtain ⟨y, hy, hSame⟩ := exists_edit_of_mem_edits hRead hUnit hp hx hAppend (by rwa [hExtent])
  refine ⟨y, ?_, hSame.trans hExtent⟩
  rwa [hExtent, Proposal.extentOf, CompilationUnit.path_of_mem_events hRead hTokens he] at hy

variable (hTokens : Token.ofText path text = .ok tokens)

include hTokens

/-- An edit of a whole directive line gives a directive up that is about a macro that is
replaced. -/
theorem exists_event_of_isGivenUp (hAppend : ∀ x ∈ a.plan.editsFor path, x.isAppend = false)
    {line : List Token} (hLine : line ∈ logicalLines tokens)
    (hGone : IsGivenUp (a.plan.editsFor path) line) :
    ∃ p ∈ a.plan.proposals, ∃ e ∈ a.unit.events, e.directive.name = p.macroName
    ∧ ∃ t ts, line = t :: ts
      ∧ Directive.ofLine? (Directive.split (t :: ts)).1 t ts = some (.ok e.directive) := by
  obtain ⟨hDirective, hChanged⟩ := hGone
  cases line with
  | nil => cases hDirective
  | cons t ts =>
  obtain ⟨x, hx, hStart, hStop⟩ := hChanged
  obtain ⟨-, p, hp, hMem⟩ := of_mem_editsFor hUnit hx
  obtain ⟨c, hc, d, declaration, hMade⟩ := exists_classification_of_mem_plan hUnit hp
  have hRests := restsOn_of_isMadeFor hMade (Survey.exists_outcome (ofUnit_eq_ok hUnit).2.1 hc).2
  have hMacro : p.macroName = c.name := congrArg Proposal.macroName hMade.eq
  cases hRests.reaches (hMade.eq ▸ hMem) with
  | appended hEnd =>
      rw [hAppend x hx] at hEnd
      cases hEnd
  | inserted _ _ _ hExtent =>
      have hRoom := lt_of_line (lexed_of_ofTextAt hTokens) (by
        rwa [(takeWhile_continues (head_of_ofTextAt hTokens rfl)).2])
      rw [hExtent] at hStart hStop
      dsimp only at hStart hStop
      omega
  | changed target hIn hName hExtent _ =>
      cases target with
      | directive e =>
          obtain ⟨f, rest, hOther, -, hOfLine⟩ :=
            CompilationUnit.exists_directive_line hRead hTokens hIn
          have hSame : f.span.start = t.span.start := by
            rw [hExtent, EditTarget.extent, (Directive.ofLine?_eq_ok hOfLine).1] at hStart
            exact Int.ofNat_inj.mp hStart
          obtain ⟨rfl, hLines⟩ :=
            Token.eq_of_mem_logicalLines hTokens hOther hLine List.mem_cons_self List.mem_cons_self
              hSame
          exact ⟨p, hp, e, hIn, hName.trans hMacro.symm, f, ts, rfl, (List.cons.inj hLines).2 ▸
            hOfLine⟩
      | name v =>
          obtain ⟨other, hOther, hPlain, hv⟩ := CompilationUnit.exists_plain_line hRead hTokens hIn
          rw [hExtent] at hStart
          have hLines := (Token.eq_of_mem_logicalLines hTokens hOther hLine hv List.mem_cons_self
            (Int.ofNat_inj.mp hStart)).2
          rw [hLines, hDirective] at hPlain
          cases hPlain

/-- The edits of the plan in the text are attached to its tokens. -/
theorem attached_of_mem_editsFor
    (hCompanion : isHeader path = true → Path.withoutSuffix path ++ settings.companionSuffix ≠ path)
    (hMovable : ∀ p ∈ a.plan.proposals, a.Movable p.macroName) (hx : x ∈ a.plan.editsFor path) :
    x.isAppend = false ∧ x.Attached tokens tokens (.line true) := by
  obtain ⟨hPath, p, hp, hMem⟩ := of_mem_editsFor hUnit hx
  obtain ⟨c, hc, d, declaration, hMade⟩ := exists_classification_of_mem_plan hUnit hp
  have hMovable := hMovable p hp
  rw [show p.macroName = c.name from congrArg Proposal.macroName hMade.eq] at hMovable
  exact hMade.attached hRead hTokens (Survey.exists_outcome (ofUnit_eq_ok hUnit).2.1 hc).2
    (hMade.isClosed_text hRead hTokens hMovable.literals) (hMovable.scopes c hc rfl) hCompanion
    hMem hPath

end

/-- What gets a proposal has a live definition. -/
theorem liveDefinitions_ne_nil_of_mem_proposals (hUnit : ofUnit parse settings a.unit = .ok a)
    (hq : q ∈ a.proposals) :
    (MacroTable.ofEvents a.unit.events).liveDefinitions q.macroName ≠ [] := by
  obtain ⟨c, hc, hProposal⟩ := mem_proposals hUnit hq
  obtain ⟨hClassified, hName, -⟩ := Proposal.of_ofClassification? hProposal
  obtain ⟨d, hSubject⟩ :=
    (Survey.exists_outcome (ofUnit_eq_ok hUnit).2.1 hc).2.exists_subject hClassified
  obtain ⟨hDefinition, hLive⟩ := Survey.mem_definitions_of_subject hSubject
  rw [hName]
  exact List.ne_nil_of_mem (MacroTable.mem_liveDefinitions_iff_exists_span.mpr
    ⟨d, hDefinition, rfl, hLive⟩)

/-- Rewriting is done once. If what stands for the macros can be written elsewhere, and nothing is
put at the end of the text, then the text with the edits of the plan is scanned, it has no live
definition of a macro that is replaced, and nothing is proposed for such a macro again. -/
theorem rewrites_once {load : String → Except AccessFault (List UInt8)}
    (h : ofText parse settings load path text = .ok a) (hSingle : settings.followIncludes = false)
    (hCompanion : isHeader path = true → Path.withoutSuffix path ++ settings.companionSuffix ≠ path)
    (hMovable : ∀ p ∈ a.plan.proposals, a.Movable p.macroName) :
    ∃ text' u, Edit.applyAll text (a.plan.editsFor path) = .ok text'
    ∧ CompilationUnit.read path text' none = .ok u
      ∧ ∀ p ∈ a.plan.proposals, (MacroTable.ofEvents u.events).liveDefinitions p.macroName = []
        ∧ ∀ parse' a', ofText parse' settings load path text' = .ok a' →
        ∀ q ∈ a'.proposals, q.macroName ≠ p.macroName := by
  have hSearch : search? settings load = none := by simp [search?, hSingle]
  obtain ⟨hRead, hUnit⟩ := ofText_eq_ok h
  rw [hSearch] at hRead
  obtain ⟨tokens, hTokens, -⟩ := CompilationUnit.exists_tokens hRead
  have hAttached := fun x hx => attached_of_mem_editsFor (x := x) hRead hUnit hTokens hCompanion
    hMovable hx
  obtain ⟨text', hApplied, tokens', hTokens', hTracks⟩ := exists_ofText_applyAll hTokens
    (fun x hx => (of_mem_editsFor hUnit hx).1) (fun x hx => (hAttached x hx).1)
    ((applicable_plan hUnit).apart path) fun x hx => (hAttached x hx).2
  rw [← rowOf_isGivenUp] at hTracks
  -- What is gone are directives about macros that are replaced, and none of these is an include
  -- guard.
  have hEvent := fun line (hLine : line ∈ logicalLines tokens) =>
    exists_event_of_isGivenUp hRead hUnit hTokens (fun x hx => (hAttached x hx).1) hLine
  have hGone : ∀ line ∈ logicalLines tokens, IsGivenUp (a.plan.editsFor path) line →
      Reading.IsMacroLine line := by
    intro line hLine hGone
    obtain ⟨_, -, e, -, -, t, ts, rfl, hOfLine⟩ := hEvent line hLine hGone
    exact Directive.isMacroLine_of_ofLine? hOfLine
  have hStays : ∀ guard, Reading.includeGuard? (logicalLines tokens) = some guard →
    ∀ line ∈ logicalLines tokens,
      (Directive.split line).2.map lexeme = [guard] → ¬IsGivenUp (a.plan.editsFor path) line := by
    intro guard hGuard line hLine hName hGone
    obtain ⟨p, hp, e, -, hMacro, t, ts, rfl, hOfLine⟩ := hEvent line hLine hGone
    obtain ⟨c, -, d, declaration, hMade⟩ := exists_classification_of_mem_plan hUnit hp
    refine Survey.not_guard_of_subject hRead hMade.subject ?_
    rw [← show p.macroName = c.name from congrArg Proposal.macroName hMade.eq, ← hMacro,
      Directive.name_eq_of_operands hOfLine hName]
    exact CompilationUnit.display_mem_guards hRead hTokens hGuard
  obtain ⟨u, hRead', hDefines⟩ :=
    CompilationUnit.exists_read hTokens hTokens' hTracks hGone hStays hRead
  refine ⟨text', u, hApplied, hRead', fun p hp => ?_⟩
  have hNone : (MacroTable.ofEvents u.events).liveDefinitions p.macroName = [] := by
    refine List.eq_nil_iff_forall_not_mem.mpr fun d hd => ?_
    obtain ⟨line', hLine', hDefines'⟩ := CompilationUnit.exists_line_of_mem_liveDefinitions hd
    obtain ⟨line, hLine, hDefined, hKept⟩ := hDefines line' hLine' p.macroName hDefines'
    obtain ⟨e, he, hName, hLive, hPunct, hSpan⟩ :=
      CompilationUnit.exists_event_of_defines hRead hLine hDefined
    obtain ⟨x, hx, hExtent⟩ := exists_edit_of_live hRead hUnit hp he hName hLive
    rw [hSpan] at hExtent
    exact hKept ⟨by
      simpa [Directive.isLine] using hPunct, x, hx, by rw [hExtent]; rfl, by rw [hExtent]; rfl⟩
  refine ⟨hNone, fun parse' a' hAgain q hq hSame => ?_⟩
  obtain ⟨hReadAgain, hUnitAgain⟩ := ofText_eq_ok hAgain
  rw [hSearch, hRead', Except.ok.injEq] at hReadAgain
  subst hReadAgain
  exact liveDefinitions_ne_nil_of_mem_proposals hUnitAgain hq (hSame ▸ hNone)

/-- Two macros are replaced, and both definitions of the first one are gone. -/
theorem rewrites_once_repeated :
    ∃ a, ofText .scopeless { followIncludes := false } (fun _ =>
      .error .notFound) "a.cpp" .repeated = .ok a
      ∧ (∃ p ∈ a.plan.proposals, p.macroName = "N")
      ∧ ∃ text' u, Edit.applyAll .repeated (a.plan.editsFor "a.cpp") = .ok text'
        ∧ CompilationUnit.read "a.cpp" text' none = .ok u
        ∧ (MacroTable.ofEvents u.events).liveDefinitions "N" = [] := by
  refine Except.exists_of_passes (fun a => decide (∃ p ∈ a.plan.proposals, p.macroName = "N")
    && decide (∀ p ∈ a.plan.proposals, a.Movable p.macroName)) (by decide +kernel) fun a h hTest =>
    ?_
  simp only [Bool.and_eq_true, decide_eq_true_eq] at hTest
  obtain ⟨⟨p, hp, hName⟩, hMovable⟩ := hTest
  obtain ⟨text', u, hApplied, hRead, hDone⟩ :=
    rewrites_once h rfl (fun hHeader => absurd hHeader (by decide)) hMovable
  exact ⟨⟨p, hp, hName⟩, text', u, hApplied, hRead, hName ▸ (hDone p hp).1⟩

/-- The comment in the name of a class goes with it to the definition behind the class, where it
takes away the start of the comment that follows. So the definition in that comment comes to
life. -/
theorem not_rewrites_once_specialization :
    ∃ a, ofText .specialization { followIncludes := false } (fun _ => .error .notFound) "unit.cpp"
      .specialization = .ok a
      ∧ ∃ text', Edit.applyAll .specialization (a.plan.editsFor "unit.cpp") = .ok text'
      ∧ ∃ u, CompilationUnit.read "unit.cpp" text' none = .ok u
      ∧ ∃ p ∈ a.plan.proposals, (MacroTable.ofEvents u.events).liveDefinitions p.macroName
      ≠ [] := by
  refine Except.exists_of_passes
      (fun a => (Edit.applyAll .specialization (a.plan.editsFor "unit.cpp")).passes fun text' =>
    (CompilationUnit.read "unit.cpp" text' none).passes fun u =>
      decide (∃ p ∈ a.plan.proposals, (MacroTable.ofEvents u.events).liveDefinitions p.macroName
        ≠ []))
    (by decide +kernel) fun a _ hTest => ?_
  refine Except.exists_of_passes _ hTest fun text' _ hTest => ?_
  exact Except.exists_of_passes _ hTest fun u _ hTest => of_decide_eq_true hTest

end Analysis

end Demacro
