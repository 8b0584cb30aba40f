import Demacro.Proofs.Diagnostics
import Demacro.Proofs.Lines

/-!
No macro is dropped without a word. Whatever keeps a macro out of a plan, on its own or in a merge,
the report of the plan gives a reason under the name of the macro. The name of a proposal can be
read off its identifier, as no name of a macro holds a colon.
-/

namespace Demacro

/-- What stands behind the last colon. -/
theorem eq_of_append_colon {xs ys xs' ys' : List Char} (h : xs ++ ':' :: ys = xs' ++ ':' :: ys')
    (hys : ':' ∉ ys) (hys' : ':' ∉ ys') : xs = xs' ∧ ys = ys' := by
  have hCut : ∀ zs ws : List Char, ':' ∉ zs → (zs ++ ':' :: ws).takeWhile (· != ':') = zs := by
    intro zs ws hzs
    rw [List.takeWhile_append_of_pos, List.takeWhile_cons_of_neg (by simp), List.append_nil]
    intro c hc
    rw [bne_iff_ne]
    rintro rfl
    exact hzs hc
  have hReverse := congrArg List.reverse h
  simp only [List.reverse_append, List.reverse_cons, List.append_assoc,
    List.singleton_append] at hReverse
  have hSame : ys = ys' := by
    have hCuts := congrArg (List.takeWhile (· != ':')) hReverse
    rw [hCut _ _ (by simpa using hys), hCut _ _ (by simpa using hys')] at hCuts
    exact List.reverse_injective hCuts
  subst hSame
  exact ⟨List.append_cancel_right h, rfl⟩

namespace ProposalId

theorem toList_text (id : ProposalId) : id.text.toList = (id.path.toList ++ [':'] ++ ':' ::
    (id.macroName.toList)) ++ [':'] ++ ':' :: id.pattern.toList ++ [':'] ++ ':' :: 'L' ::
      (toString (id.line : Int)).toList := by
  simp [text, textOf, QualifiedName.ofComponents, List.intercalate]

/-- The digits of a line number are no colons. -/
theorem colon_notMem_line (n : Nat) : ':' ∉ 'L' :: (toString (n : Int)).toList := by
  rw [List.mem_cons, not_or]
  refine ⟨by decide, fun hMem => ?_⟩
  have hDigits : (toString (n : Int)).toList = Nat.toDigits 10 n := Nat.toList_repr
  rw [hDigits] at hMem
  exact absurd (Nat.isDigit_of_mem_toDigits (by decide) (by decide) hMem) (by decide)

/-- If neither names nor patterns hold a colon, an identifier is that of one macro. -/
theorem macroName_eq_of_text_eq {id id' : ProposalId} (h : id.text = id'.text)
    (hName : ':' ∉ id.macroName.toList) (hName' : ':' ∉ id'.macroName.toList)
    (hPattern : ':' ∉ id.pattern.toList) (hPattern' : ':' ∉ id'.pattern.toList) :
    id.macroName = id'.macroName := by
  have hList := congrArg String.toList h
  rw [toList_text, toList_text] at hList
  obtain ⟨hList, -⟩ := eq_of_append_colon hList (colon_notMem_line _) (colon_notMem_line _)
  obtain ⟨hList, -⟩ := eq_of_append_colon (List.append_cancel_right hList) hPattern hPattern'
  obtain ⟨-, hNames⟩ := eq_of_append_colon (List.append_cancel_right hList) hName hName'
  exact String.toList_injective hNames

end ProposalId

/-- The macro of a proposal can be read off its identifier. -/
def Proposal.IsNamed (p : Proposal) : Prop :=
  ∃ id : ProposalId, p.id = id.text ∧ p.macroName = id.macroName
    ∧ ':' ∉ id.macroName.toList ∧ ':' ∉ id.pattern.toList

theorem Proposal.IsNamed.macroName_eq {p q : Proposal} (hp : p.IsNamed) (hq : q.IsNamed)
    (h : p.id = q.id) : p.macroName = q.macroName := by
  obtain ⟨id, hId, hMacro, hName, hPattern⟩ := hp
  obtain ⟨id', hId', hMacro', hName', hPattern'⟩ := hq
  rw [hMacro, hMacro']
  exact ProposalId.macroName_eq_of_text_eq (hId.symm.trans (h.trans hId')) hName hName' hPattern
    hPattern'

theorem Pattern.colon_notMem_name (p : Pattern) : ':' ∉ p.name.toList := by
  cases p <;> decide

/-- The name of an identifier holds no colon. -/
theorem Token.colon_notMem_spelling {path : String} {text : Text} {tokens : List Token}
    (h : ofText path text = .ok tokens) {t : Token} (ht : t ∈ tokens)
    (hIdentifier : t.isIdentifier = true) : ':' ∉ t.spelling.toList := by
  rw [spelling, Text.display, String.toList_ofList, List.mem_flatMap]
  rintro ⟨c, hc, hColon⟩
  have hWord := isWord_of_mem_lexeme h ht hIdentifier c hc
  cases c with
  | char c =>
      obtain rfl := List.mem_singleton.mp hColon
      exact absurd hWord (by decide +kernel)
  | byte b => cases hWord

namespace Analysis

variable {parse : List UInt8 → SyntaxNode} {settings : Settings} {u : CompilationUnit}
  {a : Analysis} {name : String}

/-- It is the analysis of some text. -/
def Arises (a : Analysis) : Prop :=
  ∃ parse settings load path text, ofText parse settings load path text = .ok a

theorem isNamed_of_mem_proposals (h : a.Arises) {p : Proposal} (hp : p ∈ a.proposals) :
    p.IsNamed := by
  obtain ⟨parse, settings, load, path, text, hText⟩ := h
  obtain ⟨hRead, hUnit⟩ := ofText_eq_ok hText
  obtain ⟨c, hc, hMade⟩ := mem_proposals hUnit hp
  obtain ⟨-, hMacro, d, -, hId⟩ := Proposal.of_ofClassification? hMade
  obtain ⟨e, he, hName, hDefine⟩ :=
    MacroTable.mem_names.mp (mem_names_of_mem_classifications hUnit hc)
  rw [MacroTable.ofEvents_events] at he
  obtain ⟨file, content, tokens, hTokens, t, ht, hIdentifier, hSpelling⟩ :=
    CompilationUnit.exists_identifier_of_mem_events hRead he hDefine
  refine ⟨_, hId, hMacro, ?_, Pattern.colon_notMem_name _⟩
  rw [← hName, ← hSpelling]
  exact Token.colon_notMem_spelling hTokens ht hIdentifier

theorem mem_proposals_of_mem_plan (h : ofUnit parse settings u = .ok a) {p : Proposal}
    (hp : p ∈ a.plan.proposals) : p ∈ a.proposals := by
  rw [(ofUnit_eq_ok h).2.2.2] at hp
  exact (EditPlan.mem_build hp).1

/-- Each macro of a unit has one entry. -/
theorem count_diagnostics (h : ofUnit parse settings u = .ok a)
    (hName : name ∈ (MacroTable.ofEvents u.events).names) :
    (a.diagnostics.map (·.macroName)).count name = 1 := by
  have hNames : ∀ {names cs}, List.Forall₂ (Survey.ofUnit parse settings u).Outcome names cs →
      cs.map Classification.name = names := by
    intro names cs hOutcomes
    induction hOutcomes with
    | nil => rfl
    | cons hHead _ ih => rw [List.map_cons, hHead.name_eq, ih]
  have hEntries :
      a.diagnostics.map (·.macroName) = (Survey.ofUnit parse settings u).table.names := by
    rw [diagnostics_eq h, List.map_map,
      ← hNames (Survey.outcomes_of_classifyAll (ofUnit_eq_ok h).2.1)]
    rfl
  rw [hEntries]
  exact List.count_eq_one_of_mem (MacroTable.names_nodup _) hName

theorem exists_leftover? {c : Classification} (h : c.isClassified = false) :
    ∃ site, leftover? c = some ⟨c.name, c.reason, site⟩ := by
  unfold leftover?
  rw [if_neg (by simp [h])]
  exact ⟨_, rfl⟩

/-- Each macro of a unit is in the plan of the unit, or the report says why not. -/
theorem planned_or_explained (h : ofUnit parse settings u = .ok a)
    (hName : name ∈ (MacroTable.ofEvents u.events).names) :
    (∃ p ∈ a.plan.proposals, p.macroName = name) ∨ a.plan.Explains name := by
  obtain ⟨-, hClassified, hProposals, hPlan⟩ := ofUnit_eq_ok h
  obtain ⟨c, hc, hOutcome⟩ := (Survey.outcomes_of_classifyAll hClassified).exists_right hName
  obtain rfl := hOutcome.name_eq
  rcases hOutcome.refused_or_classified with ⟨hPattern, hReason⟩ | ⟨hPattern, -, d, -, hDefinition⟩
  · -- It follows no pattern.
    obtain ⟨site, hLeftover⟩ := exists_leftover? hPattern
    rw [hPlan]
    exact .inr (EditPlan.explains_leftover (List.mem_filterMap.mpr ⟨c, hc, hLeftover⟩) hReason)
  · -- There is a proposal for it.
    obtain ⟨p, hMade⟩ : ∃ p, Proposal.ofClassification? settings (Proposal.identifiersOf u) c
        = some p := by
      unfold Proposal.ofClassification?
      rw [hDefinition]
      simp only [hPattern, Bool.not_true, Bool.false_eq_true, if_false]
      repeat' split
      all_goals exact ⟨_, rfl⟩
    have hp : p ∈ a.proposals := by
      rw [hProposals]
      exact List.mem_filterMap.mpr ⟨c, hc, hMade⟩
    rw [hPlan, ← (Proposal.of_ofClassification? hMade).2.1]
    exact (EditPlan.explains_build hp).imp_left fun hPlanned => ⟨p, hPlanned, rfl⟩

end Analysis

namespace EditPlan

variable {plans : List EditPlan} {merged : EditPlan} {p : Proposal}

/-- A proposal of some plan is in the merged plan, or the merged report says why not, under the name
that one of its copies has. -/
theorem emitted_or_explained_of_merge (h : merge plans = .ok merged) (hp : p ∈ copies plans) :
    p.id ∈ merged.emitted ∨ ∃ q ∈ copies plans, q.id = p.id ∧ merged.Explains q.macroName := by
  obtain ⟨q, hq, hId⟩ := List.mem_map.mp (mem_ids_gathered.mpr ⟨p, hp, rfl⟩)
  refine (Merging.explains_finish h hq).imp (fun hMem => hId ▸ List.mem_map_of_mem hMem)
    fun hExplains => ?_
  obtain ⟨copy, hCopy, hCopyId, hName⟩ := (gathered_gathers plans).named q hq
  exact ⟨copy, hCopy, hCopyId.trans hId, hName ▸ hExplains⟩

end EditPlan

/-- Each name that a unit defines has one entry, and the macro is in the plan of the unit or its
report says why not. A proposal of some plan is in a merged plan, or the merged report says why not;
where the plans are those of units, it does so under the name of the proposal. -/
theorem none_dropped {analyses : List Analysis} (h : ∀ a ∈ analyses, a.Arises) :
    (∀ a ∈ analyses, ∀ e ∈ a.unit.events, e.directive.isDefine = true →
      (a.diagnostics.map (·.macroName)).count e.directive.name = 1
        ∧ ((∃ p ∈ a.plan.proposals, p.macroName = e.directive.name)
          ∨ a.plan.Explains e.directive.name))
      ∧ (∀ plans merged, EditPlan.merge plans = .ok merged → ∀ p ∈ EditPlan.copies plans,
        p.id ∈ merged.emitted ∨ ∃ q ∈ EditPlan.copies plans, q.id = p.id
        ∧ merged.Explains q.macroName)
      ∧ ∀ merged, EditPlan.merge (analyses.map (·.plan)) = .ok merged → ∀ a ∈ analyses,
        ∀ p ∈ a.plan.proposals, p.id ∈ merged.emitted ∨ merged.Explains p.macroName := by
  have hUnit : ∀ a ∈ analyses, ∃ parse settings, Analysis.ofUnit parse settings a.unit = .ok a := by
    intro a ha
    obtain ⟨parse, settings, load, path, text, hText⟩ := h a ha
    exact ⟨parse, settings, (Analysis.ofText_eq_ok hText).2⟩
  have hNamed : ∀ a ∈ analyses, ∀ p ∈ a.plan.proposals, p.IsNamed := by
    intro a ha p hp
    obtain ⟨parse, settings, hOfUnit⟩ := hUnit a ha
    exact Analysis.isNamed_of_mem_proposals (h a ha) (Analysis.mem_proposals_of_mem_plan hOfUnit hp)
  refine ⟨fun a ha e he hDefine => ?_,
    fun plans merged hMerge p hp => EditPlan.emitted_or_explained_of_merge hMerge hp,
    fun merged hMerge a ha p hp => ?_⟩
  · obtain ⟨parse, settings, hOfUnit⟩ := hUnit a ha
    have hName : e.directive.name ∈ (MacroTable.ofEvents a.unit.events).names :=
      MacroTable.mem_names.mpr ⟨e, by rwa [MacroTable.ofEvents_events], rfl, hDefine⟩
    exact ⟨Analysis.count_diagnostics hOfUnit hName, Analysis.planned_or_explained hOfUnit hName⟩
  · have hCopy : p ∈ EditPlan.copies (analyses.map (·.plan)) :=
      List.mem_flatMap.mpr ⟨a.plan, List.mem_map_of_mem ha, hp⟩
    refine (EditPlan.emitted_or_explained_of_merge hMerge hCopy).imp_right fun hExplained => ?_
    obtain ⟨q, hq, hId, hExplains⟩ := hExplained
    obtain ⟨plan, hPlan, hq⟩ := List.mem_flatMap.mp hq
    obtain ⟨b, hb, rfl⟩ := List.mem_map.mp hPlan
    exact (hNamed b hb q hq).macroName_eq (hNamed a ha p hp) hId ▸ hExplains

theorem Run.arises_of_mem_analyses {parse : List UInt8 → SyntaxNode} {settings : Settings}
    {read : String → Except AccessFault (List UInt8)} {paths : List String} {a : Analysis}
    (h : a ∈ analyses parse settings read paths) : a.Arises := by
  obtain ⟨path, text, hText⟩ := exists_text_of_mem_analyses h
  exact ⟨parse, settings, read, path, text, hText⟩

/-- One unit has a proposal for a macro that another one cannot classify. The merged plan drops it
and says why, and each of the macros of both units has its entry. -/
theorem none_dropped_sharedHeader :
    ∃ merged, EditPlan.merge ((Run.analyses .scopeless {} (Run.readFrom Run.sharedHeader)
        ["u.cpp", "v.cpp"]).map (·.plan)) = .ok merged
      ∧ "a.h::N::SimpleConstant::L1" ∉ merged.emitted ∧ merged.Explains "N"
      ∧ ∀ a ∈ Run.analyses .scopeless {} (Run.readFrom Run.sharedHeader) ["u.cpp", "v.cpp"],
        ∀ e ∈ a.unit.events, e.directive.isDefine = true →
          (a.diagnostics.map (·.macroName)).count e.directive.name = 1
            ∧ ((∃ p ∈ a.plan.proposals, p.macroName = e.directive.name)
              ∨ a.plan.Explains e.directive.name) := by
  obtain ⟨hUnits, -, hMerges⟩ := none_dropped fun a
      (ha : a ∈ Run.analyses .scopeless {} (Run.readFrom Run.sharedHeader) ["u.cpp", "v.cpp"]) =>
    Run.arises_of_mem_analyses ha
  refine Except.exists_of_passes (fun merged =>
    !merged.emitted.contains "a.h::N::SimpleConstant::L1"
      && (Run.analyses .scopeless {} (Run.readFrom Run.sharedHeader) ["u.cpp", "v.cpp"]).any
        fun a =>
        a.plan.proposals.any fun p => p.id == "a.h::N::SimpleConstant::L1" && p.macroName == "N")
    (by decide +kernel) fun merged hMerged hTest => ?_
  simp only [Bool.and_eq_true, Bool.not_eq_true', List.any_eq_true, beq_iff_eq] at hTest
  obtain ⟨hDropped, a, ha, p, hp, hId, hName⟩ := hTest
  have hNot : "a.h::N::SimpleConstant::L1" ∉ merged.emitted := by
    rw [← List.contains_iff_mem, hDropped]
    exact Bool.false_ne_true
  refine ⟨hNot, ?_, hUnits⟩
  rw [← hName]
  exact (hMerges merged hMerged a ha p hp).resolve_left fun hEmitted => hNot (hId ▸ hEmitted)

end Demacro
