import Demacro.Proofs.Analysis
import Demacro.Proofs.Plan.Merging
import Demacro.Run

/-!
Runs over many units. A macro that one unit holds back is held back under the identifier of its
proposal there, or under the place of its first definition there; another unit may know the same
definitions under another identifier.
-/

namespace Demacro

/-- An edit changes characters of a range. -/
def Edit.Touches (e : Edit) (s : Span) : Prop :=
  e.path = s.path ∧ e.isAppend = false ∧ e.start < s.stop ∧ s.start < e.stop

instance (e : Edit) (s : Span) : Decidable (e.Touches s) :=
  inferInstanceAs (Decidable (_ ∧ _))

theorem Edit.touches_congr {d e : Edit} (h : d.change = e.change) (s : Span) :
    d.Touches s ↔ e.Touches s := by
  simp only [change, Prod.mk.injEq] at h
  rw [Touches, Touches, isAppend, isAppend, h.1, h.2.2]

namespace EditPlan

variable {proposals : List Proposal} {leftovers : List Leftover} {minimum : SafetyTier}
  {warnings : List ReportEntry}

/-- A plan blocks the sites of the macros that follow no pattern. -/
theorem mem_build_blockedSites {site : DefinitionSite} :
    site ∈ (build proposals leftovers minimum warnings).blockedSites ↔
      ∃ l ∈ leftovers, l.site = some site := by
  have hFold : ∀ (sites : List (DefinitionSite × Text)),
      site ∈ (leftovers.foldl (fun sites l =>
          l.site.elim sites fun site => setKey site (blockReason l) sites) sites).map Prod.fst ↔
        site ∈ sites.map Prod.fst ∨ ∃ l ∈ leftovers, l.site = some site := by
    induction leftovers with
    | nil => simp
    | cons l leftovers ih =>
        intro sites
        rw [List.foldl_cons, ih, List.exists_mem_cons_iff]
        cases hSite : l.site with
        | none => simp
        | some other =>
            rw [Option.elim_some, mem_keys_setKey, Option.some.injEq, eq_comm (a := other)]
            tauto
  exact (hFold []).trans (by simp)

namespace Merging

variable {m : Merging} {c : Extent × Text × EditKind}

/-- The merge takes proposals with an identifier as candidates. -/
def Admits (m : Merging) (id : String) : Prop :=
  id ∉ m.diverged ∧ id ∉ m.withheld
    ∧ ∃ parsed, ProposalId.parse id = .ok parsed
      ∧ ⟨parsed.path, parsed.macroName, parsed.line⟩ ∉ m.blocked.map Prod.fst

/-- The merge makes a change: the first candidate that asks for it is in no conflict. -/
def Makes (m : Merging) (c : Extent × Text × EditKind) : Prop :=
  ∃ first, firstMaking? m.candidates c = some first
    ∧ first.proposal ∉ (partners (assemble m.candidates [] m.conflicts).conflicts).map Prod.fst

end Merging

end EditPlan

namespace Analysis

/-- The live definitions of a macro that a unit saw. -/
def liveDefinitions (a : Analysis) (name : String) : List Definition :=
  (MacroTable.ofEvents a.unit.events).liveDefinitions name

/-- The identifiers of proposals under which a unit holds back a macro. -/
inductive HoldsBack (a : Analysis) (name : String) : String → Prop where
  /-- There is a proposal, but it is not in the plan of the unit. -/
  | withheld {q : Proposal} (hProposal : q ∈ a.proposals) (hName : q.macroName = name)
      (hWithheld : q.id ∈ a.plan.withheld) : HoldsBack a name q.id
  /-- The macro follows no pattern: no proposal for its first definition will do. -/
  | unclassified {c : Classification} {d : DefinitionRecord} {id : String} {parsed : ProposalId}
      (hMem : c ∈ a.classifications) (hName : c.name = name) (hPattern : c.isClassified = false)
      (hSkip : c.skipped = false) (hDefinition : c.definition = some d)
      (hId : ProposalId.parse id = .ok parsed) (hParsedName : parsed.macroName = name)
      (hPath : parsed.path = d.definition.span.path)
      (hLine : parsed.line = d.definition.span.line) : HoldsBack a name id

variable {parse : List UInt8 → SyntaxNode} {settings : Settings} {u : CompilationUnit}
  {a : Analysis} {name id : String}

/-- What a unit holds back is in no merge of its plan. -/
theorem HoldsBack.not_admits (h : a.HoldsBack name id) (ha : ofUnit parse settings u = .ok a)
    {plans : List EditPlan} (hPlan : a.plan ∈ plans) : ¬ (EditPlan.gathered plans).Admits id := by
  rintro ⟨-, hWithheld, parsed, hParsed, hBlocked⟩
  cases h with
  | withheld hProposal hName hOwn =>
      exact hWithheld (EditPlan.mem_gathered_withheld.mpr ⟨_, hPlan, hOwn⟩)
  | @unclassified c d _ _ hMem hName hPattern hSkip hDefinition hId hParsedName hPath hLine =>
      rw [hId, Except.ok.injEq] at hParsed
      subst hParsed
      refine hBlocked (EditPlan.mem_gathered_blocked.mpr ⟨_, hPlan, ?_⟩)
      rw [(ofUnit_eq_ok ha).2.2.2, EditPlan.mem_build_blockedSites]
      refine ⟨⟨c.name, c.reason, some ⟨d.definition.span.path, c.name, d.definition.span.line⟩⟩, ?_,
        ?_⟩
      · exact List.mem_filterMap.mpr ⟨c, hMem, by simp [leftover?, hPattern, hSkip, hDefinition]⟩
      · rw [hPath, hParsedName, hLine, hName]

end Analysis

namespace Run

/-- Files with the given texts, by their paths. -/
def readFrom (files : List (String × Text)) (path : String) : Except AccessFault (List UInt8) :=
  match files.lookup path with
  | some text => .ok (Text.encode text)
  | none => .error .notFound

/-- The analyses of the units that can be analysed. -/
def analyses (parse : List UInt8 → SyntaxNode) (settings : Settings)
    (read : String → Except AccessFault (List UInt8)) (paths : List String) : List Analysis :=
  (split (paths.eraseDups.map fun path => (path, analyse parse settings read path))).1

variable {parse : List UInt8 → SyntaxNode} {settings : Settings}
  {read : String → Except AccessFault (List UInt8)} {paths : List String} {r : Run} {a : Analysis}

theorem exists_text_of_mem_analyses (h : a ∈ analyses parse settings read paths) :
    ∃ path text, Analysis.ofText parse settings read path text = .ok a := by
  obtain ⟨⟨path, result⟩, hMem, hResult⟩ := List.mem_filterMap.mp h
  obtain ⟨path, -, hPair⟩ := List.mem_map.mp hMem
  cases hPair
  have hAnalysis : analyse parse settings read path = .ok a := by
    cases hCase : analyse parse settings read path with
    | error fault => rw [hCase] at hResult; cases hResult
    | ok other => rw [hCase] at hResult; cases hResult; rfl
  obtain ⟨data, -, hText⟩ := Except.bind_eq_ok_iff.mp hAnalysis
  exact ⟨path, _, hText⟩

theorem ofUnit_of_mem_analyses (h : a ∈ analyses parse settings read paths) :
    Analysis.ofUnit parse settings a.unit = .ok a := by
  obtain ⟨path, text, hText⟩ := exists_text_of_mem_analyses h
  exact (Analysis.ofText_eq_ok hText).2

theorem ofPaths_eq_ok (h : ofPaths parse settings read paths = .ok r) :
    (EditPlan.gathered ((analyses parse settings read paths).map (·.plan))).finish
    = .ok r.plan := by
  obtain ⟨plan, hPlan, h⟩ := Except.bind_eq_ok_iff.mp h
  cases h
  exact hPlan

/-- What the plans of some analyses say together. -/
abbrev gathered (as : List Analysis) : EditPlan.Merging :=
  EditPlan.gathered (as.map (·.plan))

/-- An edit of a candidate comes from an admitted proposal in the plan of some unit. -/
theorem exists_of_mem_candidates {q : Proposal} {e : Edit}
    (hq : q ∈ (gathered (analyses parse settings read paths)).candidates) (he : e ∈ q.edits) :
    ∃ b ∈ analyses parse settings read paths, ∃ p ∈ b.plan.proposals,
      e ∈ p.edits ∧ p.id = q.id ∧ e.proposal = q.id
      ∧ (gathered (analyses parse settings read paths)).Admits q.id := by
  obtain ⟨hMem, hRefusal⟩ := EditPlan.Merging.mem_candidates.mp hq
  obtain ⟨p, hp, hId, hEdit⟩ := (EditPlan.gathered_gathers _).sound q hMem e he
  obtain ⟨plan, hPlan, hp⟩ := List.mem_flatMap.mp hp
  obtain ⟨b, hb, rfl⟩ := List.mem_map.mp hPlan
  have hUnit := ofUnit_of_mem_analyses hb
  have hProposal : p ∈ b.proposals := by
    rw [(Analysis.ofUnit_eq_ok hUnit).2.2.2] at hp
    exact (EditPlan.mem_build hp).1
  obtain ⟨c, -, hMade⟩ := Analysis.mem_proposals hUnit hProposal
  exact ⟨b, hb, p, hp, hEdit, hId, (Proposal.proposal_of_mem_edits hMade hEdit).trans hId,
    EditPlan.Merging.refusal?_eq_none.mp hRefusal⟩

/-- The changes of a merged plan are those that the merge makes. -/
theorem makes_iff (h : ofPaths parse settings read paths = .ok r) {c : Extent × Text × EditKind} :
    r.plan.Makes c ↔ (gathered (analyses parse settings read paths)).Makes c := by
  rw [EditPlan.Makes, (EditPlan.Merging.finish_eq_ok (ofPaths_eq_ok h)).1]
  refine EditPlan.makes_assemble.trans (exists_congr fun first => and_congr_right fun hFirst => ?_)
  rw [EditPlan.mem_emitted_assemble]
  refine and_iff_right ?_
  obtain ⟨q, hq, he⟩ := List.mem_flatMap.mp (List.mem_of_find?_eq_some hFirst)
  obtain ⟨-, -, -, -, -, -, hOwner, -⟩ := exists_of_mem_candidates hq he
  exact hOwner ▸ List.mem_map_of_mem hq

/-- What a unit holds back is out of reach of the merged plan as far as other units know it under
the same identifier. Under another identifier, a proposal that the merge admits and whose change it
makes reaches the definitions that the unit saw. -/
theorem untouched_iff (h : ofPaths parse settings read paths = .ok r)
    (ha : a ∈ analyses parse settings read paths) (name : String) :
    (∀ e ∈ r.plan.allEdits, ∀ d ∈ a.liveDefinitions name, ¬ e.Touches d.span) ↔
      ∀ b ∈ analyses parse settings read paths, ∀ p ∈ b.plan.proposals, ¬ a.HoldsBack name p.id →
        (gathered (analyses parse settings read paths)).Admits p.id →
        ∀ e ∈ p.edits, (gathered (analyses parse settings read paths)).Makes e.change →
          ∀ d ∈ a.liveDefinitions name, ¬ e.Touches d.span := by
  constructor
  · intro hUntouched b hb p hp _ _ e he hMakes d hd hTouches
    obtain ⟨made, hMade, hChange⟩ := (makes_iff h).mpr hMakes
    exact hUntouched made hMade d hd ((Edit.touches_congr hChange d.span).mpr hTouches)
  · intro hOthers e he d hd hTouches
    have hMakes : (gathered (analyses parse settings read paths)).Makes e.change :=
      (makes_iff h).mp ⟨e, he, rfl⟩
    rw [(EditPlan.Merging.finish_eq_ok (ofPaths_eq_ok h)).1] at he
    obtain ⟨q, hq, hEdit⟩ := EditPlan.mem_pool (EditPlan.mem_allEdits_assemble.mp he).1
    obtain ⟨b, hb, p, hp, hEdit, hId, -, hAdmits⟩ := exists_of_mem_candidates hq hEdit
    rw [← hId] at hAdmits
    have hFree : ¬ a.HoldsBack name p.id := fun hHeld =>
      hHeld.not_admits (ofUnit_of_mem_analyses ha) (List.mem_map_of_mem ha) hAdmits
    exact hOthers b hb p hp hFree hAdmits e hEdit hMakes d hd hTouches

/-- Two units with one header. Only one of them can classify the macro that the header defines. -/
def sharedHeader : List (String × Text) :=
  [("a.h", "#define N B\n"), ("u.cpp", "#define B f()\n#include \"a.h\"\n"),
    ("v.cpp", "#define B 4\n#include \"a.h\"\n")]

/-- What one unit cannot classify is left alone, though another unit has a proposal for it. -/
theorem untouched_sharedHeader :
    ∃ r, ofPaths .scopeless {} (readFrom sharedHeader) ["u.cpp", "v.cpp"] = .ok r
      ∧ ∃ a ∈ analyses .scopeless {} (readFrom sharedHeader) ["u.cpp", "v.cpp"],
        a.HoldsBack "N" "a.h::N::SimpleConstant::L1"
          ∧ ∀ e ∈ r.plan.allEdits, ∀ d ∈ a.liveDefinitions "N", ¬ e.Touches d.span := by
  refine Except.exists_of_passes (fun _ => true) (by decide +kernel) fun r h _ => ?_
  obtain ⟨a, ha, hTest⟩ := List.any_eq_true.mp (show (analyses .scopeless {} (readFrom sharedHeader)
      ["u.cpp", "v.cpp"]).any (fun a =>
    (a.classifications.any fun c => c.name == "N" && !c.isClassified && !c.skipped
      && c.definition.any fun d => d.definition.span.path == "a.h" && d.definition.span.line == 1)
    && (analyses .scopeless {} (readFrom sharedHeader) ["u.cpp", "v.cpp"]).all fun b =>
      b.plan.proposals.all fun p => p.id == "a.h::N::SimpleConstant::L1"
        || p.edits.all fun e => (a.liveDefinitions "N").all fun d => !decide (e.Touches d.span))
        = true
    by decide +kernel)
  simp only [Bool.and_eq_true, List.any_eq_true, List.all_eq_true, beq_iff_eq, Bool.not_eq_true',
    Bool.or_eq_true, decide_eq_false_iff_not, Option.any_eq_true] at hTest
  obtain ⟨⟨c, hc, ⟨⟨hName, hPattern⟩, hSkip⟩, d, hDefinition, hPath, hLine⟩, hOthers⟩ := hTest
  obtain ⟨parsed, hId, hParsed⟩ := Except.exists_of_passes
    (x := ProposalId.parse "a.h::N::SimpleConstant::L1")
    (fun id => decide (id = ⟨"a.h", "N", "SimpleConstant", 1⟩)) (by decide +kernel)
    fun _ _ h => of_decide_eq_true h
  have hHeld : a.HoldsBack "N" "a.h::N::SimpleConstant::L1" := by
    subst hParsed
    exact .unclassified hc hName hPattern hSkip hDefinition hId rfl hPath.symm hLine.symm
  refine ⟨a, ha, hHeld, (untouched_iff h ha "N").mpr ?_⟩
  intro b hb p hp hFree _ e he _ d hd
  rcases hOthers b hb p hp with hId | hApart
  · exact absurd (hId ▸ hHeld) hFree
  · exact hApart e he d hd

/-- Two units with two headers that define a macro differently. Only one of them reads both. -/
def twoHeaders : List (String × Text) :=
  [("a.h", "#define N 1\n"), ("b.h", "#define N 2\n"),
    ("u.cpp", "#include \"a.h\"\n#include \"b.h\"\n"), ("v.cpp", "#include \"b.h\"\n")]

/-- What one unit cannot classify is replaced all the same where another unit sees another of its
definitions first. -/
theorem touched_twoHeaders :
    ∃ r, ofPaths .scopeless {} (readFrom twoHeaders) ["u.cpp", "v.cpp"] = .ok r
      ∧ ∃ a ∈ analyses .scopeless {} (readFrom twoHeaders) ["u.cpp", "v.cpp"],
        (∃ c ∈ a.classifications, c.name = "N" ∧ c.isClassified = false ∧ c.skipped = false)
          ∧ ∃ e ∈ r.plan.allEdits, ∃ d ∈ a.liveDefinitions "N", e.Touches d.span := by
  refine Except.exists_of_passes (fun r =>
    (analyses .scopeless {} (readFrom twoHeaders) ["u.cpp", "v.cpp"]).any fun a =>
      (a.classifications.any fun c => c.name == "N" && !c.isClassified && !c.skipped)
        && r.plan.allEdits.any fun e => (a.liveDefinitions "N").any fun d =>
        decide (e.Touches d.span))
    (by decide +kernel) fun r h hTest => ?_
  simpa [and_assoc] using hTest

end Run

end Demacro
