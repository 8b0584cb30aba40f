import Demacro.Proofs.Collisions
import Demacro.Proofs.Naming

/-!
Functions that get a name of their own. The program makes sure that the new name is none of the
identifiers in the code of the unit. That it is an identifier, means nothing to the language and is
the name of nothing on directive lines or of another function that is made at the same time is up to
the names of the macros.
-/

namespace Demacro.Analysis

variable {parse : List UInt8 → SyntaxNode} {settings : Settings}
  {load : String → Except AccessFault (List UInt8)} {path : String} {text : Text} {a : Analysis}
  {p q : Proposal} {name newName : String}

/-- The proposal declares the name in place of its macro. -/
def Declares (parse : List UInt8 → SyntaxNode) (settings : Settings) (a : Analysis) (p : Proposal)
    (name : String) : Prop :=
  ∃ c ∈ a.classifications, ∃ d declaration,
    p.IsMadeFor settings (Survey.ofUnit parse settings a.unit) a.unit c d declaration
    ∧ declaration.name = name

/-- The name is on no directive line: no live replacement holds it, and no macro but the one that it
is made for has it. -/
structure IsOffDirectives (a : Analysis) (macroName name : String) : Prop where
  replacements : ∀ other ∈ (MacroTable.ofEvents a.unit.events).names,
    ∀ d ∈ (MacroTable.ofEvents a.unit.events).liveDefinitions other, ∀ t ∈ d.replacement,
      t.isIdentifier = true → t.spelling ≠ name
  macros : ∀ other ∈ (MacroTable.ofEvents a.unit.events).names, other ≠ macroName → other ≠ name

/-- The name that a proposal declares is an identifier without a meaning, and nothing else in the
unit or declared for it has the name. -/
structure IsFresh (parse : List UInt8 → SyntaxNode) (settings : Settings) (a : Analysis)
    (p : Proposal) (name : String) : Prop where
  identifier : IsIdentifier name
  unreserved : name ∉ Keyword.reserved
  code : name ∉ Proposal.identifiersOf a.unit
  directives : a.IsOffDirectives p.macroName name
  others : ∀ q ∈ a.plan.proposals, q ≠ p → ∀ other, a.Declares parse settings q other → other ≠ name

/-- The name of a macro becomes that of a function without clashing: it has no digit behind its
first underscores, it is no reserved word between underscores, and what it becomes is neither on a
directive line nor the name of another function. -/
structure Converts (a : Analysis) (name : String) : Prop where
  start : ∀ c ∈ name.toList.find? (· ≠ '_'), Unicode.isDecimal c = false
  letters : ∀ c ∈ (camelCase name).toList, Unicode.isWord c = true
  word : ∀ part, nameParts name.toList = [part] → String.ofList part ∉ Keyword.reserved
    ∧ (Unicode.isAllUpper (String.ofList part) = true → Unicode.toLower (String.ofList part)
      ∉ Keyword.reserved)
  directives : a.IsOffDirectives name (camelCase name)
  functions : ∀ q ∈ a.plan.proposals, q.pattern = .functionLikeMacro → q.macroName ≠ name →
    camelCase q.macroName ≠ camelCase name

theorem exists_declares (hUnit : ofUnit parse settings a.unit = .ok a) (hp : p ∈ a.plan.proposals) :
    ∃ name, a.Declares parse settings p name := by
  obtain ⟨c, hc, d, declaration, hMade⟩ := exists_classification_of_mem_plan hUnit hp
  exact ⟨declaration.name, c, hc, d, declaration, hMade, rfl⟩

/-- A proposal declares the name of its macro, unless it is for a function and such get names of
their own. Then the name is not in the code. -/
theorem Declares.name_eq (h : a.Declares parse settings p name) :
    name = (if p.pattern = .functionLikeMacro ∧ settings.functionNaming = .camelCase
      then camelCase p.macroName
      else p.macroName) ∧ (name ≠ p.macroName → name ∉ Proposal.identifiersOf a.unit) := by
  obtain ⟨c, -, d, declaration, hMade, rfl⟩ := h
  obtain ⟨hName, hUnused⟩ := Declaration.name_of_ofClassification hMade.declared
  rw [hMade.eq]
  exact ⟨hName, fun hNew => (hUnused hNew).1⟩

theorem Declares.macroName_mem (hUnit : ofUnit parse settings a.unit = .ok a)
    (h : a.Declares parse settings p name) :
    p.macroName ∈ (MacroTable.ofEvents a.unit.events).names := by
  obtain ⟨c, hc, d, declaration, hMade, -⟩ := h
  rw [hMade.eq]
  exact mem_names_of_mem_classifications hUnit hc

/-- A macro has one proposal. -/
theorem Declares.eq (hUnit : ofUnit parse settings a.unit = .ok a)
    (hp : a.Declares parse settings p name) (hq : a.Declares parse settings q newName)
    (hMacro : p.macroName = q.macroName) : p = q := by
  obtain ⟨c, hc, d, declaration, hMade, -⟩ := hp
  obtain ⟨c', hc', d', declaration', hMade', -⟩ := hq
  rw [hMade.eq, hMade'.eq] at hMacro
  obtain rfl := Survey.eq_of_name_eq (Survey.namesDefinitions_ofUnit parse settings a.unit)
    (ofUnit_eq_ok hUnit).2.1 hc hc' hMade.confidence hMade'.confidence hMacro
  have hRecord := Option.some.inj (hMade.definition.symm.trans hMade'.definition)
  have hDeclared := hMade.declared
  obtain rfl := Except.ok.inj (hMade.subject.symm.trans hMade'.subject)
  obtain rfl := Except.ok.inj (hDeclared.symm.trans hMade'.declared)
  rw [hMade.eq, hMade'.eq]

/-- A new name is fresh exactly if the name of the macro converts. -/
theorem Declares.isFresh_iff (hUnit : ofUnit parse settings a.unit = .ok a)
    (hNaming : settings.functionNaming = .camelCase)
    (h : a.Declares parse settings p (camelCase p.macroName))
    (hNew : camelCase p.macroName ≠ p.macroName) :
    a.IsFresh parse settings p (camelCase p.macroName) ↔ a.Converts p.macroName := by
  constructor
  · intro hFresh
    obtain ⟨hStart, hLetters⟩ := (isIdentifier_camelCase_iff hNew).mp hFresh.identifier
    have hReserved := (camelCase_mem_reserved_iff hNew).not.mp hFresh.unreserved
    refine
      { start := hStart, letters := hLetters, word := fun part hPart => ?_
        directives := hFresh.directives
        functions := fun q hq hFunction hOther => ?_ }
    · exact ⟨fun hWord => hReserved ⟨part, hPart, .inl hWord⟩,
        fun hUpper hWord => hReserved ⟨part, hPart, .inr ⟨hUpper, hWord⟩⟩⟩
    · obtain ⟨other, hDeclares⟩ := exists_declares hUnit hq
      have hName := hDeclares.name_eq.1
      rw [if_pos ⟨hFunction, hNaming⟩] at hName
      exact hName ▸ hFresh.others q hq (fun hSame => hOther (hSame ▸ rfl)) other hDeclares
  · intro hConverts
    exact {
      identifier := (isIdentifier_camelCase_iff hNew).mpr ⟨hConverts.start, hConverts.letters⟩
      unreserved := fun hReserved => by
        obtain ⟨part, hPart, hWord | ⟨hUpper, hWord⟩⟩ :=
          (camelCase_mem_reserved_iff hNew).mp hReserved
        · exact (hConverts.word part hPart).1 hWord
        · exact (hConverts.word part hPart).2 hUpper hWord
      code := h.name_eq.2 hNew
      directives := hConverts.directives
      others := fun q hq hOther other hDeclares => by
        have hMacro : q.macroName ≠ p.macroName := fun hSame => hOther (hDeclares.eq hUnit h hSame)
        rw [hDeclares.name_eq.1]
        split
        · rename_i hBoth
          exact hConverts.functions q hq hBoth.1 hMacro
        · exact hConverts.directives.macros _ (hDeclares.macroName_mem hUnit) hMacro }

/-- A function that is renamed never gets a name that is in the code, and it gets one that is fresh
exactly if the name of its macro converts. -/
theorem renamed_isFresh_iff (h : ofText parse settings load path text = .ok a)
    (hNaming : settings.functionNaming = .camelCase) (hp : p ∈ a.plan.proposals) :
    ∃ newName, a.Declares parse settings p newName ∧ (newName ≠ p.macroName →
      p.pattern = .functionLikeMacro ∧ newName = camelCase p.macroName
      ∧ newName ∉ Proposal.identifiersOf a.unit
        ∧ (a.IsFresh parse settings p newName ↔ a.Converts p.macroName)) := by
  obtain ⟨-, hUnit⟩ := ofText_eq_ok h
  obtain ⟨newName, hDeclares⟩ := exists_declares hUnit hp
  refine ⟨newName, hDeclares, fun hNew => ?_⟩
  obtain ⟨hName, hUnused⟩ := hDeclares.name_eq
  have hPattern : p.pattern = .functionLikeMacro := by
    by_contra hOther
    rw [if_neg fun hBoth => hOther hBoth.1] at hName
    exact hNew hName
  rw [if_pos ⟨hPattern, hNaming⟩] at hName
  subst hName
  exact ⟨hPattern, rfl, hUnused hNew, hDeclares.isFresh_iff hUnit hNaming hNew⟩

/-- The name of a function that shares it with nothing. -/
theorem renamed_isFresh_sum :
    ∃ a, ofText .scopeless { functionNaming := .camelCase } (fun _ => .error .notFound) "a.cpp"
        "#define ADD_ONE(x) ((x) + 1)\nint y = ADD_ONE(2);\n" = .ok a
      ∧ ∃ p ∈ a.plan.proposals, p.macroName = "ADD_ONE"
        ∧ a.IsFresh .scopeless { functionNaming := .camelCase } p "addOne" := by
  refine Except.exists_of_passes (fun a => decide ((∃ p ∈ a.plan.proposals, p.macroName = "ADD_ONE"
      ∧ p.pattern = .functionLikeMacro)
      ∧ (∀ other ∈ (MacroTable.ofEvents a.unit.events).names,
        ∀ d ∈ (MacroTable.ofEvents a.unit.events).liveDefinitions other, ∀ t ∈ d.replacement,
          t.isIdentifier = true → t.spelling ≠ "addOne")
      ∧ (∀ other ∈ (MacroTable.ofEvents a.unit.events).names, other = "ADD_ONE")
      ∧ ∀ q ∈ a.plan.proposals, q.macroName = "ADD_ONE"))
    (by decide +kernel) fun a h hTest => ?_
  obtain ⟨⟨p, hp, hMacro, hPattern⟩, hReplacements, hMacros, hProposals⟩ := of_decide_eq_true hTest
  have hCamel : camelCase "ADD_ONE" = "addOne" := by
    decide +kernel
  obtain ⟨name, hDeclares, hRenamed⟩ := renamed_isFresh_iff h rfl hp
  have hName := hDeclares.name_eq.1
  rw [if_pos ⟨hPattern, rfl⟩, hMacro, hCamel] at hName
  subst hName
  obtain ⟨-, -, -, hFresh⟩ := hRenamed (by rw [hMacro]; decide)
  refine ⟨p, hp, hMacro, hFresh.mpr ?_⟩
  rw [hMacro]
  exact {
    start := by
      have hFirst : "ADD_ONE".toList.find? (· ≠ '_') = some 'A' := by decide
      rw [hFirst]
      rintro _ ⟨⟩
      decide
    letters := isWord_camelCase_of_ascii (List.all_eq_true.mp (by decide +kernel)) (by simp)
    word := fun part hPart => by
      have hParts : nameParts "ADD_ONE".toList = ["ADD".toList, "ONE".toList] := by decide
      rw [hParts] at hPart
      cases hPart
    directives :=
    ⟨by rw [hCamel]; exact hReplacements, fun other hOther hNe => absurd (hMacros other hOther) hNe⟩
    functions := fun q hq _ hNe => absurd (hProposals q hq) hNe }

/-- Names that differ in underscores only become one name, so that two functions have it. -/
theorem not_isFresh_twins :
    ∃ a, ofText .scopeless { functionNaming := .camelCase } (fun _ => .error .notFound) "unit.cpp"
        "#define FOO_BAR(x) ((x) + 1)\n#define FOO__BAR(x) ((x) + 2)\nint y = FOO_BAR(1) + FOO__BAR(1);\n"
        = .ok a
      ∧ ∃ p ∈ a.plan.proposals, ∃ q ∈ a.plan.proposals, q ≠ p ∧ p.pattern = .functionLikeMacro
        ∧ p.macroName ≠ "fooBar"
        ∧ a.Declares .scopeless { functionNaming := .camelCase } p "fooBar"
        ∧ a.Declares .scopeless { functionNaming := .camelCase } q "fooBar" := by
  refine Except.exists_of_passes (fun a => decide (∃ p ∈ a.plan.proposals, ∃ q ∈ a.plan.proposals,
      p.macroName = "FOO_BAR" ∧ q.macroName = "FOO__BAR" ∧ p.pattern = .functionLikeMacro
        ∧ q.pattern = .functionLikeMacro))
    (by decide +kernel) fun a h hTest => ?_
  obtain ⟨p, hp, q, hq, hpName, hqName, hpPattern, hqPattern⟩ := of_decide_eq_true hTest
  have hDeclares : ∀ r ∈ a.plan.proposals, r.pattern = .functionLikeMacro →
    camelCase r.macroName = "fooBar" →
      a.Declares .scopeless { functionNaming := .camelCase } r "fooBar" := by
    intro r hr hPattern hCamel
    obtain ⟨name, hDeclares⟩ := exists_declares (ofText_eq_ok h).2 hr
    have hName := hDeclares.name_eq.1
    rw [if_pos ⟨hPattern, rfl⟩, hCamel] at hName
    exact hName ▸ hDeclares
  exact ⟨p, hp, q, hq, fun hSame => by rw [hSame, hpName] at hqName; exact absurd hqName (by
    decide), hpPattern,
    by rw [hpName]; decide, hDeclares p hp hpPattern (by rw [hpName]; decide +kernel),
    hDeclares q hq hqPattern (by rw [hqName]; decide +kernel)⟩

end Demacro.Analysis
