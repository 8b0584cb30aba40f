import Demacro.Proofs.Analysis
import Demacro.Proofs.Scopes.Names

/-!
What the qualifiers of uses mean. A use outside the scope of a definition names that scope behind
the scopes that both places have in common. That leads to the scope exactly if no scope nearer to
the use has a scope of the first name.
-/

namespace Demacro

/-- Some place of the unit is in a class or namespace with the given full name. -/
def UnitScopes.Declares (s : UnitScopes) (path : List String) : Prop :=
  path ≠ [] ∧ ∃ file offset, path <+: (s.contextAt file offset).path

section

variable {scopes : List String → Prop} {shared below rest : List String} {first : String}

/-- Behind the scopes that two places have in common, the name of one leads there from the other
exactly if it is not found nearer. -/
theorem Leads.iff_of_shared (hTarget : ∀ p, p ≠ [] → p <+: shared ++ first :: rest → scopes p) :
    Leads scopes (shared ++ below) (first :: rest) (shared ++ first :: rest)
      ↔ ∀ p, p <+: below → p ≠ [] → ¬scopes (shared ++ p ++ [first]) := by
  constructor
  · intro h p hPrefix hNe hScope
    obtain ⟨around, hAround, -, innermost⟩ := h.exists_around
    obtain rfl := List.append_cancel_right hAround
    have hLe := innermost (shared ++ p) ((List.prefix_append_right_inj shared).mpr hPrefix) hScope
    rw [List.length_append] at hLe
    exact hNe (List.eq_nil_of_length_eq_zero (by omega))
  · intro h
    refine .found (List.prefix_append shared below) (fun p hPrefix hScope => ?_) fun p hPrefix => ?_
    · -- A longer start of the place would hold a nearer scope of the name.
      by_contra hLonger
      obtain ⟨q, rfl⟩ := List.prefix_of_prefix_length_le (List.prefix_append shared below) hPrefix
        (by omega)
      refine h q ((List.prefix_append_right_inj shared).mp hPrefix) ?_ hScope
      rintro rfl
      simp at hLonger
    · refine hTarget _ (by simp) ((List.prefix_append_right_inj shared).mpr ?_)
      exact List.cons_prefix_cons.mpr ⟨rfl, hPrefix⟩

end

namespace Survey

variable {s : Survey} {name : String} {home : Context} {frame : Frame} {u : Usage}
  {q : QualifiedUsage} {c : Classification} {names others : List String}

/-- What is left of two lists behind their common start. -/
theorem behindCommon_spec (names others : List String) :
    ∃ shared below, names = shared ++ behindCommon names others ∧ others = shared ++ below := by
  fun_induction behindCommon names others with
  | case1 names first others ih =>
      obtain ⟨shared, below, hNames, hOthers⟩ := ih
      exact ⟨first :: shared, below, by rw [List.cons_append, ← hNames], by rw [List.cons_append,
        ← hOthers]⟩
  | case2 | case3 => exact ⟨[], _, rfl, rfl⟩

theorem of_outsideUse {qualifier : String} (h : (outsideUse home frame u).2 = some qualifier) :
    qualifier = "::".intercalate (behindCommon home.scopePath u.context.scopePath)
    ∧ qualifier ≠ "" := by
  unfold outsideUse at h
  dsimp only at h
  split at h
  · cases h
  split at h
  · cases h
  · rename_i hSome
    cases h
    exact ⟨rfl, fun hEmpty => hSome (by rw [hEmpty]; rfl)⟩

theorem of_mem_scopeFindings {usages : List Usage} {isFunction : Bool}
    (h : q ∈ (s.scopeFindings name home usages isFunction).2) :
    q.usage ∈ usages ∧ q.usage.context.sees home = false
      ∧ ∃ frame, home.scope? = some frame
      ∧ (outsideUse home frame q.usage).2 = some q.qualifier := by
  unfold scopeFindings at h
  split at h
  · cases h
  rename_i frame hScope
  dsimp only at h
  split at h
  · cases h
  · cases h
  · obtain ⟨⟨u, finding, found⟩, hFound, hq⟩ := List.mem_filterMap.mp h
    obtain ⟨u', hu, hUse⟩ := List.mem_map.mp hFound
    obtain ⟨qualifier, rfl, rfl⟩ := Option.map_eq_some_iff.mp hq
    obtain ⟨rfl, hResult⟩ := Prod.mk.inj hUse
    obtain ⟨hu, hOutside⟩ := List.mem_filter.mp hu
    exact ⟨hu, by simpa using hOutside, frame, hScope, congrArg Prod.snd hResult⟩

/-- A use is qualified by what its place has not in common with that of the definition. -/
theorem Outcome.of_mem_qualified (h : s.Outcome name c) (hq : q ∈ c.qualified) :
    ∃ d : Definition, c.context = some (s.scopes.contextOf d) ∧ q.usage ∈ c.usages
      ∧ ∃ frame, (s.scopes.contextOf d).scope? = some frame
        ∧ (outsideUse (s.scopes.contextOf d) frame q.usage).2 = some q.qualifier := by
  cases h with
  | unsuitable | rejected => cases hq
  | @constant d | @function d =>
      obtain ⟨hUsage, -, hOutside⟩ := of_mem_scopeFindings hq
      exact ⟨d.definition, rfl, hUsage, hOutside⟩

end Survey

namespace QualifiedUsage

/-- The components of the qualifier: those of the names that it is made of. -/
def Spells (q : QualifiedUsage) (path : List String) : Prop :=
  ∃ names, q.qualifier = "::".intercalate names ∧ path = names.flatMap QualifiedName.parts

end QualifiedUsage

/-- The tree of a file with a namespace at its start. -/
def SyntaxNode.oneNamespace (bytes : List UInt8) : SyntaxNode :=
  ⟨"translation_unit", 0, bytes.length, none, false, [.scope "namespace_definition" 0 10 11 27 []]⟩

/-- The tree of a file with a namespace, and one of the same name in another namespace. -/
def SyntaxNode.twoNamespaces (bytes : List UInt8) : SyntaxNode :=
  ⟨"translation_unit", 0, bytes.length, none, false,
    [.scope "namespace_definition" 0 10 11 27 [], .scope "namespace_definition" 28 38 39 77
      [.scope "namespace_definition" 42 52 53 64 []]]⟩

namespace Analysis

variable {parse : List UInt8 → SyntaxNode} {settings : Settings}
  {load : String → Except AccessFault (List UInt8)} {path : String} {text : Text} {a : Analysis}
  {c : Classification} {q : QualifiedUsage}

/-- A qualifier leads to the scope of the definition exactly if no scope nearer to the use has a
scope of the first name in it. -/
theorem qualifier_leads_iff (h : ofText parse settings load path text = .ok a)
    (hc : c ∈ a.classifications) (hq : q ∈ c.qualified) :
    ∃ home ∈ c.context, ∃ shared first rest below,
      home.path = shared ++ first :: rest ∧ q.usage.context.path = shared ++ below
      ∧ q.Spells (first :: rest)
      ∧ (Leads (UnitScopes.ofUnit parse a.unit).Declares q.usage.context.path (first
        :: rest) home.path
          ↔ ∀ p, p <+: below → p ≠ [] →
          ¬(UnitScopes.ofUnit parse a.unit).Declares (shared ++ p ++ [first])) := by
  have hOutcome := (Survey.exists_outcome (ofUnit_eq_ok (ofText_eq_ok h).2).2.1 hc).2
  obtain ⟨d, hContext, -, frame, -, hOutside⟩ := hOutcome.of_mem_qualified hq
  obtain ⟨hQualifier, hNe⟩ := Survey.of_outsideUse hOutside
  have hHome : (Survey.ofUnit parse settings a.unit).scopes.contextOf d
      = (UnitScopes.ofUnit parse a.unit).contextAt d.span.path d.span.start := rfl
  rw [hHome] at hContext hOutside hQualifier
  generalize hPlace : (UnitScopes.ofUnit parse a.unit).contextAt d.span.path d.span.start
    = home at *
  obtain ⟨shared, below, hNames, hOthers⟩ :=
    Survey.behindCommon_spec home.scopePath q.usage.context.scopePath
  generalize Survey.behindCommon home.scopePath q.usage.context.scopePath = names at *
  obtain ⟨first, rest, hFirst⟩ : ∃ first rest, names.flatMap QualifiedName.parts = first
      :: rest := by
    refine List.exists_cons_of_ne_nil fun hNone => hNe ?_
    have hNames : names = [] := List.eq_nil_iff_forall_not_mem.mpr fun name hName =>
      QualifiedName.parts_ne_nil name (List.flatMap_eq_nil_iff.mp hNone name hName)
    rw [hQualifier, hNames]
    rfl
  have hTarget : home.path = shared.flatMap QualifiedName.parts ++ first :: rest := by
    rw [← hFirst, ← List.flatMap_append, ← hNames]
    rfl
  have hUse : q.usage.context.path = shared.flatMap QualifiedName.parts
      ++ below.flatMap QualifiedName.parts := by
    rw [← List.flatMap_append, ← hOthers]
    rfl
  refine ⟨home, hContext, _, first, rest, _, hTarget, hUse, ⟨names, hQualifier, hFirst.symm⟩, ?_⟩
  rw [hTarget, hUse]
  refine Leads.iff_of_shared fun p hNe hPrefix => ⟨hNe, d.span.path, d.span.start, ?_⟩
  rwa [hPlace, hTarget]

/-- From the global namespace the name of a namespace leads there. -/
theorem qualifier_leads_global :
    ∃ a, ofText .oneNamespace {} (fun _ => .error .notFound) "unit.cpp"
      "namespace a \x7b\n#define N 1\n\x7d\nint x = N;\n" = .ok a
      ∧ ∃ c ∈ a.classifications, ∃ q ∈ c.qualified, q.Spells ["a"] ∧ ∃ home ∈ c.context,
        Leads (UnitScopes.ofUnit .oneNamespace a.unit).Declares q.usage.context.path
          ["a"] home.path := by
  refine Except.exists_of_passes (fun a => decide (∃ c ∈ a.classifications, ∃ q ∈ c.qualified,
    q.usage.context.path = [] ∧ c.context.map Context.path = some ["a"])) (by
      decide +kernel) fun a h hTest => ?_
  obtain ⟨c, hc, q, hq, hUse, hHome⟩ := of_decide_eq_true hTest
  obtain ⟨home, hContext, shared, first, rest, below, hPath, hPlace, hSpells, hLeads⟩ :=
    qualifier_leads_iff h hc hq
  rw [Option.mem_def.mp hContext, Option.map_some, Option.some_inj] at hHome
  rw [hUse] at hPlace
  obtain ⟨rfl, rfl⟩ := List.append_eq_nil_iff.mp hPlace.symm
  obtain ⟨rfl, rfl⟩ := List.cons.inj (hHome.symm.trans hPath)
  refine ⟨c, hc, q, hq, hSpells, home, hContext, hLeads.mpr fun p hPrefix hNe => ?_⟩
  exact absurd (List.prefix_nil.mp hPrefix) hNe

/-- From a namespace with a namespace of that name in it, the name leads there and not to the
definition. -/
theorem not_leads_twoNamespaces :
    ∃ a, ofText .twoNamespaces {} (fun _ => .error .notFound) "unit.cpp"
        ("namespace a \x7b\n#define N 1\n\x7d\nnamespace b \x7b\n"
          ++ "namespace a \x7b int y; \x7d\nint x = N;\n\x7d\n") = .ok a
      ∧ ∃ p ∈ a.plan.proposals, ∃ c ∈ a.classifications, c.name = p.macroName ∧ ∃ q ∈ c.qualified,
      q.Spells ["a"]
        ∧ ∃ home ∈ c.context,
        ¬Leads (UnitScopes.ofUnit .twoNamespaces a.unit).Declares q.usage.context.path ["a"]
          home.path := by
  refine Except.exists_of_passes (fun a => decide (∃ p ∈ a.plan.proposals, ∃ c ∈ a.classifications,
    c.name = p.macroName ∧ ∃ q ∈ c.qualified, q.qualifier = "a" ∧ ∃ home ∈ c.context,
    home.path = ["a"]
      ∧ q.usage.context.path = ["b"])
    && decide (((UnitScopes.ofUnit .twoNamespaces a.unit).contextAt "unit.cpp" 56).path
      = ["b", "a"]))
    (by decide +kernel) fun a _ hTest => ?_
  simp only [Bool.and_eq_true, decide_eq_true_eq] at hTest
  obtain ⟨⟨p, hp, c, hc, hName, q, hq, hQualifier, home, hContext, hHome, hUse⟩, hNearer⟩ := hTest
  refine ⟨p, hp, c, hc, hName, q, hq, ⟨["a"], hQualifier, by decide +kernel⟩, home, hContext,
    fun hLeads => ?_⟩
  rw [hHome, hUse] at hLeads
  have hDeclares : (UnitScopes.ofUnit .twoNamespaces a.unit).Declares (["b"] ++ ["a"]) :=
    ⟨by simp, "unit.cpp", 56, by rw [hNearer]; exact List.prefix_refl _⟩
  obtain ⟨around, hAround, -, hInnermost⟩ := hLeads.exists_around
  have hLe := hInnermost ["b"] (List.prefix_refl _) hDeclares
  have hLength := congrArg List.length hAround
  simp only [List.length_append, List.length_cons, List.length_nil] at hLe hLength
  omega

end Analysis

end Demacro
