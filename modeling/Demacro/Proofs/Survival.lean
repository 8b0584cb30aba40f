import Demacro.Proofs.Analysis
import Demacro.Proofs.MacroTable
import Demacro.Proofs.Selection.Labels

/-!
Definitions that are kept. All definitions of a macro give way to one declaration, which stands
where the first of them stood. It can take the place of another one only if it is kept whenever that
is.
-/

namespace Demacro

/-- The directive defines a name. -/
def Event.Defines (e : Event) (name : String) : Prop :=
  e.directive.isDefine = true ∧ e.directive.name = name

namespace CompilationUnit

/-- A directive is kept, and no `#undef` that is kept cancels it before a place. -/
structure Reaches (u : CompilationUnit) (ρ : Nat → Bool) (e : Event) (p : Nat) : Prop where
  before : e.position < p
  kept : u.Keeps ρ e.position
  inForce : ∀ x ∈ u.events, x.directive.isDefine = false → x.directive.name = e.directive.name →
    e.position < x.position → x.position < p → ¬ u.Keeps ρ x.position

/-- The preprocessor has a definition of a name at a place. -/
def DefinedAt (u : CompilationUnit) (ρ : Nat → Bool) (name : String) (p : Nat) : Prop :=
  ∃ e ∈ u.events, e.Defines name ∧ u.Reaches ρ e p

theorem reaches_iff {u : CompilationUnit} {ρ : Nat → Bool} {e : Event} {p : Nat} :
    u.Reaches ρ e p ↔ (e.position < p ∧ u.Keeps ρ e.position) ∧ ∀ x ∈ u.events,
      x.directive.isDefine = false → x.directive.name = e.directive.name → e.position < x.position →
      x.position < p → ¬ u.Keeps ρ x.position :=
  ⟨fun h => ⟨⟨h.before, h.kept⟩, h.inForce⟩, fun h => ⟨h.1.1, h.1.2, h.2⟩⟩

instance (u : CompilationUnit) (ρ : Nat → Bool) (e : Event) (p : Nat) :
    Decidable (u.Reaches ρ e p) :=
  decidable_of_iff _ reaches_iff.symm

instance (e : Event) (name : String) : Decidable (e.Defines name) :=
  inferInstanceAs (Decidable (e.directive.isDefine = true ∧ e.directive.name = name))

instance (u : CompilationUnit) (ρ : Nat → Bool) (name : String) (p : Nat) :
    Decidable (u.DefinedAt ρ name p) :=
  inferInstanceAs (Decidable (∃ e ∈ u.events, e.Defines name ∧ u.Reaches ρ e p))

/-- A place is kept whenever a use of a name is kept where the name is defined. -/
def Survives (u : CompilationUnit) (uses : List Usage) (name : String) (p : Nat) : Prop :=
  ∀ ρ, u.Consistent ρ → ∀ w ∈ uses, u.Keeps ρ w.token.position →
    u.DefinedAt ρ name w.token.position → u.Keeps ρ p

/-- Some truth values keep a use of a name and the directive that defines it there. -/
def Serves (u : CompilationUnit) (uses : List Usage) (e : Event) : Prop :=
  ∃ ρ, u.Consistent ρ ∧ ∃ w ∈ uses, u.Keeps ρ w.token.position ∧ u.Reaches ρ e w.token.position

variable {u : CompilationUnit} {path : String} {text : Text} {search : Option IncludeSearch}
  {ρ ρ' : Nat → Bool} {p q : Nat} {e : Event} {b : Branch}

theorem keeps_congr (h : ∀ b ∈ u.branchesAt p, ∀ x ∈ b.places, ρ x = ρ' x) :
    u.Keeps ρ p ↔ u.Keeps ρ' p := by
  refine forall₂_congr fun b hb => ?_
  rw [Branch.selected_congr (h b hb)]

/-- If a branch around a place is not around a later one, then some truth values that keep what they
kept of everything behind do not select the branch, unless none do. -/
theorem exists_not_selected (hRead : read path text search = .ok u)
    (hSingle : u.IsSingleFile search) (hLe : p ≤ q)
    (hb : b ∈ u.branchesAt p) (hOutside : b ∉ u.branchesAt q) (hConsistent : u.Consistent ρ)
    (hKeeps : u.Keeps ρ q) (hFree : ∃ ρ₀, u.Consistent ρ₀ ∧ b.selected ρ₀ = false) :
    ∃ ρ', u.Consistent ρ' ∧ b.selected ρ' = false
      ∧ ∀ r, q ≤ r → (u.Keeps ρ r ↔ u.Keeps ρ' r) := by
  have hRuns := runs_of_read hRead hSingle
  have hNested : Branch.Nested p (u.branchesAt p) :=
    Branch.nested_around hRuns ⟨nofun, .nil⟩
  rcases Branch.lasts_around hRuns ⟨nofun, .nil⟩ hLe hb with h | ⟨c, hc, hFollows⟩ | hClosed
  · exact absurd h hOutside
  · exact ⟨ρ, hConsistent, hFollows.not_selected (hKeeps c hc), fun r _ => Iff.rfl⟩
  · -- The group is closed, so its conditions can be chosen as they were where they do not select
    -- it.
    obtain ⟨ρ₀, hConsistent₀, hSelected₀⟩ := hFree
    refine ⟨fun x => if x ∈ b.places then ρ₀ x else ρ x, ?_, ?_, fun r hr => ?_⟩
    · refine hConsistent₀.mix hConsistent fun x => ?_
      split
      · exact .inl rfl
      · exact .inr rfl
    · rw [← hSelected₀]
      exact Branch.selected_congr fun x hx => if_pos hx
    · refine keeps_congr fun c hc x hx => ?_
      have hPlaces : ∀ x ∈ b.places, x < q :=
        fun x hx => Nat.lt_of_lt_of_le (hNested.before b hb x hx) hLe
      have hApart := Branch.disjoint_around hRuns hPlaces hr hClosed c hc
      exact (if_neg fun hOwn => hApart hOwn hx).symm

theorem Reaches.congr (h : u.Reaches ρ e p)
    (hSame : ∀ r, e.position ≤ r → (u.Keeps ρ r ↔ u.Keeps ρ' r)) : u.Reaches ρ' e p where
  before := h.before
  kept := (hSame _ (Nat.le_refl _)).mp h.kept
  inForce x hx hUndef hName hAfter hBefore hKept :=
    h.inForce x hx hUndef hName hAfter hBefore ((hSame _ (Nat.le_of_lt hAfter)).mpr hKept)

end CompilationUnit

namespace Survey

variable {parse : List UInt8 → SyntaxNode} {settings : Settings} {u : CompilationUnit}
  {name : String} {d : ActiveSpan} {e : Event}

/-- The definition that a macro is classified by comes before all other live ones. -/
theorem subject_position_le (h : (Survey.ofUnit parse settings u).subject name = .ok d)
    (he : e ∈ u.events) (hDefines : e.Defines name) (hLive : e.reachability ≠ .disabled) :
    d.position ≤ e.position := by
  obtain ⟨hDefine, hName⟩ := hDefines
  cases hDirective : e.directive with
  | undef => rw [hDirective] at hDefine; cases hDefine
  | define definition =>
      rw [hDirective] at hName
      obtain ⟨s, hs, -, hPosition, hReach⟩ := MacroTable.exists_span_of_event he hDirective
      obtain ⟨others, hLiveSpans⟩ := (subject_eq_ok h).2.1
      have hMem : s ∈ d :: others := by
        rw [← hLiveSpans]
        exact List.mem_filter.mpr ⟨hName ▸ hs, by simpa [hReach] using hLive⟩
      have hSorted := (MacroTable.definitions_pairwise (MacroTable.ofEvents u.events) name).filter
        (·.reachability != .disabled)
      rw [← hPosition]
      rcases List.mem_cons.mp hMem with rfl | hMem
      · exact Nat.le_refl _
      · exact (List.pairwise_cons.mp (hLiveSpans ▸ hSorted)).1 s hMem

end Survey

namespace Analysis

variable {parse : List UInt8 → SyntaxNode} {settings : Settings}
  {load : String → Except AccessFault (List UInt8)} {path : String} {text : Text} {a : Analysis}
  {p : Proposal}

/-- The declaration of a macro takes the place of its first live definition. -/
theorem exists_subject_of_mem_plan (h : ofText parse settings load path text = .ok a)
    (hp : p ∈ a.plan.proposals) :
    ∃ d declaration, (Survey.ofUnit parse settings a.unit).subject p.macroName = .ok d
      ∧ p.declaration = some declaration
      ∧ p.edits.head? = some ⟨Proposal.extentOf d.definition.span, declaration, p.id,
        .replace⟩ := by
  obtain ⟨-, hUnit⟩ := ofText_eq_ok h
  obtain ⟨c, -, d, declaration, hSubject, -, -, -, rfl⟩ :=
    exists_classification_of_mem_plan hUnit hp
  exact ⟨d, declaration.text, hSubject, rfl, rfl⟩

/-- The definition that gives way to the declaration is kept wherever the macro is used and defined
if and only if each branch around it is around every other definition that serves a use, or always
taken. Nothing compares the branches of the definitions that are deleted with those of the one that
is replaced. -/
theorem survives_iff (h : ofText parse settings load path text = .ok a)
    (hSingle : a.unit.IsSingleFile (search? settings load)) (hp : p ∈ a.plan.proposals) :
    ∃ d ∈ (MacroTable.ofEvents a.unit.events).definitions p.macroName, ∃ declaration,
      p.declaration = some declaration
      ∧ p.edits.head? = some ⟨Proposal.extentOf d.definition.span, declaration, p.id, .replace⟩
      ∧ (a.unit.Survives ((Survey.ofUnit parse settings a.unit).uses.usages p.macroName) p.macroName
            d.position ↔
          ∀ e ∈ a.unit.events, e.Defines p.macroName →
            a.unit.Serves ((Survey.ofUnit parse settings a.unit).uses.usages p.macroName) e →
            ∀ b ∈ a.unit.branchesAt d.position,
              b ∈ a.unit.branchesAt e.position ∨ ∀ ρ, a.unit.Consistent ρ →
              b.selected ρ = true) := by
  obtain ⟨hRead, -⟩ := ofText_eq_ok h
  obtain ⟨d, declaration, hSubject, hDeclaration, hEdit⟩ := exists_subject_of_mem_plan h hp
  refine ⟨d, (Survey.mem_definitions_of_subject hSubject).1, declaration, hDeclaration, hEdit, ?_⟩
  constructor
  · rintro hSurvives e he hDefines ⟨ρ, hConsistent, w, hw, hKept, hReaches⟩ b hb
    by_contra hOther
    simp only [not_or, not_forall, Bool.not_eq_true] at hOther
    obtain ⟨hOutside, ρ₀, hConsistent₀, hSelected₀⟩ := hOther
    have hLive := CompilationUnit.not_disabled_of_keeps hRead hSingle he hConsistent hReaches.kept
    have hLe := Survey.subject_position_le hSubject he hDefines hLive
    obtain ⟨ρ', hConsistent', hNot, hSame⟩ := CompilationUnit.exists_not_selected hRead hSingle hLe
      hb hOutside hConsistent hReaches.kept ⟨ρ₀, hConsistent₀, hSelected₀⟩
    have hKept' : a.unit.Keeps ρ' w.token.position :=
      (hSame _ (Nat.le_of_lt hReaches.before)).mp hKept
    have hSelected :=
      hSurvives ρ' hConsistent' w hw hKept' ⟨e, he, hDefines, hReaches.congr hSame⟩ b hb
    rw [hNot] at hSelected
    cases hSelected
  · rintro hAround ρ hConsistent w hw hKept ⟨e, he, hDefines, hReaches⟩ b hb
    rcases hAround e he hDefines ⟨ρ, hConsistent, w, hw, hKept, hReaches⟩ b hb with hInside
      | hAlways
    · exact hReaches.kept b hInside
    · exact hAlways ρ hConsistent

/-- A macro with one definition is kept with it. -/
theorem survives_conditional :
    ∃ a, ofText .scopeless {} (fun _ => .error .notFound) "a.cpp"
        "#if A\n#define N 1\nint x = N;\n#endif\n" = .ok a
      ∧ a.unit.IsSingleFile (search? {} fun _ => .error .notFound)
      ∧ ∃ p ∈ a.plan.proposals, p.macroName = "N"
        ∧ ∃ d ∈ (MacroTable.ofEvents a.unit.events).definitions "N",
          a.unit.Survives ((Survey.ofUnit .scopeless {} a.unit).uses.usages "N") "N"
            d.position := by
  refine Except.exists_of_passes (fun a => a.plan.proposals.any (·.macroName == "N")
    && decide (∀ line ∈ a.unit.lines, ¬ line.Followed)
    && decide (∀ d ∈ (MacroTable.ofEvents a.unit.events).definitions "N",
      ∀ e ∈ a.unit.events, ∀ b ∈ a.unit.branchesAt d.position, b ∈ a.unit.branchesAt e.position))
    (by decide +kernel) fun a h hTest => ?_
  simp only [Bool.and_eq_true, List.any_eq_true, beq_iff_eq, decide_eq_true_eq] at hTest
  obtain ⟨⟨⟨p, hp, hName⟩, hLines⟩, hAround⟩ := hTest
  have hSingle : a.unit.IsSingleFile (search? {} fun _ => .error .notFound) := fun _ => hLines
  obtain ⟨d, hd, -, -, -, hSurvives⟩ := survives_iff h hSingle hp
  rw [hName] at hd hSurvives
  exact ⟨hSingle, p, hp, hName, d, hd, hSurvives.mpr fun e he _ _ b hb => .inl
    (hAround d hd e he b hb)⟩

/-- The declaration goes where the first branch was, and the branch that is kept loses its
definition. -/
theorem not_survives_otherwise :
    ∃ a, ofText .scopeless {} (fun _ => .error .notFound) "a.cpp"
        "#if A\n#define N 1\n#else\n#define N 1\n#endif\nint x = N;\n" = .ok a
      ∧ a.unit.IsSingleFile (search? {} fun _ => .error .notFound)
      ∧ ∃ p ∈ a.plan.proposals, p.macroName = "N"
        ∧ ∃ d ∈ (MacroTable.ofEvents a.unit.events).definitions "N",
          p.edits.head?.map (·.toExtent) = some (Proposal.extentOf d.definition.span)
          ∧ ¬ a.unit.Survives ((Survey.ofUnit .scopeless {} a.unit).uses.usages "N") "N"
            d.position := by
  refine Except.exists_of_passes (fun a =>
      decide ((∀ line ∈ a.unit.lines, ¬ line.Followed)
      ∧ ∃ p ∈ a.plan.proposals, p.macroName = "N"
        ∧ ∃ d ∈ (MacroTable.ofEvents a.unit.events).definitions "N",
          p.edits.head?.map (·.toExtent) = some (Proposal.extentOf d.definition.span)
          ∧ a.unit.Consistent (· ≠ 0)
          ∧ ∃ w ∈ (Survey.ofUnit .scopeless {} a.unit).uses.usages "N",
            a.unit.Keeps (· ≠ 0) w.token.position ∧ a.unit.DefinedAt (· ≠ 0) "N" w.token.position
              ∧ ¬ a.unit.Keeps (· ≠ 0) d.position))
    (by decide +kernel) fun a h hTest => ?_
  obtain ⟨hLines, p, hp, hName, d, hd, hEdit, hConsistent, w, hw, hKept, hDefined, hNot⟩ :=
    of_decide_eq_true hTest
  exact ⟨fun _ => hLines, p, hp, hName, d, hd, hEdit,
    fun hSurvives => hNot (hSurvives _ hConsistent w hw hKept hDefined)⟩

end Analysis

end Demacro
