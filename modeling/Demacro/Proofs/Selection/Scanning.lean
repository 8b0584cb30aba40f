import Demacro.Proofs.Reading
import Demacro.Proofs.Selection

/-!
The lines of a single file with the groups that are open around them. Where no include leads to a
file, the lines of a unit are the logical lines of its file, and the label of each comes from those
groups.
-/

namespace Demacro

/-- How lines are read inside open groups, and the groups behind them. The flag says that the first
line opens an include guard. -/
inductive Scanned : Bool → List Group → List UnitLine → List Group → Prop where
  | nil (isGuard : Bool) (groups : List Group) : Scanned isGuard groups [] groups
  | conditional {isGuard live : Bool} {groups between behind : List Group} {line : UnitLine}
      {lines : List UnitLine} {c : Conditional} (hLine : line.conditional? = some c)
      (hRole : ∃ keyword, line.role = .directive keyword none false)
      (hNext : Group.next groups c line.operands (Directive.lineSpan line.first line.rest)
        live isGuard
        = .ok between)
      (hRest : Scanned false between lines behind) : Scanned isGuard groups (line :: lines) behind
  | other {isGuard : Bool} {groups behind : List Group} {line : UnitLine} {lines : List UnitLine}
      (hLine : line.conditional? = none)
      (hLabel : line.reachability = Group.reachability groups .unconditional)
      (hRest : Scanned false groups lines behind) : Scanned isGuard groups (line :: lines) behind

/-- A line with a macro directive is no condition. -/
theorem Scanned.conditional?_eq_none {isGuard : Bool} {groups behind : List Group}
    {lines : List UnitLine} (h : Scanned isGuard groups lines behind) {line : UnitLine}
    (hLine : line ∈ lines) {keyword : String} {d : Directive} {unresolved : Bool}
    (hRole : line.role = .directive keyword (some d) unresolved) : line.conditional? = none := by
  induction h with
  | nil => cases hLine
  | conditional _ hOther _ _ ih =>
      rcases List.mem_cons.mp hLine with rfl | hLine
      · obtain ⟨other, hOther⟩ := hOther
        rw [hOther] at hRole
        cases hRole
      · exact ih hLine
  | other hNone _ _ ih =>
      rcases List.mem_cons.mp hLine with rfl | hLine
      · exact hNone
      · exact ih hLine

/-- The conditional directive on a logical line. -/
def Conditional.ofLine? (tokens : List Token) : Option Conditional :=
  if Directive.isLine tokens then ofKeyword? (Directive.split tokens).1 else none

/-- A line of a unit stands for a logical line: it has its tokens and its conditional directive. -/
structure UnitLine.IsOf (line : UnitLine) (tokens : List Token) : Prop where
  content : line.first :: line.rest = tokens
  kind : line.conditional? = Conditional.ofLine? tokens

/-- A live include line that led to a file. -/
def UnitLine.Followed (line : UnitLine) : Prop :=
  line.role = .directive "include" none false ∧ line.reachability ≠ .disabled

instance (line : UnitLine) : Decidable line.Followed :=
  inferInstanceAs
    (Decidable (line.role = .directive "include" none false ∧ line.reachability ≠ .disabled))

namespace Reading

variable {search : Option IncludeSearch} {follow : Option Follow} {path : String} {text : Text}
  {isGuard : Bool} {first : Token} {rest : List Token} {lines : List (List Token)}
  {groups groups' : List Group} {r r' : Reading} {reach : Reachability}

theorem stable_mem_lines (line : UnitLine) : Stable (line ∈ ·.lines) where
  add r other h := by simp [add, h]
  addOnce r path h := h

/-- Reading a file drops no line. -/
theorem addFileWithin_keeps_lines (search : Option IncludeSearch) (budget : Nat) (line : UnitLine) :
    Keeps (line ∈ ·.lines) (addFileWithin search budget) := by
  have hFile : ∀ follow : Option Follow, (∀ f ∈ follow, Keeps (line ∈ ·.lines) f) →
      Keeps (line ∈ ·.lines) (addFile search follow) := by
    intro follow hFollow path text outer r r' hOuter hr h
    unfold addFile at h
    split at h
    · cases h
    obtain ⟨⟨groups, last⟩, hLines, h⟩ := Except.bind_eq_ok_iff.mp h
    have hLast : line ∈ last.lines :=
      addLines_keeps (stable_mem_lines line) hFollow (by exact hr) hLines
    dsimp only at h
    split at h
    · cases h
    · cases h
      split <;> exact hLast
  induction budget with
  | zero => exact hFile none (by simp)
  | succ budget ih => exact hFile _ (by simpa using ih)

/-- A directive that leads to no file adds one line. -/
theorem addDirective_line (hFollow : ∀ line, ∀ f ∈ follow, Keeps (line ∈ ·.lines) f)
    (hAlone : search.isSome = true → ∀ line ∈ r'.lines, ¬ line.Followed)
    (h : addDirective search follow path first rest reach r = .ok r') :
    ∃ change unresolved, r'.lines = r.lines.push ⟨first, rest, reach,
        .directive (Directive.split (first :: rest)).1 change unresolved⟩
      ∧ r'.guards = r.guards := by
  unfold addDirective at h
  dsimp only at h
  split at h
  · cases h
    exact ⟨_, _, rfl, rfl⟩
  · split at h
    · cases h
      exact ⟨_, _, rfl, rfl⟩
    · cases h
  split at h
  · rename_i hInclude
    obtain ⟨hKeyword, hLive⟩ := hInclude
    unfold addInclude at h
    split at h
    · cases h
      exact ⟨_, _, rfl, rfl⟩
    rename_i search
    split at h
    · cases h
      exact ⟨_, _, rfl, rfl⟩
    split at h
    · cases h
    rename_i f
    split at h
    · cases h
    · cases h
      exact ⟨_, _, rfl, rfl⟩
    split at h
    · cases h
      exact ⟨_, _, rfl, rfl⟩
    · have hMem := hFollow _ f rfl _ _ _ _ _ hLive (Array.mem_push_self) h
      exact absurd ⟨by rw [hKeyword], hLive⟩ (hAlone rfl _ hMem)
  split at h
  · cases h
    exact ⟨_, _, rfl, rfl⟩
  · cases h
    exact ⟨_, _, rfl, rfl⟩

theorem addLine_scanned (hFollow : ∀ line, ∀ f ∈ follow, Keeps (line ∈ ·.lines) f)
    (hAlone : search.isSome = true → ∀ line ∈ r'.lines, ¬ line.Followed)
    (h : addLine search follow path .unconditional isGuard first rest groups r = .ok (groups',
      r')) :
    ∃ line, r'.lines = r.lines.push line ∧ r'.guards = r.guards ∧ line.IsOf (first :: rest)
      ∧ ∀ {lines behind}, Scanned false groups' lines behind →
          Scanned isGuard groups (line :: lines) behind := by
  unfold addLine at h
  split at h
  · rename_i hLine
    have hOf : ∀ (reach : Reachability) (change : Option Directive) (unresolved : Bool),
        UnitLine.IsOf ⟨first, rest, reach,
          .directive (Directive.split (first :: rest)).1 change unresolved⟩ (first :: rest) := by
      refine fun reach change unresolved => ⟨rfl, ?_⟩
      simp [UnitLine.conditional?, Conditional.ofLine?, Directive.isLine, hLine]
    dsimp only at h
    split at h
    · rename_i c hConditional
      obtain ⟨between, hNext, h⟩ := Except.bind_eq_ok_iff.mp h
      cases h
      exact ⟨_, rfl, rfl, hOf .., fun hRest => .conditional hConditional ⟨_, rfl⟩ hNext hRest⟩
    · rename_i hConditional
      obtain ⟨last, hDirective, h⟩ := Except.bind_eq_ok_iff.mp h
      cases h
      obtain ⟨change, unresolved, hLines, hGuards⟩ := addDirective_line hFollow hAlone hDirective
      exact ⟨_, hLines, hGuards, hOf .., fun hRest => .other hConditional rfl hRest⟩
  · rename_i hLine
    cases h
    refine ⟨_, rfl, rfl, ⟨rfl, ?_⟩, fun hRest => .other rfl rfl hRest⟩
    simp [UnitLine.conditional?, Conditional.ofLine?, Directive.isLine, hLine]

/-- Where no include leads to a file, logical lines become lines of the unit one by one. -/
theorem addLines_scanned (hFollow : ∀ line, ∀ f ∈ follow, Keeps (line ∈ ·.lines) f)
    (hAlone : search.isSome = true → ∀ line ∈ r'.lines, ¬ line.Followed)
    (hGuard : isGuard = true → lines.head? ≠ some [])
    (h : addLines search follow path .unconditional isGuard lines groups r = .ok (groups', r')) :
    ∃ added, r'.lines.toList = r.lines.toList ++ added ∧ r'.guards = r.guards
      ∧ List.Forall₂ UnitLine.IsOf added (lines.filter (!·.isEmpty))
      ∧ Scanned isGuard groups added groups' := by
  induction lines generalizing isGuard groups r with
  | nil =>
      cases h
      exact ⟨[], by simp, rfl, .nil, .nil _ _⟩
  | cons line lines ih =>
      cases line with
      | nil =>
          have hFalse : isGuard = false := by
            by_contra hTrue
            exact hGuard (by simpa using hTrue) rfl
          subst hFalse
          exact ih (by simp) h
      | cons first rest =>
          obtain ⟨⟨between, middle⟩, hLine, h⟩ := Except.bind_eq_ok_iff.mp h
          have hMiddle : search.isSome = true → ∀ line ∈ middle.lines, ¬ line.Followed :=
            fun hSearch line hMem => hAlone hSearch line
              (addLines_keeps (stable_mem_lines line) (hFollow line) hMem h)
          obtain ⟨line, hLines, hGuards, hOf, hFirst⟩ := addLine_scanned hFollow hMiddle hLine
          obtain ⟨added, hAdded, hGuards', hOthers, hRest⟩ := ih (by simp) h
          refine ⟨line :: added, ?_, hGuards'.trans hGuards, .cons hOf hOthers, hFirst hRest⟩
          rw [hAdded, hLines, Array.toList_push, List.append_assoc, List.singleton_append]

theorem isGuard_head {guard : Text} (h : includeGuard? lines = some guard) :
    lines.head? ≠ some [] := by
  obtain ⟨o, os, d, ds, others, rfl, -⟩ := includeGuard?_eq_some h
  simp

end Reading

namespace CompilationUnit

/-- No include of a unit leads to a file, whether none is looked for or none is found. -/
def IsSingleFile (u : CompilationUnit) (search : Option IncludeSearch) : Prop :=
  search.isSome = true → ∀ line ∈ u.lines, ¬ line.Followed

section

variable {u : CompilationUnit} {path : String} {text : Text} {search : Option IncludeSearch}

/-- The lines of a unit of one file are the logical lines of the file. They were read in no group,
and leave none open; the first opens an include guard if the file has one. -/
theorem exists_lines_of_read (h : read path text search = .ok u) (hSingle : u.IsSingleFile search) :
    ∃ lines, List.Forall₂ UnitLine.IsOf u.lines (lines.filter (!·.isEmpty))
      ∧ (Reading.includeGuard? lines).isSome = !u.guards.isEmpty
      ∧ Scanned (!u.guards.isEmpty) [] u.lines [] := by
  obtain ⟨r, hRead, h⟩ := Except.bind_eq_ok_iff.mp h
  cases h
  rw [show maxIncludeDepth = 63 + 1 from rfl, Reading.addFileWithin, Reading.addFile] at hRead
  split at hRead
  · cases hRead
  rename_i tokens hTokens
  obtain ⟨⟨groups, last⟩, hLines, hRead⟩ := Except.bind_eq_ok_iff.mp hRead
  have hHead : (Reading.includeGuard? (Token.logicalLines tokens)).isSome = true →
      (Token.logicalLines tokens).head? ≠ some [] := by
    intro hSome
    obtain ⟨guard, hGuard⟩ := Option.isSome_iff_exists.mp hSome
    exact Reading.isGuard_head hGuard
  dsimp only at hRead
  split at hRead
  · cases hRead
  have hLast : r.lines = last.lines ∧ r.guards = last.guards := by
    cases hRead
    split <;> exact ⟨rfl, rfl⟩
  have hAlone : search.isSome = true → ∀ line ∈ last.lines, ¬ line.Followed :=
    fun hSearch line hLine => hSingle hSearch line (by simpa [hLast.1] using hLine)
  obtain ⟨added, hAdded, hGuards, hOf, hScanned⟩ := Reading.addLines_scanned
    (by simpa using Reading.addFileWithin_keeps_lines search 63) hAlone hHead hLines
  rw [hLast.1, hLast.2, hGuards, hAdded]
  have hFlag : ∀ guard : Option Text,
      guard.isSome = !(guard.elim [] fun g => assign path g.display []).isEmpty := by
    intro guard
    cases guard <;> rfl
  refine ⟨Token.logicalLines tokens, ?_, hFlag _, ?_⟩
  · simpa only [List.nil_append] using hOf
  · simpa only [List.nil_append, ← hFlag] using hScanned

theorem scanned_of_read (h : read path text search = .ok u) (hSingle : u.IsSingleFile search) :
    Scanned (!u.guards.isEmpty) [] u.lines [] :=
  let ⟨_, _, _, hScanned⟩ := exists_lines_of_read h hSingle
  hScanned

end

end CompilationUnit

end Demacro
