import Demacro.Proofs.Success
import Demacro.Unit

/-!
Reading a unit, step by step. An invariant that one more line cannot break holds of all that is read
through any nesting of includes. The include guards of a unit are such a case: each of them is
defined by a line of the unit that is not disabled.
-/

namespace Demacro

namespace Reading

variable {search : Option IncludeSearch} {follow : Option Follow} {path : String} {text : Text}
  {outer reach : Reachability} {isGuard : Bool} {first : Token} {rest : List Token}
  {lines : List (List Token)} {groups groups' : List Group} {r r' : Reading} {P : Reading → Prop}

/-- A property of readings that one more line and one more file not to be read again cannot
break. -/
structure Stable (P : Reading → Prop) : Prop where
  add : ∀ r line, P r → P (r.add line)
  addOnce : ∀ r path, P r → P (r.addOnce path)

/-- Following an include in live code keeps a property. -/
def Keeps (P : Reading → Prop) (follow : Follow) : Prop :=
  ∀ path text reach r r', reach ≠ .disabled → P r → follow path text reach r = .ok r' → P r'

theorem addInclude_keeps {body : List Token} {line : Bool → UnitLine} {span : Span}
    (hP : Stable P) (hFollow : ∀ f ∈ follow, Keeps P f) (hReach : reach ≠ .disabled) (hr : P r)
    (h : addInclude search follow path body line span reach r = .ok r') : P r' := by
  unfold addInclude at h
  split at h
  · cases h
    exact hP.add _ _ hr
  split at h
  · cases h
    exact hP.add _ _ hr
  split at h
  · cases h
  rename_i f
  split at h
  · cases h
  · cases h
    exact hP.add _ _ hr
  split at h
  · cases h
    exact hP.add _ _ hr
  · exact hFollow f rfl _ _ _ _ _ hReach (hP.add _ _ hr) h

theorem addDirective_keeps (hP : Stable P) (hFollow : ∀ f ∈ follow, Keeps P f) (hr : P r)
    (h : addDirective search follow path first rest reach r = .ok r') : P r' := by
  unfold addDirective at h
  dsimp only at h
  split at h
  · cases h
    exact hP.add _ _ hr
  · split at h
    · cases h
      exact hP.add _ _ hr
    · cases h
  split at h
  · rename_i hInclude
    exact addInclude_keeps hP hFollow hInclude.2 hr h
  split at h
  · cases h
    exact hP.addOnce _ _ (hP.add _ _ hr)
  · cases h
    exact hP.add _ _ hr

theorem addLine_keeps (hP : Stable P) (hFollow : ∀ f ∈ follow, Keeps P f) (hr : P r)
    (h : addLine search follow path outer isGuard first rest groups r = .ok (groups', r')) :
    P r' := by
  unfold addLine at h
  split at h
  · dsimp only at h
    split at h
    · obtain ⟨next, -, h⟩ := Except.bind_eq_ok_iff.mp h
      cases h
      exact hP.add _ _ hr
    · obtain ⟨r', hDirective, h⟩ := Except.bind_eq_ok_iff.mp h
      cases h
      exact addDirective_keeps hP hFollow hr hDirective
  · cases h
    exact hP.add _ _ hr

/-- Reading lines keeps what one line cannot break, if following an include does. -/
theorem addLines_keeps (hP : Stable P) (hFollow : ∀ f ∈ follow, Keeps P f) (hr : P r)
    (h : addLines search follow path outer isGuard lines groups r = .ok (groups', r')) : P r' := by
  induction lines generalizing isGuard groups r with
  | nil =>
      cases h
      exact hr
  | cons line lines ih =>
      cases line with
      | nil => exact ih hr h
      | cons first rest =>
          obtain ⟨⟨groups, r⟩, hLine, h⟩ := Except.bind_eq_ok_iff.mp h
          exact ih (addLine_keeps hP hFollow hr hLine) h

/-- A live line with a `#define` is read as the definition that is on it. -/
theorem addDirective_define (hKeyword : (Directive.split (first :: rest)).1 = "define")
    (hReach : reach ≠ .disabled)
    (h : addDirective search follow path first rest reach r = .ok r') :
    ∃ d, Directive.define? first rest = .ok d
      ∧ r' = r.add ⟨first, rest, reach, .directive "define" (some (.define d)) false⟩ := by
  unfold addDirective at h
  simp only [hKeyword, Directive.ofLine?, ↓reduceIte] at h
  split at h
  · rename_i d hDefine
    rw [Option.some.injEq, Except.map_eq_ok_iff] at hDefine
    obtain ⟨definition, hDefinition, rfl⟩ := hDefine
    cases h
    exact ⟨definition, hDefinition, rfl⟩
  · rw [if_neg hReach] at h
    cases h
  · rename_i hNone
    cases hNone

end Reading

/-- Whether a live line gives a name an empty replacement. -/
def UnitLine.DefinesEmpty (line : UnitLine) (name : String) : Prop :=
  line.reachability ≠ .disabled ∧ ∃ d keyword unresolved,
    line.role = .directive keyword (some (.define d)) unresolved
      ∧ d.name = name ∧ d.shape = .object ∧ d.replacement = []

namespace Reading

variable {search : Option IncludeSearch} {follow : Option Follow} {path : String} {text : Text}
  {outer : Reachability} {lines : List (List Token)} {groups' : List Group} {r r' : Reading}

/-- Each include guard is defined by some line. -/
def Guarded (r : Reading) : Prop :=
  ∀ path name, (path, name) ∈ r.guards → ∃ line ∈ r.lines, line.DefinesEmpty name

theorem guarded_stable : Stable Guarded where
  add r line h := by
    intro path name hGuard
    obtain ⟨found, hFound, hDefines⟩ := h path name hGuard
    exact ⟨found, by simp [add, hFound], hDefines⟩
  addOnce r path h := h

/-- A file has an include guard only if its first two lines open a group and define a name. -/
theorem includeGuard?_eq_some {guard : Text} (h : includeGuard? lines = some guard) :
    ∃ o os d ds others, lines = (o :: os) :: (d :: ds) :: others
      ∧ o.isPunct "#" = true ∧ d.isPunct "#" = true
      ∧ guardOperand? (Directive.split (o :: os)).1 (Directive.split (o :: os)).2 = some guard
      ∧ (Directive.split (d :: ds)).1 = "define"
      ∧ (Directive.split (d :: ds)).2.map Token.lexeme = [guard] := by
  unfold includeGuard? at h
  split at h
  · rename_i opening defining others
    split at h
    · rename_i hLines
      obtain ⟨hOpening, hDefining⟩ := Bool.and_eq_true_iff.mp hLines
      dsimp only at h
      split at h
      · rename_i guard' hOperand
        split at h
        · rename_i hDefine
          cases h
          cases opening with
          | nil => cases hOpening
          | cons o os =>
              cases defining with
              | nil => cases hDefining
              | cons d ds =>
                  refine ⟨o, os, d, ds, others, rfl, ?_, ?_, hOperand, hDefine.1, hDefine.2.1⟩
                  · simpa [Directive.isLine] using hOpening
                  · simpa [Directive.isLine] using hDefining
        · cases h
      · cases h
    · cases h
  · cases h

theorem guardOperand?_keyword {keyword : String} {body : List Token} {guard : Text}
    (h : guardOperand? keyword body = some guard) : keyword = "ifndef" ∨ keyword = "if" := by
  unfold guardOperand? at h
  repeat' split at h
  all_goals simp_all

/-- The first branch of a group is as certain as its condition, or as a guard. -/
theorem opened_eq_ok {c : Conditional} {body : List Token} {span : Span} {live isGuard : Bool}
    {g : Group} (h : Group.opened c body span live isGuard = .ok g) :
    ∃ known, g = Group.start c span.line (if isGuard then .always else known)
      ∧ if c = .whenTrue then Conditional.certainty body = .ok known else known = .maybe := by
  unfold Group.opened at h
  dsimp only at h
  split at h
  · rename_i hCondition
    split at h
    · cases h
    · obtain ⟨known, hKnown, h⟩ := Except.bind_eq_ok_iff.mp h
      cases h
      exact ⟨known, rfl, by rwa [if_pos hCondition, ← Except.mapError_eq_ok_iff]⟩
  · rename_i hCondition
    split at h
    · cases h
    · cases h
      exact ⟨.maybe, rfl, by rw [if_neg hCondition]⟩

/-- The group that an include guard opens is taken. -/
theorem addLine_guard {o : Token} {os : List Token} {guard : Text} (hLine : o.isPunct "#" = true)
    (hGuard : guardOperand? (Directive.split (o :: os)).1 (Directive.split (o :: os)).2
      = some guard)
    (h : addLine search follow path outer true o os [] r = .ok (groups', r')) :
    ∃ g line, groups' = [g] ∧ g.current = .always ∧ r' = r.add line := by
  unfold addLine at h
  rw [if_pos hLine] at h
  dsimp only at h
  have hOpens : ∃ c, Conditional.ofKeyword? (Directive.split (o :: os)).1 = some c
      ∧ c.isOpener = true := by
    rcases guardOperand?_keyword hGuard with hKeyword | hKeyword
    · exact ⟨.whenUndefined, by rw [hKeyword]; decide, rfl⟩
    · exact ⟨.whenTrue, by rw [hKeyword]; decide, rfl⟩
  obtain ⟨c, hConditional, hOpener⟩ := hOpens
  rw [hConditional] at h
  obtain ⟨next, hNext, h⟩ := Except.bind_eq_ok_iff.mp h
  cases h
  rw [Group.next, if_pos hOpener, Except.map_eq_ok_iff] at hNext
  obtain ⟨g, hOpened, rfl⟩ := hNext
  obtain ⟨known, rfl, -⟩ := opened_eq_ok hOpened
  exact ⟨_, _, rfl, rfl, rfl⟩

theorem reachability_always {g : Group} (h : g.current = .always) :
    Group.reachability [g] outer = outer := by
  cases outer <;> simp [Group.reachability, h]

theorem mem_assign {key : String} {value : α} {pairs : List (String × α)} {pair : String × α}
    (h : pair ∈ assign key value pairs) : pair = (key, value) ∨ pair ∈ pairs := by
  induction pairs with
  | nil => exact .inl (by simpa [assign] using h)
  | cons p pairs ih =>
      unfold assign at h
      split at h
      · rcases List.mem_cons.mp h with h | h
        · exact .inl h
        · exact .inr (List.mem_cons_of_mem p h)
      · rcases List.mem_cons.mp h with rfl | h
        · exact .inr List.mem_cons_self
        · exact (ih h).imp_right (List.mem_cons_of_mem p)

/-- A `#define` of a name with nothing behind it. -/
theorem define?_single {first : Token} {rest : List Token} {d : Definition} {name : Text}
    (h : Directive.define? first rest = .ok d)
    (hOperands : (Directive.split (first :: rest)).2.map Token.lexeme = [name]) :
    d.name = name.display ∧ d.shape = .object ∧ d.replacement = [] := by
  obtain ⟨t, hSplit, rfl⟩ := List.map_eq_singleton_iff.mp hOperands
  unfold Directive.define? at h
  simp only [hSplit] at h
  split at h
  · cases h
  split at h
  · cases h
  · cases h
    exact ⟨rfl, rfl, rfl⟩

/-- Reading a file keeps the guards of the files before it and adds its own. -/
theorem addFile_guarded (hFollow : ∀ f ∈ follow, Keeps Guarded f) :
    Keeps Guarded (addFile search follow) := by
  intro path text outer r r' hOuter hr h
  unfold addFile at h
  split at h
  · cases h
  rename_i tokens hTokens
  obtain ⟨⟨groups, last⟩, hLines, h⟩ := Except.bind_eq_ok_iff.mp h
  have hLast : last.Guarded := by
    cases hGuard : includeGuard? (Token.logicalLines tokens) with
    | none =>
        rw [hGuard] at hLines
        refine addLines_keeps guarded_stable hFollow ?_ hLines
        exact hr
    | some guard =>
        -- The guard counts from the first line on, but only the second line defines it.
        obtain ⟨o, os, d, ds, others, hShape, ho, hd, hOperand, hKeyword, hName⟩ :=
          includeGuard?_eq_some hGuard
        rw [hGuard, hShape] at hLines
        obtain ⟨⟨groups₁, r₁⟩, hFirst, hLines⟩ := Except.bind_eq_ok_iff.mp hLines
        obtain ⟨g, opening, rfl, hAlways, rfl⟩ := addLine_guard ho hOperand hFirst
        obtain ⟨⟨groups₂, r₂⟩, hSecond, hLines⟩ := Except.bind_eq_ok_iff.mp hLines
        refine addLines_keeps guarded_stable hFollow ?_ hLines
        unfold addLine at hSecond
        rw [if_pos hd] at hSecond
        have hOther : Conditional.ofKeyword? (Directive.split (d :: ds)).1 = none := by
          rw [hKeyword]
          decide
        simp only [hOther] at hSecond
        obtain ⟨r₂, hDefine, hSecond⟩ := Except.bind_eq_ok_iff.mp hSecond
        cases hSecond
        rw [reachability_always hAlways] at hDefine
        obtain ⟨definition, hDefinition, rfl⟩ := addDirective_define hKeyword hOuter hDefine
        obtain ⟨hDefinedName, hShape, hReplacement⟩ := define?_single hDefinition hName
        intro guardPath name hMem
        rcases mem_assign hMem with hOwn | hOld
        · cases hOwn
          refine ⟨⟨d, ds, outer, .directive "define" (some (.define definition)) false⟩, ?_, hOuter,
            definition, _, _, rfl, hDefinedName, hShape, hReplacement⟩
          simp [add]
        · obtain ⟨line, hLine, hDefines⟩ := hr guardPath name hOld
          exact ⟨line, by simp [add, hLine], hDefines⟩
  dsimp only at h
  split at h
  · cases h
  · cases h
    split
    · exact guarded_stable.addOnce _ _ hLast
    · exact hLast

theorem addFileWithin_guarded (search : Option IncludeSearch) (budget : Nat) :
    Keeps Guarded (addFileWithin search budget) := by
  induction budget with
  | zero => exact addFile_guarded (by simp)
  | succ budget ih => exact addFile_guarded (by simpa using ih)

end Reading

namespace CompilationUnit

variable {u : CompilationUnit}

theorem exists_numbered {n : Nat} {line : UnitLine} {lines : List UnitLine} (h : line ∈ lines) :
    ∃ position, (position, line) ∈ numbered n lines := by
  induction lines generalizing n with
  | nil => cases h
  | cons other lines ih =>
      rcases List.mem_cons.mp h with rfl | h
      · exact ⟨n, List.mem_cons_self⟩
      · obtain ⟨position, hMem⟩ := ih h
        exact ⟨position, List.mem_cons_of_mem _ hMem⟩

/-- The guards of a unit are names with an empty live definition. -/
theorem guard_defined {path : String} {text : Text} {search : Option IncludeSearch}
    (h : read path text search = .ok u) {guarded name : String}
    (hGuard : (guarded, name) ∈ u.guards) :
    ∃ e ∈ u.events, e.reachability ≠ .disabled ∧ ∃ d, e.directive = .define d ∧ d.name = name
      ∧ d.shape = .object ∧ d.replacement = [] := by
  obtain ⟨r, hRead, h⟩ := Except.bind_eq_ok_iff.mp h
  cases h
  have hGuarded : r.Guarded := by
    refine Reading.addFileWithin_guarded search maxIncludeDepth path text .unconditional {} r ?_
      ?_ hRead
    · decide
    · intro path name hNone
      cases hNone
  obtain ⟨line, hLine, hLive, d, keyword, unresolved, hRole, hDefinition⟩ :=
    hGuarded guarded name hGuard
  obtain ⟨n, hPlaced⟩ := exists_numbered (n := 0) (Array.mem_def.mp hLine)
  refine ⟨⟨.define d, n, n + line.rest.length, line.reachability⟩, ?_, hLive, d, rfl, hDefinition⟩
  exact List.mem_filterMap.mpr ⟨(n, line), hPlaced, by simp [hRole]⟩

end CompilationUnit

end Demacro
