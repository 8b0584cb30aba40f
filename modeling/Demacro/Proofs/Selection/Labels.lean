import Demacro.Proofs.Selection.Scanning
import Demacro.Proofs.Unit

/-!
Labels and selection. The reachability of an open group is computed from the values of conditions
that are fixed, and nothing else. So a line that is labelled as disabled is kept by no truth values
that agree with them.
-/

namespace Demacro

/-- The truth value that the operands of a conditional directive fix. -/
def Conditional.fixed? (c : Conditional) (operands : List Token) : Option Bool :=
  if c = .whenTrue ∨ c = .elseWhenTrue then
    match certainty operands with
    | .ok .always => some true
    | .ok .never => some false
    | _ => none
  else none

/-- The truth value that a conditional line fixes. -/
def UnitLine.fixed? (line : UnitLine) : Option Bool :=
  line.conditional?.bind (·.fixed? line.operands)

/-- What is known about a condition with a value that is fixed, or not. -/
def Certainty.ofFixed : Option Bool → Certainty
  | some true => .always
  | some false => .never
  | none => .maybe

@[simp]
theorem Certainty.ofFixed_beq_always (value : Option Bool) :
    (ofFixed value == .always) = (value == some true) := by
  rcases value with _ | _ | _ <;> rfl

@[simp]
theorem Certainty.ofFixed_beq_never (value : Option Bool) :
    (ofFixed value == .never) = (value == some false) := by
  rcases value with _ | _ | _ <;> rfl

@[simp]
theorem Certainty.ofFixed_eq_always_iff {value : Option Bool} :
    ofFixed value = .always ↔ value = some true := by
  rcases value with _ | _ | _ <;> simp [ofFixed]

@[simp]
theorem Certainty.ofFixed_eq_never_iff {value : Option Bool} :
    ofFixed value = .never ↔ value = some false := by
  rcases value with _ | _ | _ <;> simp [ofFixed]

/-- What labels take to be known about a branch, where `known` are the values of conditions that are
fixed. A branch whose own condition holds counts as always taken, whatever is open about the
conditions in front of it. -/
def Branch.certainty (known : Nat → Option Bool) (b : Branch) : Certainty :=
  if b.earlier.any (known · == some true) then .never
  else
    match b.condition with
    | some x => .ofFixed (known x)
    | none => if b.earlier.all (known · == some false) then .always else .maybe

theorem Branch.certainty_eq_never_iff {known : Nat → Option Bool} {b : Branch} :
    b.certainty known = .never ↔
      (∃ x ∈ b.earlier, known x = some true) ∨ ∃ x ∈ b.condition, known x = some false := by
  have hEarlier : b.earlier.any (known · == some true) = true ↔
      ∃ x ∈ b.earlier, known x = some true := by
    simp
  rw [← hEarlier, certainty]
  split
  · rename_i hTaken
    simp [hTaken]
  · rename_i hTaken
    rw [or_iff_right hTaken]
    cases hCondition : b.condition with
    | none =>
        dsimp only
        split <;> simp
    | some x => simp

/-- Truth values have the values that are fixed. -/
def Branch.Agrees (known : Nat → Option Bool) (ρ : Nat → Bool) : Prop :=
  ∀ x v, known x = some v → ρ x = v

/-- A branch that is known to be never taken is selected by no truth values that agree. -/
theorem Branch.Agrees.selected_eq_false {known : Nat → Option Bool} {ρ : Nat → Bool} {b : Branch}
    (h : Agrees known ρ) (hNever : b.certainty known = .never) : b.selected ρ = false := by
  rcases certainty_eq_never_iff.mp hNever with ⟨x, hx, hTrue⟩ | ⟨x, hCondition, hFalse⟩
  · have hEarlier : b.earlier.all (!ρ ·) = false := by
      refine List.all_eq_false.mpr ⟨x, hx, ?_⟩
      simp [h x true hTrue]
    rw [selected, hEarlier, Bool.false_and]
  · rw [Option.mem_def] at hCondition
    simp [selected, hCondition, h x false hFalse]

theorem Group.reachability_eq_disabled_iff {groups : List Group} :
    reachability groups .unconditional = .disabled ↔ ∃ g ∈ groups, g.current = .never := by
  have hNever : groups.any (·.current == .never) = true ↔ ∃ g ∈ groups, g.current = .never := by
    simp
  rw [← hNever, reachability]
  by_cases h : groups.any (·.current == .never) = true
  · simp [h]
  · simp only [h, reduceCtorEq, false_or, if_false, iff_false]
    split <;> simp

/-- An open group holds of the branch that is read what the fixed values of its conditions say. -/
structure Group.Reflects (known : Nat → Option Bool) (g : Group) (b : Branch) : Prop where
  isElse : g.sawElse = b.condition.isNone
  current : g.current = b.certainty known
  anyAlways : b.condition.isSome = true → g.anyAlways = b.places.any (known · == some true)
  allNever : b.condition.isSome = true → g.allNever = b.places.all (known · == some false)
  fresh : ∀ x ∈ b.condition, x ∉ b.earlier

namespace Group.Reflects

variable {known : Nat → Option Bool} {g : Group} {b : Branch} {n : Nat}

theorem isSome_condition (h : Reflects known g b) (hElse : g.sawElse = false) :
    b.condition.isSome = true := by
  have hIsElse := h.isElse
  rw [hElse] at hIsElse
  simpa using hIsElse.symm

/-- The first branch of a group. -/
theorem start {opener : Conditional} {line : Nat} :
    Reflects known (Group.start opener line (.ofFixed (known n))) ⟨[], some n⟩ where
  isElse := rfl
  current := rfl
  anyAlways _ := by simp [Group.start, Branch.places]
  allNever _ := by simp [Group.start, Branch.places]
  fresh _ _ := List.not_mem_nil

/-- The `#else` branch behind a branch with a condition. -/
theorem atElse (h : Reflects known g b) (hElse : g.sawElse = false) :
    Reflects known g.atElse ⟨b.places, none⟩ where
  isElse := rfl
  current := by
    have hCondition := h.isSome_condition hElse
    simp only [Group.atElse, Branch.certainty, h.anyAlways hCondition, h.allNever hCondition]
  anyAlways hNone := by cases hNone
  allNever hNone := by cases hNone
  fresh _ hNone := by cases hNone

/-- A further branch with a condition. Its own value does not count behind a branch that is always
taken. -/
theorem atBranch {value : Certainty} (h : Reflects known g b) (hElse : g.sawElse = false)
    (hFresh : n ∉ b.places) (hValue : g.anyAlways = false → value = .ofFixed (known n)) :
    Reflects known (g.atBranch value) ⟨b.places, some n⟩ := by
  have hAny := h.anyAlways (h.isSome_condition hElse)
  have hAll := h.allNever (h.isSome_condition hElse)
  have hFreshBranch : ∀ x ∈ (Branch.mk b.places (some n)).condition, x ∉ b.places := by
    rintro x hx
    cases hx
    exact hFresh
  unfold Group.atBranch
  split
  · rename_i hTaken
    rw [hTaken] at hAny
    refine ⟨hElse, ?_, fun _ => ?_, fun _ => ?_, hFreshBranch⟩
    · simp [Branch.certainty, ← hAny]
    · rw [Branch.places, List.any_append, ← hAny, Bool.true_or]
      exact hTaken
    · -- A condition that holds is none that fails.
      have hOld : b.places.all (known · == some false) = false := by
        obtain ⟨x, hx, hTrue⟩ := List.any_eq_true.mp hAny.symm
        refine List.all_eq_false.mpr ⟨x, hx, ?_⟩
        simp [eq_of_beq hTrue]
      rw [Branch.places, List.all_append, hOld, Bool.false_and]
      exact hAll.trans hOld
  · rename_i hTaken
    rw [Bool.not_eq_true] at hTaken
    have hNone : b.places.any (known · == some true) = false := hAny.symm.trans hTaken
    rw [hValue hTaken]
    refine ⟨hElse, ?_, fun _ => ?_, fun _ => ?_, hFreshBranch⟩
    · simp [Branch.certainty, hNone]
    · rw [Branch.places, List.any_append, hNone]
      simp
    · rw [Branch.places, List.all_append, ← hAll]
      simp

end Group.Reflects

section

variable {known : Nat → Option Bool} {groups groups' behind : List Group} {S : List Branch}
  {n : Nat} {c : Conditional} {operands : List Token} {span : Span} {live isGuard : Bool}
  {lines : List UnitLine}

/-- A certainty that operands give is that of the value that they fix. -/
theorem ofFixed_fixed? {value : Certainty} (hKind : c = .whenTrue ∨ c = .elseWhenTrue)
    (hValue : Conditional.certainty operands = .ok value) :
    value = .ofFixed (c.fixed? operands) := by
  rw [Conditional.fixed?, if_pos hKind, hValue]
  cases value <;> rfl

theorem fixed?_eq_none (hKind : ¬ (c = .whenTrue ∨ c = .elseWhenTrue)) : c.fixed? operands = none :=
  if_neg hKind

/-- A conditional directive that is read moves groups and branches on together. -/
theorem next_reflects (hPairs : List.Forall₂ (Group.Reflects known) groups S)
    (hNext : Group.next groups c operands span live isGuard = .ok groups')
    (hNested : Branch.Nested n S) (hGuard : isGuard = true → groups = [])
    (hKnown : known n = if isGuard then some true else c.fixed? operands) :
    List.Forall₂ (Group.Reflects known) groups' (Branch.next c n S)
      ∧ Branch.Step n S (Branch.next c n S) := by
  unfold Group.next at hNext
  split at hNext
  · rename_i hOpener
    rw [Branch.next_opener hOpener]
    obtain ⟨g, hOpened, rfl⟩ := Except.map_eq_ok_iff.mp hNext
    obtain ⟨value, rfl, hValue⟩ := Reading.opened_eq_ok hOpened
    have hStart : (if isGuard then Certainty.always else value) = .ofFixed (known n) := by
      rw [hKnown]
      split
      · rfl
      · split at hValue
        · rename_i hKind
          exact ofFixed_fixed? (.inl hKind) hValue
        · rename_i hKind
          rw [hValue, fixed?_eq_none]
          · rfl
          · rintro (h | rfl)
            · exact hKind h
            · cases hOpener
    rw [hStart]
    exact ⟨.cons .start hPairs, .enter S⟩
  · rename_i hOpener
    cases hPairs with
    | nil => cases hNext
    | @cons g b outer S hReflects hPairs =>
        have hNoGuard : isGuard = false := by
          by_contra hIsGuard
          cases hGuard (by simpa using hIsGuard)
        rw [hNoGuard, if_neg Bool.false_ne_true] at hKnown
        dsimp only at hNext
        split at hNext
        · rename_i hEnd
          subst hEnd
          cases hNext
          exact ⟨hPairs, .leave b S⟩
        rename_i hEnd
        split at hNext
        · cases hNext
        rename_i hElse
        have hOpen : g.sawElse = false := by simpa using hElse
        have hCondition := hReflects.isSome_condition hOpen
        split at hNext
        · rename_i hOtherwise
          subst hOtherwise
          cases hNext
          exact ⟨.cons (hReflects.atElse hOpen) hPairs, .turn S hCondition (.inl rfl)⟩
        rename_i hOtherwise
        have hFresh : n ∉ b.places := fun hn =>
          absurd (hNested.before b List.mem_cons_self n hn) (Nat.lt_irrefl n)
        rw [Branch.next_further (by simpa using hOpener) hEnd hOtherwise]
        refine ⟨?_, .turn S hCondition (.inr rfl)⟩
        split at hNext
        · rename_i hKind
          cases hNext
          refine .cons (hReflects.atBranch hOpen hFresh fun hTaken => ?_) hPairs
          rw [hTaken, Bool.false_or, decide_eq_true_eq] at hKind
          rw [hKnown, fixed?_eq_none]
          · rfl
          · rintro (rfl | h)
            · exact hOpener rfl
            · exact hKind h
        · rename_i hKind
          obtain ⟨value, hValue, rfl⟩ := Except.map_eq_ok_iff.mp hNext
          have hElif : c = .elseWhenTrue := by
            simp only [Bool.or_eq_true, decide_eq_true_eq, not_or, not_not] at hKind
            exact hKind.2
          refine .cons (hReflects.atBranch hOpen hFresh fun _ => ?_) hPairs
          rw [hKnown]
          exact ofFixed_fixed? (.inr hElif) (Except.mapError_eq_ok_iff.mp hValue)

/-- Reading lines keeps groups and branches together, and each line that is no condition is labelled
by the groups that reflect the branches around it. -/
theorem Scanned.reflects (hScanned : Scanned isGuard groups lines behind)
    (hPairs : List.Forall₂ (Group.Reflects known) groups S) (hNested : Branch.Nested n S)
    (hGuard : isGuard = true → groups = [] ∧ known n = some true)
    (hKnown : ∀ l ∈ CompilationUnit.numbered n lines, (isGuard = true → l.1 ≠ n) →
      known l.1 = l.2.fixed?) :
    Branch.Runs S (CompilationUnit.numbered n lines)
      ∧ ∀ l ∈ CompilationUnit.numbered n lines, l.2.conditional? = none →
        ∃ around, l.2.reachability = Group.reachability around .unconditional
          ∧ List.Forall₂ (Group.Reflects known) around
              (Branch.around l.1 S (CompilationUnit.numbered n lines)) := by
  induction hScanned generalizing n S with
  | nil => exact ⟨.nil S, fun _ h => nomatch h⟩
  | @conditional isGuard live groups between behind line lines c hLine _ hNext hRest ih =>
      have hOrder : ∀ l ∈ CompilationUnit.numbered (n + line.rest.length + 1) lines, n < l.1 :=
        fun l hl => Nat.lt_of_lt_of_le (by omega) (CompilationUnit.le_of_mem_numbered hl)
      have hHere : known n = if isGuard then some true else c.fixed? line.operands := by
        split
        · rename_i hIsGuard
          exact (hGuard hIsGuard).2
        · rename_i hIsGuard
          rw [hKnown (n, line) List.mem_cons_self fun h => absurd h hIsGuard]
          simp [UnitLine.fixed?, hLine]
      obtain ⟨hBetween, hStep⟩ := next_reflects hPairs hNext hNested (fun h => (hGuard h).1) hHere
      rw [← Branch.behind_conditional hLine] at hBetween hStep
      obtain ⟨hRuns, hLabels⟩ := ih hBetween ((hStep.nested hNested).mono (by omega)) nofun
        (fun l hl _ => hKnown l (List.mem_cons_of_mem _ hl) fun _ => Nat.ne_of_gt (hOrder l hl))
      refine ⟨.cons hOrder hNested hStep hRuns, fun l hl hKind => ?_⟩
      rcases List.mem_cons.mp hl with rfl | hl
      · rw [hLine] at hKind
        cases hKind
      · rw [CompilationUnit.numbered, Branch.around_later (hOrder l hl)]
        exact hLabels l hl hKind
  | @other isGuard groups behind line lines hLine hLabel hRest ih =>
      have hOrder : ∀ l ∈ CompilationUnit.numbered (n + line.rest.length + 1) lines, n < l.1 :=
        fun l hl => Nat.lt_of_lt_of_le (by omega) (CompilationUnit.le_of_mem_numbered hl)
      have hStep : Branch.Step n S (Branch.behind n line S) := by
        rw [Branch.behind_other hLine]
        exact .stay S
      have hBehind : List.Forall₂ (Group.Reflects known) groups (Branch.behind n line S) := by
        rwa [Branch.behind_other hLine]
      obtain ⟨hRuns, hLabels⟩ := ih hBehind ((hStep.nested hNested).mono (by omega)) nofun
        (fun l hl _ => hKnown l (List.mem_cons_of_mem _ hl) fun _ => Nat.ne_of_gt (hOrder l hl))
      refine ⟨.cons hOrder hNested hStep hRuns, fun l hl hKind => ?_⟩
      rcases List.mem_cons.mp hl with rfl | hl
      · rw [CompilationUnit.numbered, Branch.around_self]
        exact ⟨groups, hLabel, hPairs⟩
      · rw [CompilationUnit.numbered, Branch.around_later (hOrder l hl)]
        exact hLabels l hl hKind

/-- A line is found by its place. -/
theorem lookup_numbered {l : Nat × UnitLine} (h : l ∈ CompilationUnit.numbered n lines) :
    (CompilationUnit.numbered n lines).lookup l.1 = some l.2 := by
  induction lines generalizing n with
  | nil => cases h
  | cons line lines ih =>
      rcases List.mem_cons.mp h with rfl | h
      · simp [CompilationUnit.numbered]
      · have hLater : l.1 ≠ n := by
          have hLe := CompilationUnit.le_of_mem_numbered h
          omega
        rw [CompilationUnit.numbered, List.lookup_cons, beq_eq_false_iff_ne.mpr hLater]
        exact ih h

end

namespace CompilationUnit

variable {u : CompilationUnit} {ρ : Nat → Bool} {p : Nat}

/-- Truth values for the conditional lines that agree with what is known: the values that conditions
fix, and that an include guard holds. -/
def Consistent (u : CompilationUnit) (ρ : Nat → Bool) : Prop :=
  (∀ l ∈ u.placedLines, ∀ v, l.2.fixed? = some v → ρ l.1 = v) ∧ (u.guards ≠ [] → ρ 0 = true)

instance (u : CompilationUnit) (ρ : Nat → Bool) : Decidable (u.Consistent ρ) :=
  inferInstanceAs (Decidable
    ((∀ l ∈ u.placedLines, ∀ v, l.2.fixed? = some v → ρ l.1 = v) ∧ (u.guards ≠ [] → ρ 0 = true)))

/-- The branches around a place of a unit. -/
def branchesAt (u : CompilationUnit) (p : Nat) : List Branch :=
  Branch.around p [] u.placedLines

/-- The preprocessor keeps what stands at a place. -/
def Keeps (u : CompilationUnit) (ρ : Nat → Bool) (p : Nat) : Prop :=
  ∀ b ∈ u.branchesAt p, b.selected ρ = true

instance (u : CompilationUnit) (ρ : Nat → Bool) (p : Nat) : Decidable (u.Keeps ρ p) :=
  inferInstanceAs (Decidable (∀ b ∈ u.branchesAt p, b.selected ρ = true))

/-- The value of the condition at a place as far as it is fixed. -/
def known? (u : CompilationUnit) (x : Nat) : Option Bool :=
  if x = 0 ∧ u.guards ≠ [] then some true else (u.placedLines.lookup x).bind UnitLine.fixed?

theorem Consistent.agrees (h : u.Consistent ρ) : Branch.Agrees u.known? ρ := by
  intro x v hKnown
  unfold known? at hKnown
  split at hKnown
  · rename_i hGuard
    cases hKnown
    exact hGuard.1 ▸ h.2 hGuard.2
  · obtain ⟨line, hLine, hFixed⟩ := Option.bind_eq_some_iff.mp hKnown
    obtain ⟨before, after, hLines, -⟩ := List.lookup_eq_some_iff.mp hLine
    exact h.1 (x, line) (by simp [hLines]) v hFixed

/-- Truth values that at each place are those of one of two consistent choices are consistent. -/
theorem Consistent.mix {ρ₁ ρ₂ : Nat → Bool} (h₁ : u.Consistent ρ₁) (h₂ : u.Consistent ρ₂)
    (hMix : ∀ x, ρ x = ρ₁ x ∨ ρ x = ρ₂ x) : u.Consistent ρ := by
  constructor
  · intro l hl v hv
    rcases hMix l.1 with h | h
    · exact h.trans (h₁.1 l hl v hv)
    · exact h.trans (h₂.1 l hl v hv)
  · intro hGuard
    rcases hMix 0 with h | h
    · exact h.trans (h₁.2 hGuard)
    · exact h.trans (h₂.2 hGuard)

section

variable {path : String} {text : Text} {search : Option IncludeSearch}
  (hRead : read path text search = .ok u) (hSingle : u.IsSingleFile search)

include hRead hSingle

/-- Each line that is no condition is labelled by groups that reflect the branches around it. -/
theorem reflects_of_read : Branch.Runs [] u.placedLines
    ∧ ∀ l ∈ u.placedLines, l.2.conditional? = none →
      ∃ groups, l.2.reachability = Group.reachability groups .unconditional
        ∧ List.Forall₂ (Group.Reflects u.known?) groups (u.branchesAt l.1) := by
  refine Scanned.reflects (scanned_of_read hRead hSingle) .nil ⟨nofun, .nil⟩
    (fun hGuard => ⟨rfl, ?_⟩) fun l hl hPlace => ?_
  · exact if_pos ⟨rfl, by simpa using hGuard⟩
  · rw [known?, if_neg fun h => hPlace (by simpa using h.2) h.1, placedLines, lookup_numbered hl]
    rfl

theorem runs_of_read : Branch.Runs [] u.placedLines :=
  (reflects_of_read hRead hSingle).1

/-- A line that is labelled as disabled is never kept. -/
theorem not_keeps_of_disabled {l : Nat × UnitLine} (hl : l ∈ u.placedLines)
    (hKind : l.2.conditional? = none) (hLabel : l.2.reachability = .disabled)
    (hConsistent : u.Consistent ρ) : ¬ u.Keeps ρ l.1 := by
  obtain ⟨groups, hGroups, hPairs⟩ := (reflects_of_read hRead hSingle).2 l hl hKind
  obtain ⟨g, hg, hCurrent⟩ := Group.reachability_eq_disabled_iff.mp (hGroups.symm.trans hLabel)
  obtain ⟨b, hb, hReflects⟩ := hPairs.exists_right hg
  intro hKeeps
  have hNot := hConsistent.agrees.selected_eq_false (hReflects.current.symm.trans hCurrent)
  rw [hKeeps b hb] at hNot
  cases hNot

/-- A macro directive that is kept is not labelled as disabled. -/
theorem not_disabled_of_keeps {e : Event} (he : e ∈ u.events) (hConsistent : u.Consistent ρ)
    (hKeeps : u.Keeps ρ e.position) : e.reachability ≠ .disabled := by
  obtain ⟨⟨n, line⟩, hLine, hEvent⟩ := List.mem_filterMap.mp he
  dsimp only at hEvent
  split at hEvent
  · rename_i keyword d unresolved hRole
    cases hEvent
    intro hLabel
    have hMem : line ∈ u.lines := mem_of_mem_numbered hLine
    have hKind := (scanned_of_read hRead hSingle).conditional?_eq_none hMem hRole
    exact not_keeps_of_disabled hRead hSingle hLine hKind hLabel hConsistent hKeeps
  · cases hEvent

end

end CompilationUnit

end Demacro
