import Demacro.Proofs.Selection.Labels
import Mathlib.Data.List.Pairwise

/-!
How exact labels are. A line is labelled as disabled exactly if no truth values keep it. A line that
all truth values keep is labelled as unconditional, but not the other way round: a condition that
always holds gives its branch the label, also where a branch in front of it can be taken.
-/

namespace Demacro

namespace Branch

variable {known : Nat → Option Bool} {S : List Branch} {b : Branch}

/-- Branches of different groups share no condition, whichever stands first. -/
instance : Std.Symm fun b c : Branch => b.places.Disjoint c.places :=
  ⟨fun _ _ h _ hLeft hRight => h hRight hLeft⟩

theorem certainty_eq_always_iff : b.certainty known = .always ↔
    (∀ x ∈ b.earlier, known x ≠ some true) ∧ (∀ x ∈ b.condition, known x = some true)
      ∧ (b.condition = none → ∀ x ∈ b.earlier, known x = some false) := by
  have hEarlier : (∀ x ∈ b.earlier, known x ≠ some true) ↔
      ¬ b.earlier.any (known · == some true) = true := by
    simp
  rw [hEarlier, certainty]
  split
  · rename_i hTaken
    simp [hTaken]
  · rename_i hTaken
    rw [and_iff_right hTaken]
    cases hCondition : b.condition with
    | none => simp
    | some x => simp

theorem agrees_getD (known : Nat → Option Bool) (other : Nat → Bool) :
    Agrees known fun x => (known x).getD (other x) := by
  intro x v hKnown
  simp [hKnown]

/-- Branches of different groups can be selected together, each of which can be selected: by truth
values that make no condition hold but those of the branches themselves, as far as nothing is
fixed. -/
theorem exists_selected (hApart : S.Pairwise fun b c => b.places.Disjoint c.places)
    (hFresh : ∀ b ∈ S, ∀ x ∈ b.condition, x ∉ b.earlier)
    (hOpen : ∀ b ∈ S, b.certainty known ≠ .never) :
    ∃ ρ, Agrees known ρ ∧ ∀ b ∈ S, b.selected ρ = true := by
  refine ⟨fun x => (known x).getD (S.any (·.condition == some x)), agrees_getD known _,
    fun b hb => ?_⟩
  have hNever := hOpen b hb
  rw [Ne, certainty_eq_never_iff, not_or] at hNever
  obtain ⟨hEarlier, hCondition⟩ := hNever
  rw [selected, Bool.and_eq_true, List.all_eq_true, Option.all_eq_true]
  constructor
  · intro x hx
    -- The condition of another branch is in another group, and that of this branch comes later.
    have hOther : S.any (·.condition == some x) = false := by
      refine List.any_eq_false.mpr fun c hc hOwn => ?_
      have hPlace : c.condition = some x := eq_of_beq hOwn
      by_cases hSame : c = b
      · subst hSame
        exact hFresh c hc x hPlace hx
      · have hDisjoint := hApart.forall hc hb hSame
        exact hDisjoint (List.mem_append_right _ (by simp [hPlace])) (List.mem_append_left _ hx)
    cases hKnown : known x with
    | none => simp [hOther]
    | some v =>
        cases v with
        | false => simp
        | true => exact absurd ⟨x, hx, hKnown⟩ hEarlier
  · intro x hx
    have hOwn : S.any (·.condition == some x) = true :=
      List.any_eq_true.mpr ⟨b, hb, beq_iff_eq.mpr hx⟩
    cases hKnown : known x with
    | none => simp [hOwn]
    | some v =>
        cases v with
        | true => simp
        | false => exact absurd ⟨x, hx, hKnown⟩ hCondition

/-- A branch is always selected if and only if all conditions that decide about it are fixed. -/
theorem forall_selected_iff : (∀ ρ, Agrees known ρ → b.selected ρ = true) ↔
    (∀ x ∈ b.earlier, known x = some false) ∧ ∀ x ∈ b.condition, known x = some true := by
  simp only [selected, Bool.and_eq_true, List.all_eq_true, Option.all_eq_true, Bool.not_eq_true']
  constructor
  · intro hAll
    constructor
    · intro x hx
      have hFalse := (hAll _ (agrees_getD known fun _ => true)).1 x hx
      cases hKnown : known x <;> simp_all
    · intro x hx
      have hTrue := (hAll _ (agrees_getD known fun _ => false)).2 x hx
      cases hKnown : known x <;> simp_all
  · rintro ⟨hEarlier, hCondition⟩ ρ hAgrees
    exact ⟨fun x hx => hAgrees x _ (hEarlier x hx), fun x hx => hAgrees x _ (hCondition x hx)⟩

end Branch

namespace Group

variable {groups : List Group}

theorem reachability_eq_unconditional_iff :
    reachability groups .unconditional = .unconditional ↔ ∀ g ∈ groups, g.current = .always := by
  have hAlways : ∀ c : Certainty, c = .always ↔ ¬ (c == .never) = true
      ∧ ¬ (c == .maybe) = true := by
    rintro (_ | _ | _) <;> decide
  simp only [hAlways, forall_and, ← List.any_eq_false]
  unfold reachability
  by_cases hNever : groups.any (·.current == .never) = true
  · simp [hNever]
  · by_cases hMaybe : groups.any (·.current == .maybe) = true
    · simp [hNever, hMaybe]
    · simp [hNever, hMaybe]

end Group

/-- Nothing is known about a condition that begins with a negation. -/
theorem Conditional.certainty_negation {a b : Token} {rest : List Token}
    (h : a.lexeme = Text.ofString "!") : certainty (a :: b :: rest) = .ok .maybe := by
  have hParenthesis : (Text.ofString "!" == Text.ofString "(") = false := by decide
  rw [certainty, List.map_cons, List.map_cons, withoutParentheses, h, hParenthesis, Bool.false_and]
  rfl

/-- A condition that asks for a name to be undefined fixes no truth value. -/
theorem Conditional.fixed?_of_guard {keyword : String} {body : List Token} {guard : Text}
    {c : Conditional} (hGuard : Reading.guardOperand? keyword body = some guard)
    (hKeyword : ofKeyword? keyword = some c) : c.fixed? body = none := by
  unfold Reading.guardOperand? at hGuard
  split at hGuard
  · split at hGuard
    · rename_i hUndefined
      have hKind : ofKeyword? "ifndef" = some .whenUndefined := by decide
      rw [hUndefined.1, hKind] at hKeyword
      cases hKeyword
      exact fixed?_eq_none (by decide)
    · cases hGuard
  · split at hGuard
    · rename_i hNegation
      rw [fixed?, certainty_negation hNegation.2.1]
      split <;> rfl
    · cases hGuard
  · split at hGuard
    · rename_i hNegation
      rw [fixed?, certainty_negation hNegation.2.1]
      split <;> rfl
    · cases hGuard
  · cases hGuard

namespace CompilationUnit

variable {u : CompilationUnit} {ρ : Nat → Bool} {p : Nat} {l : Nat × UnitLine} {t : PlacedToken}

/-- The tokens of all lines that are no conditional directives. -/
def plainTokens (u : CompilationUnit) : List PlacedToken :=
  u.placedLines.flatMap fun (n, line) =>
    if line.conditional? = none then placeTokens n line.reachability (line.first :: line.rest)
      else []

/-- The first line of a file with an include guard fixes no truth value. -/
theorem fixed?_first {path : String} {text : Text} {search : Option IncludeSearch}
    (hRead : read path text search = .ok u) (hSingle : u.IsSingleFile search)
    (hGuards : u.guards ≠ []) {first : UnitLine} {lines : List UnitLine}
    (hLines : u.lines = first :: lines) : first.fixed? = none := by
  obtain ⟨logical, hOf, hGuard, -⟩ := exists_lines_of_read hRead hSingle
  obtain ⟨guard, hGuard⟩ := Option.isSome_iff_exists.mp (hGuard.trans (by simpa using hGuards))
  obtain ⟨o, os, d, ds, others, rfl, -, -, hOperand, -, -⟩ := Reading.includeGuard?_eq_some hGuard
  rw [hLines, List.filter_cons_of_pos (by simp)] at hOf
  obtain ⟨hFirst, -⟩ := List.forall₂_cons.mp hOf
  rw [UnitLine.fixed?, UnitLine.operands, hFirst.content, hFirst.kind, Option.bind_eq_none_iff,
    Conditional.ofLine?]
  intro c hKind
  split at hKind
  · exact Conditional.fixed?_of_guard hOperand hKind
  · cases hKind

/-- The branches around the tokens of a line that is no condition are those around the line. -/
theorem around_within {n : Nat} {S : List Branch} {lines : List UnitLine}
    (hl : l ∈ numbered n lines) (hKind : l.2.conditional? = none) (hFrom : l.1 ≤ p)
    (hTo : p < l.1 + (l.2.rest.length + 1)) :
    Branch.around p S (numbered n lines) = Branch.around l.1 S (numbered n lines) := by
  induction lines generalizing n S with
  | nil => cases hl
  | cons line lines ih =>
      rw [numbered] at hl ⊢
      rcases List.mem_cons.mp hl with rfl | hl
      · rw [Branch.around_self]
        rcases Nat.eq_or_lt_of_le hFrom with rfl | hFrom
        · exact Branch.around_self
        · rw [Branch.around_later hFrom, Branch.behind_other hKind]
          -- The next line comes behind the place.
          cases lines with
          | nil => rfl
          | cons next lines => exact if_neg (by dsimp only at hTo ⊢; omega)
      · have hLe := le_of_mem_numbered hl
        rw [Branch.around_later (by omega), Branch.around_later (by omega)]
        exact ih hl

theorem exists_line_of_mem_plainTokens (ht : t ∈ u.plainTokens) :
    ∃ l ∈ u.placedLines, l.2.conditional? = none ∧ t.reachability = l.2.reachability
      ∧ u.branchesAt t.position = u.branchesAt l.1 := by
  obtain ⟨l, hl, ht⟩ := List.mem_flatMap.mp ht
  dsimp only at ht
  split at ht
  · rename_i hKind
    obtain ⟨hReach, hFrom, hTo⟩ := of_mem_placeTokens ht
    exact ⟨l, hl, hKind, hReach, around_within hl hKind hFrom (by simpa using hTo)⟩
  · cases ht

/-- Code is on lines that are no conditional directives. -/
theorem mem_plainTokens_of_mem_codeTokens (ht : t ∈ u.codeTokens) : t ∈ u.plainTokens := by
  obtain ⟨⟨n, line⟩, hl, ht⟩ := List.mem_flatMap.mp ht
  refine List.mem_flatMap.mpr ⟨(n, line), hl, ?_⟩
  dsimp only at ht ⊢
  split at ht
  · rename_i hRole
    rw [if_pos]
    · exact ht
    · simp [UnitLine.conditional?, hRole]
  · cases ht

section

variable {path : String} {text : Text} {search : Option IncludeSearch}
  (hRead : read path text search = .ok u) (hSingle : u.IsSingleFile search)

include hRead hSingle

/-- Consistent truth values are those that have all values that are fixed. -/
theorem consistent_iff_agrees : u.Consistent ρ ↔ Branch.Agrees u.known? ρ := by
  refine ⟨Consistent.agrees, fun h => ⟨fun l hl v hFixed => h l.1 v ?_, fun hGuards => h 0 true ?_⟩⟩
  · rw [known?, if_neg, placedLines, lookup_numbered hl]
    · exact hFixed
    · rintro ⟨hPlace, hGuards⟩
      cases hLines : u.lines with
      | nil => simp [placedLines, hLines, numbered] at hl
      | cons first lines =>
          rw [placedLines, hLines] at hl
          rcases List.mem_cons.mp hl with rfl | hl
          · rw [fixed?_first hRead hSingle hGuards hLines] at hFixed
            cases hFixed
          · exact absurd (le_of_mem_numbered hl) (by omega)
  · exact if_pos ⟨rfl, hGuards⟩

/-- The branches around a line are of different groups, and none of them is behind its own
condition. -/
theorem apart_and_fresh (hl : l ∈ u.placedLines) (hKind : l.2.conditional? = none) :
    (u.branchesAt l.1).Pairwise (fun b c => b.places.Disjoint c.places)
      ∧ ∀ b ∈ u.branchesAt l.1, ∀ x ∈ b.condition, x ∉ b.earlier := by
  obtain ⟨hRuns, hLabels⟩ := reflects_of_read hRead hSingle
  obtain ⟨groups, -, hPairs⟩ := hLabels l hl hKind
  refine ⟨(Branch.nested_around hRuns ⟨nofun, .nil⟩).apart, fun b hb => ?_⟩
  obtain ⟨g, -, hReflects⟩ := hPairs.exists_left hb
  exact hReflects.fresh

theorem disabled_iff_exists_never (hl : l ∈ u.placedLines) (hKind : l.2.conditional? = none) :
    l.2.reachability = .disabled ↔ ∃ b ∈ u.branchesAt l.1, b.certainty u.known? = .never := by
  obtain ⟨groups, hLabel, hPairs⟩ := (reflects_of_read hRead hSingle).2 l hl hKind
  rw [hLabel, Group.reachability_eq_disabled_iff]
  constructor
  · rintro ⟨g, hg, hNever⟩
    obtain ⟨b, hb, hReflects⟩ := hPairs.exists_right hg
    exact ⟨b, hb, hReflects.current.symm.trans hNever⟩
  · rintro ⟨b, hb, hNever⟩
    obtain ⟨g, hg, hReflects⟩ := hPairs.exists_left hb
    exact ⟨g, hg, hReflects.current.trans hNever⟩

theorem unconditional_iff_forall_always (hl : l ∈ u.placedLines) (hKind : l.2.conditional? = none) :
    l.2.reachability = .unconditional ↔ ∀ b ∈ u.branchesAt l.1, b.certainty u.known? = .always := by
  obtain ⟨groups, hLabel, hPairs⟩ := (reflects_of_read hRead hSingle).2 l hl hKind
  rw [hLabel, Group.reachability_eq_unconditional_iff]
  constructor
  · intro hAll b hb
    obtain ⟨g, hg, hReflects⟩ := hPairs.exists_left hb
    exact hReflects.current.symm.trans (hAll g hg)
  · intro hAll g hg
    obtain ⟨b, hb, hReflects⟩ := hPairs.exists_right hg
    exact hReflects.current.trans (hAll b hb)

/-- What is on a line that is no conditional directive is labelled as disabled if and only if the
preprocessor keeps it under no truth values that agree with what is known. -/
theorem disabled_iff_never_kept (ht : t ∈ u.plainTokens) :
    t.reachability = .disabled ↔ ∀ ρ, u.Consistent ρ → ¬ u.Keeps ρ t.position := by
  obtain ⟨l, hl, hKind, hLabel, hBranches⟩ := exists_line_of_mem_plainTokens ht
  have hKeeps : ∀ ρ, u.Keeps ρ t.position ↔ u.Keeps ρ l.1 := fun ρ => by
    rw [Keeps, Keeps, hBranches]
  simp only [hKeeps, hLabel]
  constructor
  · exact fun hDisabled ρ => not_keeps_of_disabled hRead hSingle hl hKind hDisabled
  · intro hNever
    by_contra hLive
    rw [disabled_iff_exists_never hRead hSingle hl hKind] at hLive
    obtain ⟨hApart, hFresh⟩ := apart_and_fresh hRead hSingle hl hKind
    obtain ⟨ρ, hAgrees, hSelected⟩ :=
      Branch.exists_selected hApart hFresh fun b hb hNone => hLive ⟨b, hb, hNone⟩
    exact hNever ρ ((consistent_iff_agrees hRead hSingle).mpr hAgrees) hSelected

/-- The preprocessor keeps code under all truth values if and only if the code is labelled as
unconditional and no condition in front of the branches around it can hold. The label alone does not
say so: where the own condition of a branch always holds it asks no more. -/
theorem always_kept_iff (ht : t ∈ u.codeTokens) :
    (∀ ρ, u.Consistent ρ → u.Keeps ρ t.position) ↔ t.reachability = .unconditional
      ∧ ∀ b ∈ u.branchesAt t.position, ∀ x ∈ b.earlier, ∀ ρ, u.Consistent ρ → ρ x = false := by
  obtain ⟨l, hl, hKind, hLabel, hBranches⟩ :=
    exists_line_of_mem_plainTokens (mem_plainTokens_of_mem_codeTokens ht)
  have hConsistent : ∀ ρ, u.Consistent ρ ↔ Branch.Agrees u.known? ρ :=
    fun ρ => consistent_iff_agrees hRead hSingle
  simp only [Keeps, hBranches, hLabel, hConsistent, unconditional_iff_forall_always hRead hSingle
    hl hKind]
  constructor
  · intro hAll
    have hFixed : ∀ b ∈ u.branchesAt l.1,
        (∀ x ∈ b.earlier, u.known? x = some false) ∧ ∀ x ∈ b.condition, u.known? x = some true :=
      fun b hb => Branch.forall_selected_iff.mp fun ρ hρ => hAll ρ hρ b hb
    refine ⟨fun b hb => ?_, fun b hb x hx ρ hρ => hρ x false ((hFixed b hb).1 x hx)⟩
    obtain ⟨hEarlier, hCondition⟩ := hFixed b hb
    refine Branch.certainty_eq_always_iff.mpr ⟨fun x hx => ?_, hCondition, fun _ => hEarlier⟩
    rw [hEarlier x hx]
    decide
  · rintro ⟨hAlways, hEarlier⟩ ρ hρ b hb
    obtain ⟨-, hCondition, -⟩ := Branch.certainty_eq_always_iff.mp (hAlways b hb)
    rw [Branch.selected, Bool.and_eq_true, List.all_eq_true, Option.all_eq_true]
    refine ⟨fun x hx => ?_, fun x hx => hρ x true (hCondition x hx)⟩
    rw [hEarlier b hb x hx ρ hρ]
    rfl

end

/-- What is in a branch with a condition that never holds is never kept. -/
theorem disabled_behind_zero :
    ∃ u, read "a.cpp" "#if A\n#if 0\n#define N 1\n#elif B\nint x;\n#endif\n#endif\n" none = .ok u
      ∧ u.IsSingleFile none
      ∧ ∃ t ∈ u.plainTokens, t.reachability = .disabled
        ∧ ∀ ρ, u.Consistent ρ → ¬ u.Keeps ρ t.position := by
  refine Except.exists_of_passes (fun u => u.plainTokens.any (·.reachability == .disabled))
    (by decide +kernel) fun u hRead hTest => ?_
  have hSingle : u.IsSingleFile none := nofun
  obtain ⟨t, ht, hLabel⟩ := List.any_eq_true.mp hTest
  have hLabel := eq_of_beq hLabel
  exact ⟨hSingle, t, ht, hLabel, (disabled_iff_never_kept hRead hSingle ht).mp hLabel⟩

/-- A condition that always holds behind one that never does makes code unconditional. -/
theorem always_kept_elif :
    ∃ u, read "a.cpp" "#if 0\n#elif 1\nint x;\n#endif\n" none = .ok u ∧ u.IsSingleFile none
      ∧ ∃ t ∈ u.codeTokens, t.reachability = .unconditional
        ∧ ∀ ρ, u.Consistent ρ → u.Keeps ρ t.position := by
  refine Except.exists_of_passes (fun u => u.codeTokens.any fun t =>
      t.reachability == .unconditional && (u.branchesAt t.position).all fun b =>
        b.earlier.all fun x => u.placedLines.any fun l => l.1 == x && l.2.fixed? == some false)
    (by decide +kernel) fun u hRead hTest => ?_
  have hSingle : u.IsSingleFile none := nofun
  simp only [List.any_eq_true, List.all_eq_true, Bool.and_eq_true, beq_iff_eq] at hTest
  obtain ⟨t, ht, hLabel, hEarlier⟩ := hTest
  refine ⟨hSingle, t, ht, hLabel, (always_kept_iff hRead hSingle ht).mpr ⟨hLabel, ?_⟩⟩
  intro b hb x hx ρ hρ
  obtain ⟨l, hl, rfl, hFixed⟩ := hEarlier b hb x hx
  exact hρ.1 l hl false hFixed

/-- A condition that always holds makes code unconditional also where the branch in front of it can
be taken instead. -/
theorem unconditional_not_kept :
    ∃ u, read "a.cpp" "#if A\n#elif 1\nint x;\n#endif\n" none = .ok u
      ∧ ∃ t ∈ u.codeTokens, t.reachability = .unconditional
        ∧ ∃ ρ, u.Consistent ρ ∧ ¬ u.Keeps ρ t.position := by
  refine Except.exists_of_passes (fun u => u.codeTokens.any fun t =>
      t.reachability == .unconditional && decide (u.Consistent fun _ => true)
        && !decide (u.Keeps (fun _ => true) t.position))
    (by decide +kernel) fun u _ hTest => ?_
  simp only [List.any_eq_true, Bool.and_eq_true, beq_iff_eq, decide_eq_true_eq, Bool.not_eq_true',
    decide_eq_false_iff_not] at hTest
  obtain ⟨t, ht, ⟨hLabel, hConsistent⟩, hNot⟩ := hTest
  exact ⟨t, ht, hLabel, _, hConsistent, hNot⟩

end CompilationUnit

end Demacro
