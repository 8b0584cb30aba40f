import Demacro.Unit

/-!
The places of lines and tokens in a unit. Lines follow each other, each with the tokens that it
holds, so a position is that of at most one line.
-/

/-- Of two elements of a list the one that comes first is in the relation to the other. -/
theorem List.Pairwise.or_of_ne {α : Type} {R : α → α → Prop} {as : List α} (h : as.Pairwise R)
    {a b : α} (ha : a ∈ as) (hb : b ∈ as) (hNe : a ≠ b) : R a b ∨ R b a := by
  induction h with
  | nil => cases ha
  | cons hFirst _ ih =>
      rcases List.mem_cons.mp ha with rfl | haRest
      · exact .inl (hFirst b (List.mem_of_ne_of_mem (Ne.symm hNe) hb))
      · rcases List.mem_cons.mp hb with rfl | hbRest
        · exact .inr (hFirst a haRest)
        · exact ih haRest hbRest

namespace Demacro

/-- The tokens of a line. -/
def UnitLine.tokens (line : UnitLine) : List Token :=
  line.first :: line.rest

namespace CompilationUnit

variable {u : CompilationUnit} {t : PlacedToken} {n : Nat} {lines : List UnitLine}

theorem le_of_mem_numbered {l : Nat × UnitLine} (h : l ∈ numbered n lines) : n ≤ l.1 := by
  induction lines generalizing n with
  | nil => cases h
  | cons line lines ih =>
      rcases List.mem_cons.mp h with rfl | h
      · exact Nat.le_refl n
      · exact Nat.le_trans (by omega) (ih h)

theorem mem_of_mem_numbered {l : Nat × UnitLine} (h : l ∈ numbered n lines) : l.2 ∈ lines := by
  induction lines generalizing n with
  | nil => cases h
  | cons line lines ih =>
      rcases List.mem_cons.mp h with rfl | h
      · exact List.mem_cons_self
      · exact List.mem_cons_of_mem line (ih h)

/-- A line ends in front of the next one. -/
theorem numbered_pairwise (n : Nat) (lines : List UnitLine) :
    (numbered n lines).Pairwise fun l l' => l.1 + l.2.rest.length < l'.1 := by
  induction lines generalizing n with
  | nil => exact .nil
  | cons line lines ih =>
      apply List.Pairwise.cons
      · intro l' hl'
        have hLe := le_of_mem_numbered hl'
        dsimp only
        omega
      · exact ih _

/-- The tokens of a line have its label and follow each other. -/
theorem of_mem_placeTokens {reach : Reachability} {tokens : List Token}
    (h : t ∈ placeTokens n reach tokens) :
    t.reachability = reach ∧ n ≤ t.position ∧ t.position < n + tokens.length := by
  induction tokens generalizing n with
  | nil => cases h
  | cons token tokens ih =>
      rcases List.mem_cons.mp h with rfl | h
      · exact ⟨rfl, Nat.le_refl n, by simp⟩
      · obtain ⟨hReach, hFrom, hTo⟩ := ih h
        exact ⟨hReach, by omega, by rw [List.length_cons]; omega⟩

/-- A macro directive has the place of its line. -/
theorem exists_line_of_mem_events {e : Event} (h : e ∈ u.events) :
    ∃ l ∈ u.placedLines, ∃ keyword unresolved,
    l.2.role = .directive keyword (some e.directive) unresolved ∧ e.position = l.1
      ∧ e.lastPosition = l.1 + l.2.rest.length ∧ e.reachability = l.2.reachability := by
  obtain ⟨⟨n, line⟩, hLine, hEvent⟩ := List.mem_filterMap.mp h
  dsimp only at hEvent
  split at hEvent
  · rename_i keyword d unresolved hRole
    cases hEvent
    exact ⟨(n, line), hLine, keyword, unresolved, hRole, rfl, rfl, rfl⟩
  · cases hEvent

/-- A token outside directives has a place on a line of code. -/
theorem exists_line_of_mem_codeTokens (h : t ∈ u.codeTokens) : ∃ l ∈ u.placedLines, l.2.role = .code
    ∧ l.1 ≤ t.position ∧ t.position ≤ l.1 + l.2.rest.length := by
  obtain ⟨⟨n, line⟩, hLine, ht⟩ := List.mem_flatMap.mp h
  dsimp only at ht
  split at ht
  · rename_i hRole
    obtain ⟨-, hFrom, hTo⟩ := of_mem_placeTokens ht
    exact ⟨(n, line), hLine, hRole, hFrom,
      by rw [List.length_cons] at hTo; exact Nat.lt_succ_iff.mp hTo⟩
  · cases ht

/-- Of two lines, one ends in front of the other. -/
theorem apart_of_mem_placedLines {l l' : Nat × UnitLine} (hl : l ∈ u.placedLines)
    (hl' : l' ∈ u.placedLines) (hNe : l ≠ l') :
    l.1 + l.2.rest.length < l'.1 ∨ l'.1 + l'.2.rest.length < l.1 :=
  (numbered_pairwise 0 u.lines).or_of_ne hl hl' hNe

theorem map_toToken_placeTokens (n : Nat) (reach : Reachability) (tokens : List Token) :
    (placeTokens n reach tokens).map PlacedToken.toToken = tokens := by
  induction tokens generalizing n with
  | nil => rfl
  | cons t tokens ih => rw [placeTokens, List.map_cons, ih]

theorem map_toToken_tokens (u : CompilationUnit) :
    u.tokens.map PlacedToken.toToken = (u.lines.map UnitLine.tokens).flatten := by
  have hNumbered : ∀ n lines, ((numbered n lines).flatMap fun l =>
      placeTokens l.1 l.2.reachability (l.2.first :: l.2.rest)).map PlacedToken.toToken
        = (lines.map UnitLine.tokens).flatten := by
    intro n lines
    induction lines generalizing n with
    | nil => rfl
    | cons line lines ih =>
        rw [numbered, List.flatMap_cons, List.map_append, ih, map_toToken_placeTokens]
        rfl
  exact hNumbered 0 u.lines

end CompilationUnit

end Demacro
