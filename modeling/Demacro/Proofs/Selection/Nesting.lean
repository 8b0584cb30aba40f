import Demacro.Proofs.Failure

/-!
When the conditional directives of a file fit together. They do if they form groups, and groups may
stand in each branch of a group; labels of lines do not matter. A file is read to its end if they
do, and is malformed if not, unless its reading ends before at a condition that is a row of digits
without a value.
-/

namespace Demacro

open Reading

namespace Conditional

/-- Whether the directive starts a further branch with a condition. -/
def isFurther : Conditional → Bool
  | elseWhenTrue | elseWhenDefined | elseWhenUndefined => true
  | _ => false

/-- What conditional directives can be a part of. -/
inductive Part where
  /-- Groups, one behind the other. -/
  | groups
  /-- The branches of one group behind the first one. -/
  | branches

/-- Conditional directives that fit together. A group has an opening directive, further branches,
and possibly one for all other cases at the end; in each branch there may be groups. -/
inductive Nested : Part → List Conditional → Prop where
  | nil : Nested .groups []
  | group {c : Conditional} {inside further rest : List Conditional} (hOpener : c.isOpener = true)
      (hInside : Nested .groups inside) (hFurther : Nested .branches further)
      (hRest : Nested .groups rest) : Nested .groups (c :: (inside ++ further ++ .endGroup :: rest))
  | noMore : Nested .branches []
  | otherwise {inside : List Conditional} (hInside : Nested .groups inside) :
      Nested .branches (.otherwise :: inside)
  | further {c : Conditional} {inside rest : List Conditional} (hFurther : c.isFurther = true)
      (hInside : Nested .groups inside) (hRest : Nested .branches rest) :
      Nested .branches (c :: (inside ++ rest))

/-- What a directive does to open groups, of which only counts whether the branch for all other
cases was seen. -/
def step (open_ : List Bool) (c : Conditional) : Option (List Bool) :=
  if c.isOpener then some (false :: open_)
  else
    match open_ with
    | [] => none
    | sawElse :: outer =>
      if c = .endGroup then some outer
      else if sawElse then none
      else some ((c == .otherwise) :: outer)

/-- Directives that close what is open: each group gets the rest of its current branch, its further
branches and its end, and groups follow. -/
inductive Finishes : List Bool → List Conditional → Prop where
  | groups {cs : List Conditional} (h : Nested .groups cs) : Finishes [] cs
  | close {sawElse : Bool} {open_ : List Bool} {inside further rest : List Conditional}
      (hInside : Nested .groups inside) (hFurther : Nested .branches further)
      (hElse : sawElse = true → further = []) (hRest : Finishes open_ rest) :
      Finishes (sawElse :: open_) (inside ++ further ++ .endGroup :: rest)

section

variable {c : Conditional} {cs further inside rest : List Conditional} {open_ : List Bool}
  {sawElse : Bool}

theorem step_opener (h : c.isOpener = true) : step open_ c = some (false :: open_) :=
  if_pos h

theorem step_endGroup : step (sawElse :: open_) .endGroup = some open_ :=
  rfl

theorem step_otherwise : step (false :: open_) .otherwise = some (true :: open_) :=
  rfl

theorem step_further (h : c.isFurther = true) :
    step (false :: open_) c = some (false :: open_) := by
  cases c <;> first | rfl | cases h

/-- Groups leave what is open as it is, and branches leave their group open. -/
theorem Nested.foldlM_step {part : Part} (h : Nested part cs) : match part with
    | .groups => ∀ open_, cs.foldlM step open_ = some open_
    | .branches =>
        ∀ open_, ∃ sawElse, cs.foldlM step (false :: open_) = some (sawElse :: open_) := by
  induction h with
  | nil => exact fun _ => rfl
  | group hOpener _ _ _ ihInside ihFurther ihRest =>
      intro open_
      obtain ⟨sawElse, hFurther⟩ := ihFurther open_
      simp [List.foldlM_append, step_opener hOpener, ihInside, hFurther, step_endGroup, ihRest]
  | noMore => exact fun _ => ⟨false, rfl⟩
  | otherwise _ ih =>
      intro open_
      exact ⟨true, by simp [step_otherwise, ih]⟩
  | further hFurther _ _ ihInside ihRest =>
      intro open_
      obtain ⟨sawElse, hRest⟩ := ihRest open_
      exact ⟨sawElse, by simp [List.foldlM_append, step_further hFurther, ihInside, hRest]⟩

/-- One more group in front. -/
theorem Finishes.group (hOpener : c.isOpener = true) (hInside : Nested .groups inside)
    (hFurther : Nested .branches further) (h : Finishes open_ rest) :
    Finishes open_ (c :: (inside ++ further ++ .endGroup :: rest)) := by
  cases h with
  | groups h => exact .groups (.group hOpener hInside hFurther h)
  | close hNext hMore hElse hRest =>
      simpa using Finishes.close (.group hOpener hInside hFurther hNext) hMore hElse hRest

/-- What leaves nothing open closes all that was open. -/
theorem finishes_of_foldlM (h : cs.foldlM step open_ = some []) : Finishes open_ cs := by
  induction cs generalizing open_ with
  | nil =>
      cases h
      exact .groups .nil
  | cons c cs ih =>
      rw [List.foldlM_cons, Option.bind_eq_bind, Option.bind_eq_some_iff] at h
      obtain ⟨next, hStep, hFold⟩ := h
      have hFinishes := ih hFold
      unfold step at hStep
      split at hStep
      · rename_i hOpener
        cases hStep
        cases hFinishes with
        | close hInside hFurther _ hRest => exact .group hOpener hInside hFurther hRest
      split at hStep
      · cases hStep
      rename_i hOpener sawElse outer
      split at hStep
      · rename_i hEnd
        cases hStep
        subst hEnd
        show Finishes _ ([] ++ [] ++ .endGroup :: cs)
        exact .close .nil .noMore (fun _ => rfl) hFinishes
      split at hStep
      · cases hStep
      rename_i hEnd hElse
      cases hStep
      obtain rfl : sawElse = false := by simpa using hElse
      generalize hLast : (c == .otherwise) = isLast at hFinishes
      cases hFinishes with
      | @close _ _ inside further rest hInside hFurther hElse hRest =>
          cases isLast with
          | true =>
              obtain rfl := eq_of_beq hLast
              obtain rfl := hElse rfl
              simpa using Finishes.close .nil (.otherwise hInside)
                (absurd · Bool.false_ne_true) hRest
          | false =>
              have hMore : c.isFurther = true := by cases c <;> simp_all [isOpener, isFurther]
              simpa using Finishes.close .nil (.further hMore hInside hFurther)
                (absurd · Bool.false_ne_true) hRest

/-- Directives fit together if and only if they leave nothing open. -/
theorem nested_iff : Nested .groups cs ↔ cs.foldlM step [] = some [] := by
  constructor
  · exact fun h => h.foldlM_step []
  · intro h
    cases finishes_of_foldlM h with
    | groups h => exact h

end

/-- Directives that fit can be read as far as one likes. -/
theorem Nested.fits_of_append {cs cs' : List Conditional} (h : Nested .groups (cs ++ cs')) :
    cs.foldlM step [] ≠ none := by
  intro hNone
  have hFold := h.foldlM_step []
  rw [List.foldlM_append, hNone] at hFold
  cases hFold

/-- The operands that an opening directive needs. -/
def HasOperand (c : Conditional) (body : List Token) : Prop :=
  if c = .whenTrue then body ≠ [] else body.head?.any (·.isIdentifier) = true

instance (c : Conditional) (body : List Token) : Decidable (c.HasOperand body) :=
  inferInstanceAs
    (Decidable (if c = .whenTrue then body ≠ [] else body.head?.any (·.isIdentifier) = true))

end Conditional

theorem filterMap_ofLine?_cons {line : List Token} {lines : List (List Token)} :
    (line :: lines).filterMap Conditional.ofLine?
      = (Conditional.ofLine? line).toList ++ lines.filterMap Conditional.ofLine? := by
  rw [List.filterMap_cons]
  cases Conditional.ofLine? line <;> rfl

theorem Except.map_fst_bind {ε α β : Type} (x : Except ε α) (f : α → β) :
    (x >>= fun a => pure (a, f a)).map Prod.fst = x := by
  cases x <;> rfl

open Conditional (step Nested)

/-- A line whose directive can be read but for the way the conditional ones are put together: if it
defines a name or removes its definition it is well formed, and if it opens a group it has its
operands. -/
structure IsWellFormed (line : List Token) : Prop where
  change : ∀ first ∈ line.head?, first.isPunct "#" = true →
    ∀ d ∈ Directive.ofLine? (Directive.split line).1 first line.tail, d.isOk = true
  operand : ∀ c ∈ Conditional.ofLine? line, c.isOpener = true →
    c.HasOperand (Directive.split line).2

instance (line : List Token) : Decidable (IsWellFormed line) :=
  decidable_of_iff
    ((∀ first ∈ line.head?, first.isPunct "#" = true →
        ∀ d ∈ Directive.ofLine? (Directive.split line).1 first line.tail, d.isOk = true)
      ∧ ∀ c ∈ Conditional.ofLine? line, c.isOpener = true → c.HasOperand (Directive.split line).2)
    ⟨fun h => ⟨h.1, h.2⟩, fun h => ⟨h.change, h.operand⟩⟩

/-- What an outcome of reading says about conditional directives in open groups: which groups are
open behind them, or that they do not fit, or that one of the lines holds an unreadable
condition. -/
def Tells (lines : List (List Token)) (groups : List Group) (cs : List Conditional) :
    Except ScanError (List Group) → Prop
  | .ok behind => cs.foldlM step (groups.map Group.sawElse) = some (behind.map Group.sawElse)
  | .error (.malformed _) => cs.foldlM step (groups.map Group.sawElse) = none
  | .error (.badNumeral digits) => HoldsUnreadable lines digits
  | .error (.unreachable _) => False

section

variable {lines all : List (List Token)} {groups : List Group} {c : Conditional}
  {cs cs' : List Conditional} {line body rest : List Token} {first : Token} {span : Span}
  {live isGuard : Bool} {follow : Option Follow} {path : String} {outer : Reachability}
  {r : Reading} {text : Text} {tokens : List Token}

/-- A condition is known, or it is unreadable. -/
theorem certainty_tells (hLine : line ∈ lines)
    (hConditional : Conditional.ofLine? line = some .whenTrue
      ∨ Conditional.ofLine? line = some .elseWhenTrue)
    {next : Certainty → List Group} (h : ∀ known, Tells lines groups cs (.ok (next known))) :
    Tells lines groups cs ((Group.certainty (Directive.split line).2).map next) := by
  unfold Group.certainty
  cases hKnown : Conditional.certainty (Directive.split line).2 with
  | ok known => exact h known
  | error digits => exact ⟨line, hLine, hConditional, Conditional.certainty_eq_error_iff.mp hKnown⟩

/-- A group is opened if the operands are there. -/
theorem opened_tells (hOpener : c.isOpener = true)
    (hOperand : c.HasOperand (Directive.split line).2) (hLine : line ∈ lines)
    (hConditional : Conditional.ofLine? line = some c) :
    Tells lines groups [c]
      ((Group.opened c (Directive.split line).2 span live isGuard).map (· :: groups)) := by
  have hOpened : ∀ known, Tells lines groups [c]
      (.ok (Group.start c span.line (if isGuard then .always else known) :: groups)) := by
    intro known
    simp [Tells, Group.start, Conditional.step_opener hOpener]
  unfold Conditional.HasOperand at hOperand
  unfold Group.opened
  by_cases hCondition : c = .whenTrue
  · subst hCondition
    rw [if_pos rfl] at hOperand
    simp only [if_pos, List.isEmpty_eq_false_iff.mpr hOperand, Bool.and_false, Bool.false_eq_true,
      if_false]
    have hMap : ∀ (x : Except ScanError Certainty) (start : Certainty → Group),
        (x >>= fun known => pure (start known)).map (· :: groups) = x.map fun known =>
        start known :: groups := by
      intro x start
      cases x <;> rfl
    rw [hMap]
    exact certainty_tells hLine (.inl hConditional) hOpened
  · rw [if_neg hCondition] at hOperand
    simp only [if_neg hCondition, hOperand, Bool.not_true, Bool.and_false, Bool.false_eq_true,
      if_false]
    exact hOpened .maybe

/-- A conditional directive with its operands is refused only if it does not fit. -/
theorem next_tells (hLines : ∀ line ∈ lines, IsWellFormed line) (hLine : line ∈ lines)
    (hConditional : Conditional.ofLine? line = some c) :
    Tells lines groups [c] (Group.next groups c (Directive.split line).2 span live isGuard) := by
  unfold Group.next
  split
  · rename_i hOpener
    exact opened_tells hOpener ((hLines line hLine).operand c hConditional hOpener) hLine
      hConditional
  rename_i hOpener
  cases groups with
  | nil => simp [Tells, step, hOpener]
  | cons g outer =>
      dsimp only
      split
      · rename_i hEnd
        simp [Tells, hEnd, Conditional.step_endGroup]
      rename_i hEnd
      split
      · rename_i hElse
        simp [Tells, step, hOpener, hEnd, hElse]
      rename_i hElse
      have hFurther : ∀ g' : Group, g'.sawElse = (c == .otherwise) →
          Tells lines (g :: outer) [c] (.ok (g' :: outer)) := by
        intro g' hSame
        simp [Tells, step, hOpener, hEnd, hElse, hSame]
      split
      · rename_i hOther
        exact hFurther g.atElse (by simp [Group.atElse, hOther])
      rename_i hOther
      have hBranch : ∀ known, Tells lines (g :: outer) [c] (.ok (g.atBranch known :: outer)) := by
        intro known
        refine hFurther _ ?_
        rw [beq_eq_false_iff_ne.mpr hOther]
        unfold Group.atBranch
        split <;> simpa using hElse
      split
      · exact hBranch .maybe
      · rename_i hElif
        obtain rfl : c = .elseWhenTrue := by simp_all
        exact certainty_tells hLine (.inr hConditional) hBranch

/-- Directives behind others that fit. -/
theorem Tells.append {behind : List Group} {x : Except ScanError (List Group)}
    (hFit : cs.foldlM step (groups.map Group.sawElse) = some (behind.map Group.sawElse))
    (h : Tells lines behind cs' x) : Tells lines groups (cs ++ cs') x := by
  have hBoth : (cs ++ cs').foldlM step (groups.map Group.sawElse) = cs'.foldlM step
      (behind.map Group.sawElse) := by
    rw [List.foldlM_append, hFit]
    rfl
  cases x with
  | ok after => exact hBoth.trans h
  | error e =>
      cases e with
      | malformed e => exact hBoth.trans h
      | badNumeral digits => exact h
      | unreachable fault => exact h

/-- Reading in two steps. -/
theorem Tells.bind {x : Except ScanError (List Group × Reading)}
    {f : List Group × Reading → Except ScanError (List Group × Reading)}
    (h : Tells lines groups cs (x.map Prod.fst))
    (h' : ∀ behind r, Tells lines behind cs' ((f (behind, r)).map Prod.fst)) :
    Tells lines groups (cs ++ cs') ((x >>= f).map Prod.fst) := by
  cases x with
  | ok read => exact Tells.append h (h' read.1 read.2)
  | error e =>
      cases e with
      | malformed e =>
          have h : cs.foldlM step (groups.map Group.sawElse) = none := h
          show (cs ++ cs').foldlM step (groups.map Group.sawElse) = none
          rw [List.foldlM_append, h]
          rfl
      | badNumeral digits => exact h
      | unreachable fault => exact h

/-- Without includes, a directive that is well formed is read. -/
theorem exists_addDirective (hLines : ∀ line ∈ lines, IsWellFormed line)
    (hLine : first :: rest ∈ lines) (hPunct : first.isPunct "#" = true) (reach : Reachability) :
    ∃ r', addDirective none follow path first rest reach r = .ok r' := by
  unfold addDirective
  dsimp only
  split
  · exact ⟨_, rfl⟩
  · rename_i e hChange
    cases (hLines _ hLine).change first rfl hPunct _ hChange
  split
  · exact ⟨_, rfl⟩
  split <;> exact ⟨_, rfl⟩

theorem addLine_tells (hLines : ∀ line ∈ lines, IsWellFormed line) (hLine : first :: rest ∈ lines) :
    Tells lines groups (Conditional.ofLine? (first :: rest)).toList
      ((addLine none follow path outer isGuard first rest groups r).map Prod.fst) := by
  unfold addLine
  split
  · rename_i hPunct
    have hKind : Conditional.ofLine? (first :: rest)
        = Conditional.ofKeyword? (Directive.split (first :: rest)).1 := by
      simp [Conditional.ofLine?, Directive.isLine, hPunct]
    dsimp only
    split
    · rename_i c hConditional
      rw [hConditional] at hKind
      rw [hKind]
      rw [Except.map_fst_bind]
      exact next_tells hLines hLine hKind
    · rename_i hNone
      rw [hNone] at hKind
      have hDirective : ∃ r', addDirective none follow path first rest
          (Group.reachability groups outer) r = .ok r' :=
        exists_addDirective hLines hLine hPunct _
      obtain ⟨r', hRead⟩ := hDirective
      rw [hKind, hRead]
      exact rfl
  · rename_i hPunct
    have hNone : Conditional.ofLine? (first :: rest) = none := by
      simp [Conditional.ofLine?, Directive.isLine, hPunct]
    rw [hNone]
    exact rfl

/-- Lines are read as far as their conditional directives fit. -/
theorem addLines_tells (hLines : ∀ line ∈ all, IsWellFormed line)
    (hAll : ∀ line ∈ lines, line ∈ all) : Tells all groups (lines.filterMap Conditional.ofLine?)
      ((addLines none follow path outer isGuard lines groups r).map Prod.fst) := by
  induction lines generalizing isGuard groups r with
  | nil => exact rfl
  | cons line lines ih =>
      rw [List.forall_mem_cons] at hAll
      cases line with
      | nil => exact ih hAll.2
      | cons first rest =>
          rw [filterMap_ofLine?_cons, addLines]
          exact (addLine_tells hLines hAll.1).bind fun behind r => ih hAll.2

/-- What an outcome says about the conditional directives of a whole file. -/
def Decides (lines : List (List Token)) {α : Type} : Except ScanError α → Prop
  | .ok _ => Nested .groups (lines.filterMap Conditional.ofLine?)
  | .error (.malformed _) => ¬ Nested .groups (lines.filterMap Conditional.ofLine?)
  | .error (.badNumeral digits) => HoldsUnreadable lines digits
  | .error (.unreachable _) => False

theorem addFile_decides (hTokens : Token.ofText path text = .ok tokens)
    (hLines : ∀ line ∈ Token.logicalLines tokens, IsWellFormed line) :
    Decides (Token.logicalLines tokens) (addFile none follow path text outer r) := by
  unfold addFile
  rw [hTokens]
  dsimp only
  generalize hRead : addLines none follow path outer _ (Token.logicalLines tokens) [] _ = x
  have h : Tells (Token.logicalLines tokens) []
    ((Token.logicalLines tokens).filterMap Conditional.ofLine?)
      (x.map Prod.fst) := by
    rw [← hRead]
    exact addLines_tells hLines fun _ h => h
  cases x with
  | ok read =>
      obtain ⟨behind, r'⟩ := read
      have h : _ = some (behind.map Group.sawElse) := h
      cases behind with
      | nil => exact Conditional.nested_iff.mpr h
      | cons g behind =>
          intro hNested
          rw [List.map_nil, Conditional.nested_iff.mp hNested] at h
          cases h
  | error e =>
      cases e with
      | malformed e =>
          intro hNested
          have h : List.foldlM step _ _ = none := h
          rw [List.map_nil, Conditional.nested_iff.mp hNested] at h
          cases h
      | badNumeral digits => exact h
      | unreachable fault => exact h

/-- A condition without a value behind `#if` is not read. -/
theorem addLine_unreadable {digits : List Char} (hLine : IsWellFormed (first :: rest))
    (hConditional : Conditional.ofLine? (first :: rest) = some .whenTrue)
    (hCondition : Conditional.IsUnreadable (Directive.split (first :: rest)).2 digits) :
    addLine none follow path outer isGuard first rest groups r = .error (.badNumeral digits) := by
  have hOperand : (Directive.split (first :: rest)).2 ≠ [] := hLine.operand _ hConditional rfl
  have hOpened : ∀ span live, Group.opened .whenTrue (Directive.split (first :: rest)).2 span
    live isGuard
      = .error (.badNumeral digits) := by
    intro span live
    unfold Group.opened Group.certainty
    simp only [if_pos, List.isEmpty_eq_false_iff.mpr hOperand, Bool.and_false, Bool.false_eq_true,
      if_false, Conditional.certainty_eq_error_iff.mpr hCondition]
    rfl
  unfold Conditional.ofLine? at hConditional
  split at hConditional
  · rename_i hPunct
    have hPunct : first.isPunct "#" = true := by simpa [Directive.isLine] using hPunct
    unfold addLine
    dsimp only
    rw [if_pos hPunct, hConditional]
    dsimp only
    unfold Group.next
    rw [if_pos (show Conditional.whenTrue.isOpener = true from rfl), hOpened]
    rfl
  · cases hConditional

/-- An `#if` whose condition has no value ends the reading, if all directives before it fit. -/
theorem addLines_unreadable {before after : List (List Token)} {digits : List Char}
    (hLines : ∀ l ∈ before ++ line :: after, IsWellFormed l)
    (hConditional : Conditional.ofLine? line = some .whenTrue)
    (hCondition : Conditional.IsUnreadable (Directive.split line).2 digits)
    (hFit : (before.filterMap Conditional.ofLine?).foldlM step (groups.map Group.sawElse) ≠ none) :
    ∃ digits', addLines none follow path outer isGuard (before ++ line :: after) groups r
      = .error (.badNumeral digits') := by
  induction before generalizing isGuard groups r with
  | nil =>
      cases line with
      | nil => cases hConditional
      | cons first rest =>
          refine ⟨digits, ?_⟩
          rw [List.nil_append, addLines, addLine_unreadable (hLines _ List.mem_cons_self)
            hConditional hCondition]
          rfl
  | cons earlier before ih =>
      have hLines : ∀ l ∈ earlier :: (before ++ line :: after), IsWellFormed l := hLines
      rw [List.forall_mem_cons] at hLines
      cases earlier with
      | nil => exact ih hLines.2 hFit
      | cons first rest =>
          rw [List.cons_append, addLines]
          rw [filterMap_ofLine?_cons, List.foldlM_append] at hFit
          have hTells : Tells [first :: rest] groups (Conditional.ofLine? (first :: rest)).toList
              ((addLine none follow path outer isGuard first rest groups r).map Prod.fst) :=
            addLine_tells (List.forall_mem_singleton.mpr hLines.1) List.mem_cons_self
          cases hLine : addLine none follow path outer isGuard first rest groups r with
          | ok read =>
              rw [hLine] at hTells
              have hTells : _ = some _ := hTells
              rw [hTells] at hFit
              exact ih hLines.2 hFit
          | error e =>
              rw [hLine] at hTells
              cases e with
              | malformed e =>
                  have hTells : _ = none := hTells
                  rw [hTells] at hFit
                  exact absurd rfl hFit
              | badNumeral digits' => exact ⟨digits', rfl⟩
              | unreachable fault => exact hTells.elim

theorem addFile_unreadable {before after : List (List Token)} {digits : List Char}
    (hTokens : Token.ofText path text = .ok tokens)
    (hAll : Token.logicalLines tokens = before ++ line :: after)
    (hLines : ∀ l ∈ before ++ line :: after, IsWellFormed l)
    (hConditional : Conditional.ofLine? line = some .whenTrue)
    (hCondition : Conditional.IsUnreadable (Directive.split line).2 digits)
    (hFit : (before.filterMap Conditional.ofLine?).foldlM step [] ≠ none) :
    ∃ digits', addFile none follow path text outer r = .error (.badNumeral digits') := by
  unfold addFile
  rw [hTokens]
  dsimp only
  rw [hAll]
  have hFit : (before.filterMap Conditional.ofLine?).foldlM step (List.map Group.sawElse [])
    ≠ none := hFit
  obtain ⟨digits', hRead⟩ := addLines_unreadable hLines hConditional hCondition hFit
  exact ⟨digits', by rw [hRead]; rfl⟩

theorem CompilationUnit.read_decides (hTokens : Token.ofText path text = .ok tokens)
    (hLines : ∀ line ∈ Token.logicalLines tokens, IsWellFormed line) :
    Decides (Token.logicalLines tokens) (CompilationUnit.read path text none) := by
  have hFile :
      Decides (Token.logicalLines tokens)
        (addFileWithin none maxIncludeDepth path text .unconditional {}) :=
    addFile_decides hTokens hLines
  unfold CompilationUnit.read
  cases hRead : addFileWithin none maxIncludeDepth path text .unconditional {} with
  | ok r =>
      rw [hRead] at hFile
      exact hFile
  | error e =>
      rw [hRead] at hFile
      cases e <;> exact hFile

/-- A file whose other directives are well formed and whose conditions have their operands is
malformed if and only if its conditional directives do not form groups, and is read otherwise,
unless its reading ends at a condition without a value. It ends there only if there is such a
condition, and always if that is one of an `#if` and all directives before it fit. -/
theorem CompilationUnit.malformed_iff_not_nested (hTokens : Token.ofText path text = .ok tokens)
    (hLines : ∀ line ∈ Token.logicalLines tokens, IsWellFormed line) :
    ((∀ digits, CompilationUnit.read path text none ≠ .error (.badNumeral digits)) →
      ((∃ e, CompilationUnit.read path text none = .error (.malformed e))
          ↔ ¬ Nested .groups ((Token.logicalLines tokens).filterMap Conditional.ofLine?))
        ∧ ((∃ u, CompilationUnit.read path text none = .ok u)
          ↔ Nested .groups ((Token.logicalLines tokens).filterMap Conditional.ofLine?)))
    ∧ (∀ digits, CompilationUnit.read path text none = .error (.badNumeral digits) →
        HoldsUnreadable (Token.logicalLines tokens) digits)
    ∧ ∀ before line after digits, Token.logicalLines tokens = before ++ line :: after →
        Conditional.ofLine? line = some .whenTrue →
        Conditional.IsUnreadable (Directive.split line).2 digits →
        (∃ cs, Nested .groups (before.filterMap Conditional.ofLine? ++ cs)) →
        ∃ digits', CompilationUnit.read path text none = .error (.badNumeral digits') := by
  have hDecides := CompilationUnit.read_decides hTokens hLines
  refine ⟨fun hReadable => ?_, fun digits hRead => ?_,
    fun before line after digits hAll hConditional hCondition hFit => ?_⟩
  · cases hRead : CompilationUnit.read path text none with
    | ok u =>
        rw [hRead] at hDecides
        have hNested : Nested .groups _ := hDecides
        simp [hNested]
    | error e =>
        rw [hRead] at hDecides
        cases e with
        | malformed e =>
            have hNot : ¬ Nested .groups _ := hDecides
            simp [hNot]
        | badNumeral digits => exact absurd hRead (hReadable digits)
        | unreachable fault => exact hDecides.elim
  · rw [hRead] at hDecides
    exact hDecides
  · obtain ⟨cs, hNested⟩ := hFit
    have hLines : ∀ l ∈ before ++ line :: after, IsWellFormed l := hAll ▸ hLines
    obtain ⟨digits', hRead⟩ :=
      addFile_unreadable hTokens hAll hLines hConditional hCondition hNested.fits_of_append
    refine ⟨digits', ?_⟩
    rw [CompilationUnit.read, maxIncludeDepth, addFileWithin, hRead]
    rfl

end

/-- A branch behind the one for all other cases, in a group with a group inside. -/
theorem CompilationUnit.malformed_iff_not_nested_afterElse :
    ∃ tokens, Token.ofText "unit.cpp"
      "#if A\n#else\n#if (0)\n#define F(x) x\n#endif\n#elif B\n#endif\n" = .ok tokens
      ∧ (∀ line ∈ Token.logicalLines tokens, IsWellFormed line)
      ∧ ∃ e, CompilationUnit.read "unit.cpp"
        "#if A\n#else\n#if (0)\n#define F(x) x\n#endif\n#elif B\n#endif\n" none
        = .error (.malformed e) := by
  refine Except.exists_of_passes
    (fun tokens => decide ((∀ line ∈ Token.logicalLines tokens, IsWellFormed line)
      ∧ (∀ line ∈ Token.logicalLines tokens, (Conditional.certainty (Directive.split line).2).isOk
        = true)
      ∧ ((Token.logicalLines tokens).filterMap Conditional.ofLine?).foldlM step [] ≠ some [])) (by
        decide +kernel)
    fun tokens hOk hTest => ?_
  obtain ⟨hLines, hKnown, hNot⟩ := of_decide_eq_true hTest
  obtain ⟨hExact, hHolds, -⟩ := CompilationUnit.malformed_iff_not_nested hOk hLines
  have hReadable : ∀ digits, CompilationUnit.read "unit.cpp"
      "#if A\n#else\n#if (0)\n#define F(x) x\n#endif\n#elif B\n#endif\n" none ≠ .error
        (.badNumeral digits) := by
    intro digits hRead
    obtain ⟨line, hLine, -, hUnreadable⟩ := hHolds digits hRead
    have hOk := hKnown line hLine
    rw [Conditional.certainty_eq_error_iff.mpr hUnreadable] at hOk
    cases hOk
  exact ⟨hLines, (hExact hReadable).1.mpr fun hNested => hNot (Conditional.nested_iff.mp hNested)⟩

/-- A group that is not closed, with a condition that is a row of digits without a value. -/
theorem CompilationUnit.not_malformed_of_digits :
    ¬ ∀ (path : String) (text : Text) (tokens : List Token), Token.ofText path text = .ok tokens →
      (∀ line ∈ Token.logicalLines tokens, IsWellFormed line) →
      ((∃ e, CompilationUnit.read path text none = .error (.malformed e)) ↔
        ¬ Nested .groups ((Token.logicalLines tokens).filterMap Conditional.ofLine?)) := by
  intro hExact
  obtain ⟨tokens, hOk, hLines, hNot⟩ : ∃ tokens, Token.ofText "unit.cpp" "#if ²\n" = .ok tokens
      ∧ (∀ line ∈ Token.logicalLines tokens, IsWellFormed line)
      ∧ ((Token.logicalLines tokens).filterMap Conditional.ofLine?).foldlM step [] ≠ some [] := by
    refine Except.exists_of_passes
      (fun tokens => decide ((∀ line ∈ Token.logicalLines tokens, IsWellFormed line)
      ∧ ((Token.logicalLines tokens).filterMap Conditional.ofLine?).foldlM step [] ≠ some [])) (by
        decide +kernel)
      fun tokens hOk hTest => ?_
    exact of_decide_eq_true hTest
  obtain ⟨e, hRead⟩ := (hExact "unit.cpp" "#if ²\n" tokens hOk hLines).mpr fun hNested =>
    hNot (Conditional.nested_iff.mp hNested)
  have hFails : (CompilationUnit.read "unit.cpp" "#if ²\n" none).map (fun _ => ()) = .error
      (.badNumeral ['²']) := by
    decide +kernel
  rw [hRead] at hFails
  cases hFails

end Demacro
