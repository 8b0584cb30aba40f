import Demacro.Proofs.InForce
import Demacro.Proofs.Inclusion
import Demacro.Proofs.Lexing.Layout
import Demacro.Proofs.Lines
import Demacro.Proofs.Unit.Scans
import Mathlib.Data.List.Range

/-!
The tokens of a unit are all those of its files, numbered from zero. Each directive line is a
stretch of them, the macro directives have the places of their lines, and the code is what is left.
-/

namespace Demacro

namespace Directive

/-- The number of tokens in front of the operands: the mark that starts the line, and the keyword if
there is one. -/
def marks (keyword : String) : Nat :=
  if keyword = "" then 1 else 2

/-- The operands are what stands behind the mark and the keyword. -/
theorem split_eq_drop {line : List Token} (hNe : line ≠ [])
    (hNames : ∀ t ∈ line, t.isIdentifier = true → t.spelling ≠ "") :
    (split line).2 = line.drop (marks (split line).1) ∧ marks (split line).1 ≤ line.length := by
  obtain ⟨first, rest, rfl⟩ := List.exists_cons_of_ne_nil hNe
  cases rest with
  | nil => exact ⟨rfl, Nat.le_refl 1⟩
  | cons t ts =>
      by_cases hIdentifier : t.isIdentifier = true
      · have hName := hNames t (by simp) hIdentifier
        simp [split, hIdentifier, marks, hName]
      · simp [split, hIdentifier, marks]

end Directive

theorem Token.spelling_ne_empty {path : String} {text : Text} {tokens : List Token}
    (h : ofText path text = .ok tokens) {t : Token} (ht : t ∈ tokens)
    (hIdentifier : t.isIdentifier = true) : t.spelling ≠ "" := by
  have hPart := (cover_of_ofText h).parts t ht
  have hKind : t.kind = .identifier := by
    simpa [isIdentifier] using hIdentifier
  have hLexeme : t.lexeme ≠ [] := by
    have hInside := hPart.inside
    have hNonempty := hPart.nonempty
    rw [hPart.lexeme, hKind, Piece.lexemeOf, if_neg (by decide), ← List.length_pos_iff,
      List.length_drop, List.length_take]
    omega
  obtain ⟨c, cs, hCons⟩ := List.exists_cons_of_ne_nil hLexeme
  rw [spelling, Text.display, hCons]
  cases c <;> simp [SourceChar.display]

namespace DirectiveLine

/-- The number of tokens on the line. -/
def size (l : DirectiveLine) : Nat :=
  Directive.marks l.keyword + l.operands.length

/-- The tokens that stand where the line has its place. -/
def stretch (l : DirectiveLine) (tokens : List PlacedToken) : List PlacedToken :=
  (tokens.drop l.position).take l.size

/-- The token has a place on the line. -/
def Holds (l : DirectiveLine) (t : PlacedToken) : Prop :=
  l.position ≤ t.position ∧ t.position < l.position + l.size

instance (l : DirectiveLine) (t : PlacedToken) : Decidable (l.Holds t) :=
  inferInstanceAs (Decidable (_ ∧ _))

/-- At the place of the line stands a logical line of the text of a file, with its keyword and its
operands. -/
structure StandsIn (l : DirectiveLine) (tokens : List PlacedToken) : Prop where
  length : (l.stretch tokens).length = l.size
  isLine : Directive.isLine ((l.stretch tokens).map (·.toToken)) = true
  operands : (l.stretch tokens).drop (Directive.marks l.keyword) = l.operands
  split : Directive.split ((l.stretch tokens).map (·.toToken)) =
    (l.keyword, l.operands.map (·.toToken))
  inText : ∃ path text all, Token.ofText path text = .ok all
    ∧ (l.stretch tokens).map (·.toToken) ∈ Token.logicalLines all

end DirectiveLine

/-- The macro directive is the one that the line spells, and goes from the first to the last token
on it. -/
structure Event.IsOn (e : Event) (l : DirectiveLine) (tokens : List PlacedToken) : Prop where
  spells : ∃ first rest, (l.stretch tokens).map (·.toToken) = first :: rest
    ∧ Directive.ofLine? l.keyword first rest = some (.ok e.directive)
  reachability : e.reachability = l.reachability
  first : (l.stretch tokens).head?.map (·.position) = some e.position
  last : (l.stretch tokens).getLast?.map (·.position) = some e.lastPosition

namespace CompilationUnit

variable {u : CompilationUnit} {n : Nat} {lines : List UnitLine} {line : UnitLine} {t : PlacedToken}
  {l l' : Nat × UnitLine} {path : String} {text : Text} {search : Option IncludeSearch}

/-- The tokens of lines that have their places. -/
def tokensOf (lines : List (Nat × UnitLine)) : List PlacedToken :=
  lines.flatMap fun l => placeTokens l.1 l.2.reachability l.2.tokens

theorem tokens_eq_tokensOf (u : CompilationUnit) : u.tokens = tokensOf u.placedLines := rfl

theorem length_placeTokens (n : Nat) (reach : Reachability) (ts : List Token) :
    (placeTokens n reach ts).length = ts.length := by
  rw [← List.length_map (f := PlacedToken.toToken), map_toToken_placeTokens]

theorem map_position_placeTokens (n : Nat) (reach : Reachability) (ts : List Token) :
    (placeTokens n reach ts).map (·.position) = List.range' n ts.length := by
  induction ts generalizing n with
  | nil => rfl
  | cons t ts ih => rw [placeTokens, List.map_cons, ih, List.length_cons, List.range'_succ]

/-- Positions count the tokens. -/
theorem map_position_tokensOf (n : Nat) (lines : List UnitLine) :
    (tokensOf (numbered n lines)).map (·.position) =
    List.range' n (tokensOf (numbered n lines)).length := by
  induction lines generalizing n with
  | nil => rfl
  | cons line lines ih =>
      rw [numbered, tokensOf, List.flatMap_cons, List.map_append, List.length_append,
        length_placeTokens, map_position_placeTokens, ← tokensOf, ih, ← List.range'_append_1]
      rfl

/-- The tokens of a line are a stretch of all tokens, at the position of the line. -/
theorem stretch_of_mem_numbered (h : l ∈ numbered n lines) :
    ((tokensOf (numbered n lines)).drop (l.1 - n)).take l.2.tokens.length
      = placeTokens l.1 l.2.reachability l.2.tokens := by
  induction lines generalizing n with
  | nil => cases h
  | cons line lines ih =>
      rw [numbered, tokensOf, List.flatMap_cons, ← tokensOf]
      dsimp only
      rcases List.mem_cons.mp h with rfl | h
      · rw [Nat.sub_self, List.drop_zero, List.take_left' (length_placeTokens _ _ _)]
      · have hLe := le_of_mem_numbered h
        have hLength : (placeTokens n line.reachability line.tokens).length = line.rest.length
            + 1 :=
          length_placeTokens _ _ _
        rw [List.drop_append, List.drop_of_length_le (by omega), List.nil_append, hLength,
          show l.1 - n - (line.rest.length + 1) = l.1 - (n + line.rest.length + 1) by omega, ih h]

/-- The directive line that a line is, if it is one. -/
def directiveLine? (l : Nat × UnitLine) : Option DirectiveLine :=
  match l.2.role with
  | .code => none
  | .directive keyword _ _ =>
    some ⟨keyword, (placeTokens l.1 l.2.reachability l.2.tokens).drop (Directive.marks keyword),
      Directive.lineSpan l.2.first l.2.rest, l.2.reachability, l.1⟩

theorem directiveLines_eq (u : CompilationUnit) :
    u.directiveLines = u.placedLines.filterMap directiveLine? := by
  refine List.filterMap_congr fun l _ => ?_
  cases hRole : l.2.role <;> simp only [hRole, directiveLine?, ↓reduceIte, Directive.marks,
    UnitLine.tokens]

theorem directiveLine?_eq_some {d : DirectiveLine} (h : directiveLine? l = some d) :
    l.2.role ≠ .code ∧ d.position = l.1 := by
  unfold directiveLine? at h
  split at h
  · cases h
  · rename_i hRole
    cases h
    exact ⟨by simp [hRole], rfl⟩

/-- What the line of a directive holds, if the unit was read. -/
theorem tokens_of_directive (h : read path text search = .ok u) (hl : l ∈ u.placedLines)
    {keyword : String} {change : Option Directive} {unresolved : Bool}
    (hRole : l.2.role = .directive keyword change unresolved) : Directive.isLine l.2.tokens = true
      ∧ Directive.split l.2.tokens = (keyword, l.2.tokens.drop (Directive.marks keyword))
      ∧ Directive.marks keyword ≤ l.2.tokens.length
      ∧ ∀ d ∈ change, Directive.ofLine? keyword l.2.first l.2.rest = some (.ok d) := by
  have hWritten := written_of_mem_lines h (mem_of_mem_numbered hl)
  obtain ⟨file, content, tokens, hTokens, hInText⟩ := hWritten.inText
  have hSpells := hWritten.role
  rw [hRole] at hSpells
  obtain ⟨hPunct, rfl, hChange⟩ : l.2.first.isPunct "#" = true
    ∧ keyword = (Directive.split l.2.tokens).1
      ∧ ∀ d ∈ change, Directive.ofLine? keyword l.2.first l.2.rest = some (.ok d) := by
    cases hSpells with
    | directive hPunct unresolved => exact ⟨hPunct, rfl, by simp⟩
    | change hPunct hLine => exact ⟨hPunct, rfl, by simpa using hLine⟩
  have hNames : ∀ t ∈ l.2.tokens, t.isIdentifier = true → t.spelling ≠ "" := fun t ht =>
    Token.spelling_ne_empty hTokens (Token.mem_of_mem_logicalLines hInText ht)
  have hSome : l.2.tokens ≠ [] := List.cons_ne_nil _ _
  obtain ⟨hOperands, hMarks⟩ := Directive.split_eq_drop hSome hNames
  refine ⟨by simpa [Directive.isLine, UnitLine.tokens] using hPunct, ?_, hMarks, hChange⟩
  rw [← hOperands]

/-- A directive line takes the place of the line that it is. -/
theorem size_of_directiveLine? (h : read path text search = .ok u) (hl : l ∈ u.placedLines)
    {d : DirectiveLine} (hd : directiveLine? l = some d) : d.size = l.2.tokens.length := by
  unfold directiveLine? at hd
  split at hd
  · cases hd
  · rename_i hRole
    cases hd
    obtain ⟨-, -, hMarks, -⟩ := tokens_of_directive h hl hRole
    rw [DirectiveLine.size, List.length_drop, length_placeTokens, Nat.add_sub_cancel' hMarks]

theorem stretch_of_directiveLine? (h : read path text search = .ok u) (hl : l ∈ u.placedLines)
    {d : DirectiveLine} (hd : directiveLine? l = some d) :
    d.stretch u.tokens = placeTokens l.1 l.2.reachability l.2.tokens := by
  have hStretch := stretch_of_mem_numbered hl
  rw [Nat.sub_zero] at hStretch
  rw [DirectiveLine.stretch, (directiveLine?_eq_some hd).2, size_of_directiveLine? h hl hd,
    tokens_eq_tokensOf]
  exact hStretch

theorem standsIn_of_directiveLine? (h : read path text search = .ok u) (hl : l ∈ u.placedLines)
    {d : DirectiveLine} (hd : directiveLine? l = some d) : d.StandsIn u.tokens := by
  have hStretch := stretch_of_directiveLine? h hl hd
  have hSize := size_of_directiveLine? h hl hd
  have hWritten := written_of_mem_lines h (mem_of_mem_numbered hl)
  unfold directiveLine? at hd
  split at hd
  · cases hd
  rename_i hRole
  cases hd
  obtain ⟨hLine, hSplit, -, -⟩ := tokens_of_directive h hl hRole
  constructor
  · rw [hStretch, hSize, length_placeTokens]
  · rw [hStretch, map_toToken_placeTokens, hLine]
  · rw [hStretch]
  · rw [hStretch, map_toToken_placeTokens, hSplit, List.map_drop, map_toToken_placeTokens]
  · rw [hStretch, map_toToken_placeTokens]
    exact hWritten.inText

/-- A macro directive is on the line that it was read from. -/
theorem exists_isOn (h : read path text search = .ok u) {e : Event} (he : e ∈ u.events) :
    ∃ d ∈ u.directiveLines, e.IsOn d u.tokens := by
  obtain ⟨l, hl, keyword, unresolved, hRole, hFirst, hLast, hReach⟩ := exists_line_of_mem_events he
  obtain ⟨-, -, -, hChange⟩ := tokens_of_directive h hl hRole
  have hOwn : directiveLine? l = some ⟨keyword, (placeTokens l.1 l.2.reachability l.2.tokens).drop
      (Directive.marks keyword), Directive.lineSpan l.2.first l.2.rest, l.2.reachability, l.1⟩ := by
    rw [directiveLine?, hRole]
  refine ⟨_, directiveLines_eq u ▸ List.mem_filterMap.mpr ⟨l, hl, hOwn⟩, ?_⟩
  have hStretch := stretch_of_directiveLine? h hl hOwn
  have hPositions := map_position_placeTokens l.1 l.2.reachability l.2.tokens
  constructor
  · exact ⟨l.2.first, l.2.rest, by rw [hStretch, map_toToken_placeTokens,
      UnitLine.tokens], hChange _ rfl⟩
  · exact hReach
  · rw [hStretch, ← List.head?_map, hPositions, List.head?_range', UnitLine.tokens,
      List.length_cons, hFirst]
    rfl
  · rw [hStretch, ← List.getLast?_map, hPositions, List.getLast?_range', UnitLine.tokens,
      List.length_cons, hLast]
    simp

/-- Directive lines stand one behind the other. -/
theorem directiveLines_pairwise (h : read path text search = .ok u) :
    u.directiveLines.Pairwise fun d d' => d.position + d.size ≤ d'.position := by
  rw [directiveLines_eq, List.pairwise_filterMap]
  refine (numbered_pairwise 0 u.lines).imp_of_mem ?_
  intro l l' hl hl' hLess d hd d' hd'
  rw [size_of_directiveLine? h hl hd, (directiveLine?_eq_some hd).2, (directiveLine?_eq_some hd').2,
    UnitLine.tokens, List.length_cons]
  omega

/-- A token of a line is on a directive line just if the line is one. -/
theorem exists_holds_iff (h : read path text search = .ok u) (hl : l ∈ u.placedLines)
    (ht : t ∈ placeTokens l.1 l.2.reachability l.2.tokens) :
    (∃ d ∈ u.directiveLines, d.Holds t) ↔ l.2.role ≠ .code := by
  obtain ⟨-, hFrom, hTo⟩ := of_mem_placeTokens ht
  rw [directiveLines_eq]
  constructor
  · rintro ⟨d, hd, hHolds⟩
    obtain ⟨l', hl', hd⟩ := List.mem_filterMap.mp hd
    obtain ⟨hRole, hPosition⟩ := directiveLine?_eq_some hd
    rw [DirectiveLine.Holds, hPosition, size_of_directiveLine? h hl' hd] at hHolds
    have hSame : l = l' := by
      by_contra hNe
      have hApart := apart_of_mem_placedLines hl hl' hNe
      simp only [UnitLine.tokens, List.length_cons] at hTo hHolds
      omega
    rwa [hSame]
  · intro hRole
    obtain ⟨d, hd⟩ : ∃ d, directiveLine? l = some d := by
      unfold directiveLine?
      split
      · rename_i hCode
        exact absurd hCode hRole
      · exact ⟨_, rfl⟩
    refine ⟨d, List.mem_filterMap.mpr ⟨l, hl, hd⟩, ?_⟩
    rw [DirectiveLine.Holds, (directiveLine?_eq_some hd).2, size_of_directiveLine? h hl hd]
    exact ⟨hFrom, hTo⟩

/-- The code is what is on no directive line. -/
theorem codeTokens_eq_filter (h : read path text search = .ok u) :
    u.codeTokens = u.tokens.filter fun t => decide (∀ d ∈ u.directiveLines, ¬ d.Holds t) := by
  rw [codeTokens, tokens_eq_tokensOf, tokensOf, List.filter_flatMap]
  refine List.flatMap_congr fun l hl => ?_
  dsimp only
  split
  · rename_i hRole
    refine (List.filter_eq_self.mpr fun t ht => ?_).symm
    have hNot : ∀ d ∈ u.directiveLines, ¬ d.Holds t := fun d hd hOn =>
      (exists_holds_iff h hl ht).mp ⟨d, hd, hOn⟩ hRole
    exact decide_eq_true hNot
  · rename_i hRole
    refine (List.filter_eq_nil_iff.mpr fun t ht hNone => ?_).symm
    have hNot : ∀ d ∈ u.directiveLines, ¬ d.Holds t := of_decide_eq_true hNone
    obtain ⟨d, hd, hOn⟩ := (exists_holds_iff h hl ht).mpr (by simp [hRole])
    exact hNot d hd hOn

theorem position_getElem {i : Nat} (h : i < u.tokens.length) : u.tokens[i].position = i := by
  have hEq : (u.tokens.map (·.position))[i]? = some i := by
    rw [tokens_eq_tokensOf, placedLines, map_position_tokensOf, ← placedLines, ← tokens_eq_tokensOf,
      List.getElem?_range' h]
    simp
  simpa [h] using hEq

/-- The tokens of a unit are complete and consistently numbered. -/
structure WellNumbered (u : CompilationUnit) (search : Option IncludeSearch) (path : String)
    (text : Text) : Prop where
  position : ∀ i (h : i < u.tokens.length), u.tokens[i].position = i
  code : u.codeTokens = u.tokens.filter fun t => decide (∀ d ∈ u.directiveLines, ¬ d.Holds t)
  lines : ∀ d ∈ u.directiveLines, d.StandsIn u.tokens
  linesApart : u.directiveLines.Pairwise fun d d' => d.position + d.size ≤ d'.position
  events : ∀ e ∈ u.events, ∃ d ∈ u.directiveLines, e.IsOn d u.tokens
  eventsInOrder : Event.InOrder u.events
  /-- The tokens are those of the files that were scanned, each the tokens of its text, with those
  of an included file behind its include line. -/
  files : ∃ scan, u.tokens.map (·.toToken) = scan.tokens
    ∧ u.files = ScannedFile.record [] (ScannedFile.all ⟨path, text, scan⟩)
    ∧ ∀ f ∈ ScannedFile.all ⟨path, text, scan⟩, f.Faithful search

/-- **Numbering.** However deep the includes are nested, the tokens of a unit are all those of its
files, numbered from zero, with the directive lines as stretches of them and the code as what is
left. -/
theorem wellNumbered_of_read (h : read path text search = .ok u) :
    u.WellNumbered search path text := by
  refine ⟨fun i hi => position_getElem hi, codeTokens_eq_filter h, ?_, directiveLines_pairwise h,
    fun e he => exists_isOn h he, events_inOrder u, ?_⟩
  · intro d hd
    rw [directiveLines_eq] at hd
    obtain ⟨l, hl, hd⟩ := List.mem_filterMap.mp hd
    exact standsIn_of_directiveLine? h hl hd
  · obtain ⟨r, hRead, h⟩ := Except.bind_eq_ok_iff.mp h
    cases h
    obtain ⟨scan, hTokens, hFiles, hFaithful⟩ :=
      Reading.addFileWithin_scan search maxIncludeDepth _ _ _ _ _ hRead
    refine ⟨scan, ?_, hFiles, hFaithful⟩
    rw [map_toToken_tokens, ← List.flatMap_def]
    exact hTokens

/-- A header that includes another one, in which a malformed definition is disabled. -/
def nestedHeaders : IncludeSearch :=
  twoHeaders "#include \"b.h\"\n#define A B\n" "#define B 1\n#if 0\n#define A(\n#endif\n"

theorem wellNumbered_nestedHeaders :
    ∃ u, read "u.cpp" "#include \"a.h\"\nint u = A + B;\n" (some nestedHeaders) = .ok u
      ∧ u.tokens.length = 30 ∧ u.events.map (fun e => (e.position, e.lastPosition)) = [(6, 9),
        (19, 22)]
      ∧ u.WellNumbered (some nestedHeaders) "u.cpp" "#include \"a.h\"\nint u = A + B;\n" := by
  refine Except.exists_of_passes (fun u => decide (u.tokens.length = 30)
      && decide (u.events.map (fun e => (e.position, e.lastPosition)) = [(6, 9), (19, 22)]))
    (by decide +kernel) fun u h hTest => ?_
  simp only [Bool.and_eq_true, decide_eq_true_eq] at hTest
  exact ⟨hTest.1, hTest.2, wellNumbered_of_read h⟩

end CompilationUnit

end Demacro
