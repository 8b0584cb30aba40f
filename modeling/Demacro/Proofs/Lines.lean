import Demacro.Proofs.Inclusion.Opening
import Demacro.Proofs.Lexing
import Demacro.Proofs.Unit

/-!
The lines of a unit. Whatever is included, each line of a unit is a logical line of the text of some
file, and it is read as what its tokens spell.
-/

namespace Demacro

/-- A text that is shown without a backslash holds no stray bytes. -/
theorem Text.eq_ofString_of_display {t : Text} {s : String} (h : t.display = s)
    (hPlain : '\\' ∉ s.toList) : t = ofString s := by
  subst h
  rw [display, String.toList_ofList] at hPlain
  rw [ofString, display, String.toList_ofList]
  induction t with
  | nil => rfl
  | cons c t ih =>
      rw [List.flatMap_cons, List.mem_append, not_or] at hPlain
      cases c with
      | char c => simpa [SourceChar.display] using ih hPlain.2
      | byte b => exact absurd List.mem_cons_self hPlain.1

/-- What a logical line can be read as. -/
inductive LineRole.Spells (first : Token) (rest : List Token) : LineRole → Prop where
  | code (hPunct : first.isPunct "#" = false) : Spells first rest .code
  | directive (hPunct : first.isPunct "#" = true) (unresolved : Bool) :
      Spells first rest (.directive (Directive.split (first :: rest)).1 none unresolved)
  | change (hPunct : first.isPunct "#" = true) {d : Directive}
      (hLine : Directive.ofLine? (Directive.split (first :: rest)).1 first rest = some (.ok d)) :
      Spells first rest (.directive (Directive.split (first :: rest)).1 (some d) false)

/-- The line is a logical line of the text of a file, and is read as what it spells. -/
structure UnitLine.Written (line : UnitLine) : Prop where
  inText : ∃ path text tokens, Token.ofText path text = .ok tokens
    ∧ line.first :: line.rest ∈ Token.logicalLines tokens
  role : line.role.Spells line.first line.rest

namespace Directive

variable {first : Token} {rest : List Token}

/-- A `#define` takes its whole line and defines a name that is not an operator. -/
theorem define?_eq_ok {d : Definition} (h : define? first rest = .ok d) :
    d.span = lineSpan first rest ∧ d.name ≠ "defined" := by
  unfold define? at h
  dsimp only at h
  split at h
  · cases h
  rename_i t ts _
  split at h
  · cases h
  rename_i hIdentifier
  split at h
  · cases h
  rename_i hNamed
  have hSpelling : t.spelling ≠ "defined" := by
    intro hSame
    have hLexeme := Text.eq_ofString_of_display hSame (by decide)
    apply hNamed
    simp_all [Token.isNamed, Token.isIdentifier]
  split at h
  · split at h
    · obtain ⟨parts, -, rfl⟩ := Except.map_eq_ok_iff.mp h
      exact ⟨rfl, hSpelling⟩
    · cases h
      exact ⟨rfl, hSpelling⟩
  · cases h
    exact ⟨rfl, hSpelling⟩

/-- The name that a `#define` defines is an identifier of its line. -/
theorem exists_name_of_define? {d : Definition} (h : define? first rest = .ok d) :
    ∃ t ∈ rest, t.isIdentifier = true ∧ t.spelling = d.name := by
  unfold define? at h
  dsimp only at h
  split at h
  · cases h
  rename_i t ts hSplit
  have hMem : t ∈ rest := mem_of_mem_split (hSplit ▸ List.mem_cons_self)
  split at h
  · cases h
  rename_i hIdentifier
  have hWord : t.isIdentifier = true := by simpa using hIdentifier
  split at h
  · cases h
  split at h
  · split at h
    · obtain ⟨parts, -, rfl⟩ := Except.map_eq_ok_iff.mp h
      exact ⟨t, hMem, hWord, rfl⟩
    · cases h
      exact ⟨t, hMem, hWord, rfl⟩
  · cases h
    exact ⟨t, hMem, hWord, rfl⟩

/-- A macro directive takes its whole line. -/
theorem ofLine?_eq_ok {keyword : String} {d : Directive}
    (h : ofLine? keyword first rest = some (.ok d)) :
    d.span = lineSpan first rest ∧ (d.isDefine = true → d.name ≠ "defined") := by
  unfold ofLine? at h
  split at h
  · rw [Option.some.injEq, Except.map_eq_ok_iff] at h
    obtain ⟨definition, hDefinition, rfl⟩ := h
    obtain ⟨hSpan, hName⟩ := define?_eq_ok hDefinition
    exact ⟨hSpan, fun _ => hName⟩
  split at h
  · rw [Option.some.injEq, Except.map_eq_ok_iff] at h
    obtain ⟨name, -, rfl⟩ := h
    exact ⟨rfl, nofun⟩
  · cases h

theorem exists_name_of_ofLine? {keyword : String} {d : Directive}
    (h : ofLine? keyword first rest = some (.ok d)) (hDefine : d.isDefine = true) :
    ∃ t ∈ rest, t.isIdentifier = true ∧ t.spelling = d.name := by
  unfold ofLine? at h
  split at h
  · rw [Option.some.injEq, Except.map_eq_ok_iff] at h
    obtain ⟨definition, hDefinition, rfl⟩ := h
    exact exists_name_of_define? hDefinition
  split at h
  · rw [Option.some.injEq, Except.map_eq_ok_iff] at h
    obtain ⟨name, -, rfl⟩ := h
    cases hDefine
  · cases h

end Directive

namespace Reading

variable {search : Option IncludeSearch} {follow : Option Follow} {path : String}
  {outer reach : Reachability} {isGuard : Bool} {first : Token} {rest : List Token}
  {lines : List (List Token)} {groups groups' : List Group} {r r' : Reading}

/-- All lines that were read are written in texts. -/
def AllWritten (r : Reading) : Prop :=
  ∀ line ∈ r.lines, line.Written

theorem AllWritten.add {line : UnitLine} (hr : r.AllWritten) (hLine : line.Written) :
    (r.add line).AllWritten := by
  intro other hOther
  rcases Array.mem_push.mp hOther with hOther | rfl
  · exact hr other hOther
  · exact hLine

theorem addInclude_written {body : List Token} {line : Bool → UnitLine} {span : Span}
    (hLine : ∀ unresolved, (line unresolved).Written) (hFollow : ∀ f ∈ follow, Keeps AllWritten f)
    (hLive : reach ≠ .disabled) (hr : r.AllWritten)
    (h : addInclude search follow path body line span reach r = .ok r') : r'.AllWritten := by
  unfold addInclude at h
  split at h
  · cases h
    exact hr.add (hLine _)
  split at h
  · cases h
    exact hr.add (hLine _)
  split at h
  · cases h
  rename_i f
  split at h
  · cases h
  · cases h
    exact hr.add (hLine _)
  split at h
  · cases h
    exact hr.add (hLine _)
  · exact hFollow f rfl _ _ _ _ _ hLive (hr.add (hLine _)) h

theorem addDirective_written (hPunct : first.isPunct "#" = true)
    (hText : ∃ path text tokens, Token.ofText path text = .ok tokens
      ∧ first :: rest ∈ Token.logicalLines tokens)
    (hFollow : ∀ f ∈ follow, Keeps AllWritten f) (hr : r.AllWritten)
    (h : addDirective search follow path first rest reach r = .ok r') : r'.AllWritten := by
  have hPlain : ∀ unresolved, UnitLine.Written
      ⟨first, rest, reach, .directive (Directive.split (first :: rest)).1 none unresolved⟩ :=
    fun unresolved => ⟨hText, .directive hPunct unresolved⟩
  unfold addDirective at h
  dsimp only at h
  split at h
  · rename_i d hChange
    cases h
    exact hr.add ⟨hText, .change hPunct hChange⟩
  · split at h
    · cases h
      exact hr.add (hPlain _)
    · cases h
  split at h
  · rename_i hInclude
    exact addInclude_written hPlain hFollow hInclude.2 hr h
  split at h
  · cases h
    exact hr.add (hPlain _)
  · cases h
    exact hr.add (hPlain _)

theorem addLine_written
    (hText : ∃ path text tokens, Token.ofText path text = .ok tokens
      ∧ first :: rest ∈ Token.logicalLines tokens)
    (hFollow : ∀ f ∈ follow, Keeps AllWritten f) (hr : r.AllWritten)
    (h : addLine search follow path outer isGuard first rest groups r = .ok (groups', r')) :
    r'.AllWritten := by
  unfold addLine at h
  split at h
  · rename_i hPunct
    dsimp only at h
    split at h
    · obtain ⟨next, -, h⟩ := Except.bind_eq_ok_iff.mp h
      cases h
      exact hr.add ⟨hText, .directive hPunct _⟩
    · obtain ⟨r', hDirective, h⟩ := Except.bind_eq_ok_iff.mp h
      cases h
      exact addDirective_written hPunct hText hFollow hr hDirective
  · rename_i hPunct
    cases h
    exact hr.add ⟨hText, .code (by simpa using hPunct)⟩

theorem addLines_written {from_ : String} {text : Text} {tokens : List Token}
    (hTokens : Token.ofText from_ text = .ok tokens)
    (hLines : ∀ line ∈ lines, line ∈ Token.logicalLines tokens)
    (hFollow : ∀ f ∈ follow, Keeps AllWritten f) (hr : r.AllWritten)
    (h : addLines search follow path outer isGuard lines groups r = .ok (groups', r')) :
    r'.AllWritten := by
  induction lines generalizing isGuard groups r with
  | nil =>
      cases h
      exact hr
  | cons line lines ih =>
      have hRest : ∀ line ∈ lines, line ∈ Token.logicalLines tokens :=
        fun other hOther => hLines other (List.mem_cons_of_mem line hOther)
      cases line with
      | nil => exact ih hRest hr h
      | cons first rest =>
          obtain ⟨⟨groups, r⟩, hLine, h⟩ := Except.bind_eq_ok_iff.mp h
          have hText := hLines _ List.mem_cons_self
          exact ih hRest (addLine_written ⟨from_, text, tokens, hTokens, hText⟩ hFollow hr hLine) h

theorem addFile_written (hFollow : ∀ f ∈ follow, Keeps AllWritten f) :
    Keeps AllWritten (addFile search follow) := by
  intro path text outer r r' _ hr h
  obtain ⟨tokens, last, hTokens, hLines, rfl⟩ := addFile_eq_ok h
  have hLast : last.AllWritten := addLines_written hTokens (fun _ hLine => hLine) hFollow
    (by exact hr) hLines
  split <;> exact hLast

theorem addFileWithin_written (search : Option IncludeSearch) (budget : Nat) :
    Keeps AllWritten (addFileWithin search budget) := by
  induction budget with
  | zero => exact addFile_written (by simp)
  | succ budget ih => exact addFile_written (by simpa using ih)

end Reading

namespace CompilationUnit

variable {u : CompilationUnit} {path : String} {text : Text} {search : Option IncludeSearch}

/-- Each line of a unit is written in the text of a file. -/
theorem written_of_mem_lines (h : read path text search = .ok u) {line : UnitLine}
    (hLine : line ∈ u.lines) : line.Written := by
  obtain ⟨r, hRead, h⟩ := Except.bind_eq_ok_iff.mp h
  cases h
  have hAll : r.AllWritten := by
    refine Reading.addFileWithin_written search maxIncludeDepth path text .unconditional {} r
      (by decide) ?_ hRead
    intro line hNone
    simp at hNone
  exact hAll line (by simpa using hLine)

/-- A macro directive is the one that its line spells. -/
theorem exists_written_of_mem_events (h : read path text search = .ok u) {e : Event}
    (he : e ∈ u.events) :
    ∃ l ∈ u.placedLines, l.2.Written ∧ e.position = l.1 ∧ e.lastPosition = l.1 + l.2.rest.length
      ∧ Directive.ofLine? (Directive.split (l.2.first :: l.2.rest)).1 l.2.first l.2.rest
        = some (.ok e.directive) := by
  obtain ⟨l, hl, keyword, unresolved, hRole, hPosition, hLast, -⟩ := exists_line_of_mem_events he
  have hWritten := written_of_mem_lines h (mem_of_mem_numbered hl)
  refine ⟨l, hl, hWritten, hPosition, hLast, ?_⟩
  have hSpells := hWritten.role
  rw [hRole] at hSpells
  cases hSpells with
  | change _ hLine => exact hLine

/-- A name that is defined is an identifier in the text of a file. -/
theorem exists_identifier_of_mem_events (h : read path text search = .ok u) {e : Event}
    (he : e ∈ u.events) (hDefine : e.directive.isDefine = true) :
    ∃ file content tokens, Token.ofText file content = .ok tokens
      ∧ ∃ t ∈ tokens, t.isIdentifier = true ∧ t.spelling = e.directive.name := by
  obtain ⟨l, -, hWritten, -, -, hLine⟩ := exists_written_of_mem_events h he
  obtain ⟨file, content, tokens, hTokens, hInText⟩ := hWritten.inText
  refine ⟨file, content, tokens, hTokens, ?_⟩
  obtain ⟨t, ht, hIdentifier, hName⟩ := Directive.exists_name_of_ofLine? hLine hDefine
  exact ⟨t, Token.mem_of_mem_logicalLines hInText (List.mem_cons_of_mem _ ht), hIdentifier, hName⟩

/-- The word `defined` is not the name of a macro. -/
theorem name_ne_defined (h : read path text search = .ok u) {e : Event} (he : e ∈ u.events)
    (hDefine : e.directive.isDefine = true) : e.directive.name ≠ "defined" := by
  obtain ⟨l, -, -, -, -, hLine⟩ := exists_written_of_mem_events h he
  exact (Directive.ofLine?_eq_ok hLine).2 hDefine

end CompilationUnit

end Demacro
