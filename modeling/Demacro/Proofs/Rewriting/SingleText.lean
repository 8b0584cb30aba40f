import Demacro.Proofs.Collisions
import Demacro.Proofs.Rewriting.Declarations
import Demacro.Proofs.Rewriting.Rescan
import Mathlib.Data.List.Flatten

/-!
Units of one text. Where no includes are followed, the lines of a unit are the logical lines of its
text, and what is said about places of the unit is said about tokens of the text. In a definition,
the names of the parameters are identifiers, and the replacement is the end of the line, so the text
of the replacement can be read again.
-/

namespace Demacro

open Token

/-- Two tokens of which the second one starts no line stand on one line. -/
theorem Token.exists_line_of_infix {tokens : List Token} {t v : Token} (h : [t, v] <:+: tokens)
    (hv : v.atLineStart = false) : ∃ line ∈ logicalLines tokens, [t, v] <:+: line := by
  induction tokens with
  | nil => exact absurd h (by simp)
  | cons x ts ih =>
      rcases List.infix_cons_iff.mp h with hHere | hLater
      · obtain ⟨rest, hRest⟩ := hHere
        simp only [List.cons_append, List.nil_append] at hRest
        obtain ⟨rfl, rfl⟩ := List.cons.inj hRest
        rw [logicalLines_cons]
        refine ⟨_, List.mem_cons_self, ?_⟩
        rw [List.takeWhile_cons_of_pos (by simp [continues, hv])]
        exact (List.prefix_append [t, v] _).isInfix
      · obtain ⟨line, hLine, hInfix⟩ := ih hLater
        unfold logicalLines
        split
        · rename_i next rest first lines hLines
          rw [hLines] at hLine
          split
          · exact ⟨line, List.mem_cons_of_mem _ hLine, hInfix⟩
          · rcases List.mem_cons.mp hLine with rfl | hLine
            · exact ⟨_, List.mem_cons_self, hInfix.trans (List.suffix_cons x _).isInfix⟩
            · exact ⟨line, List.mem_cons_of_mem _ hLine, hInfix⟩
        · exact ⟨line, List.mem_cons_of_mem _ hLine, hInfix⟩

namespace Occurrence

variable {table : MacroTable} {scopes : UnitScopes} {t : PlacedToken}
  {rest tokens : List PlacedToken} {o : Occurrence} {w : Usage}

/-- Behind a call stands its argument list. -/
theorem isPunct_of_at?_eq_usage (h : at? table scopes t rest = some (usage w))
    (hFunction : w.definition.definition.shape.isFunction = true) :
    ∃ q ∈ rest.head?, q.isPunct "(" = true := by
  unfold at? at h
  dsimp only at h
  split at h
  · cases h
  split at h
  · split at h <;> cases h
  split at h
  · rename_i hObject
    cases h
    simp [makeUsage] at hObject hFunction
    rw [hObject] at hFunction
    cases hFunction
  split at h
  · cases h
  · rename_i hOpen
    rw [Bool.not_eq_true', Bool.not_eq_false, Option.any_eq_true] at hOpen
    exact hOpen

end Occurrence

namespace Reading

variable {path : String} {follow : Option Follow} {outer : Reachability} {isGuard : Bool}
  {first : Token} {rest : List Token} {lines : List (List Token)} {groups nextGroups : List Group}
  {r next : Reading}

/-- Where no includes are followed, a logical line is one line of the unit. -/
theorem exists_line_of_addLine
    (h : addLine none follow path outer isGuard first rest groups r = .ok (nextGroups, next)) :
    ∃ reach role, next.lines = (r.add ⟨first, rest, reach, role⟩).lines := by
  unfold addLine at h
  split at h
  · dsimp only at h
    split at h
    · obtain ⟨found, -, h⟩ := Except.bind_eq_ok_iff.mp h
      cases h
      exact ⟨_, _, rfl⟩
    · obtain ⟨found, hDirective, h⟩ := Except.bind_eq_ok_iff.mp h
      cases h
      obtain ⟨change, -, hLines⟩ := addDirective_eq_ok hDirective
      exact ⟨_, _, hLines⟩
  · cases h
    exact ⟨_, _, rfl⟩

theorem tokens_of_addLines (hLines : ∀ line ∈ lines, line ≠ [])
    (h : addLines none follow path outer isGuard lines groups r = .ok (nextGroups, next)) :
    next.lines.toList.map UnitLine.tokens = r.lines.toList.map UnitLine.tokens ++ lines := by
  induction lines generalizing isGuard groups r with
  | nil =>
      cases h
      simp
  | cons line lines ih =>
      cases line with
      | nil => exact absurd rfl (hLines [] List.mem_cons_self)
      | cons first rest =>
          obtain ⟨⟨groups', r'⟩, hLine, h⟩ := Except.bind_eq_ok_iff.mp h
          obtain ⟨reach, role, hAdded⟩ := exists_line_of_addLine hLine
          rw [ih (fun line hLine => hLines line (List.mem_cons_of_mem _ hLine)) h, hAdded]
          simp [add, UnitLine.tokens]

end Reading

namespace CompilationUnit

variable {u : CompilationUnit} {path : String} {text : Text} {tokens : List Token} {t : PlacedToken}
  {v : Token} {line : UnitLine}

/-- The lines of a unit of one text are the logical lines of the text. -/
theorem exists_tokens (h : read path text none = .ok u) :
    ∃ tokens, Token.ofText path text = .ok tokens
    ∧ u.lines.map UnitLine.tokens = logicalLines tokens := by
  obtain ⟨r, hFile, h⟩ := Except.bind_eq_ok_iff.mp h
  cases h
  obtain ⟨tokens, last, hTokens, hLines, rfl⟩ := Reading.addFile_eq_ok hFile
  refine ⟨tokens, hTokens, ?_⟩
  have hNe : ∀ line ∈ logicalLines tokens, line ≠ [] := by
    intro line hLine
    obtain ⟨_, t, ts, _, rfl, -⟩ := Token.exists_of_mem_logicalLines hLine
    exact List.cons_ne_nil t ts
  have hAll := Reading.tokens_of_addLines hNe hLines
  split <;> simpa [Reading.started, Reading.addOnce] using hAll

/-- A token of the code stands on a line of code. -/
theorem exists_code_line (ht : t ∈ u.codeTokens) : ∃ l ∈ u.placedLines, l.2.role = .code
    ∧ t ∈ placeTokens l.1 l.2.reachability l.2.tokens := by
  obtain ⟨l, hl, ht⟩ := List.mem_flatMap.mp ht
  dsimp only at ht
  split at ht
  · rename_i hRole
    exact ⟨l, hl, hRole, ht⟩
  · cases ht

/-- The position of a token says on which line it stands. -/
theorem eq_of_mem_placeTokens {l l' : Nat × UnitLine} (hl : l ∈ u.placedLines)
    (hl' : l' ∈ u.placedLines) (ht : t ∈ placeTokens l.1 l.2.reachability l.2.tokens)
    (ht' : t ∈ placeTokens l'.1 l'.2.reachability l'.2.tokens) : l = l' := by
  by_contra hNe
  obtain ⟨-, hFrom, hTo⟩ := of_mem_placeTokens ht
  obtain ⟨-, hFrom', hTo'⟩ := of_mem_placeTokens ht'
  simp only [UnitLine.tokens, List.length_cons] at hTo hTo'
  rcases apart_of_mem_placedLines hl hl' hNe with hLess | hLess <;> omega

/-- Tokens side by side have positions side by side. -/
theorem exists_mem_placeTokens {n : Nat} {reach : Reachability} {line : List Token} {t v : Token}
    (h : [t, v] <:+: line) : ∃ t' ∈ placeTokens n reach line, ∃ v' ∈ placeTokens n reach line,
      t'.toToken = t ∧ v'.toToken = v ∧ v'.position = t'.position + 1 := by
  induction line generalizing n with
  | nil => exact absurd h (by simp)
  | cons x line ih =>
      rcases List.infix_cons_iff.mp h with ⟨rest, hRest⟩ | hLater
      · simp only [List.cons_append, List.nil_append] at hRest
        obtain ⟨rfl, rfl⟩ := List.cons.inj hRest
        exact ⟨_, List.mem_cons_self, _, List.mem_cons_of_mem _ List.mem_cons_self, rfl, rfl, rfl⟩
      · obtain ⟨t', ht', v', hv', hBoth⟩ := ih (n := n + 1) hLater
        exact ⟨t', List.mem_cons_of_mem _ ht', v', List.mem_cons_of_mem _ hv', hBoth⟩

section Text

variable (hRead : read path text none = .ok u) (hTokens : Token.ofText path text = .ok tokens)

include hRead hTokens

theorem lines_eq : u.lines.map UnitLine.tokens = logicalLines tokens := by
  obtain ⟨tokens', hTokens', hLines⟩ := exists_tokens hRead
  obtain rfl := Except.ok.inj (hTokens.symm.trans hTokens')
  exact hLines

theorem mem_logicalLines (hLine : line ∈ u.lines) : line.tokens ∈ logicalLines tokens := by
  rw [← lines_eq hRead hTokens]
  exact List.mem_map_of_mem hLine

theorem tokens_eq : u.tokens.map PlacedToken.toToken = tokens := by
  rw [map_toToken_tokens, lines_eq hRead hTokens, flatten_logicalLines]

/-- A token of the text is at one place of the unit. -/
theorem eq_of_toToken_eq {t' : PlacedToken} (ht : t ∈ u.tokens) (ht' : t' ∈ u.tokens)
    (h : t.toToken = t'.toToken) : t = t' := by
  have hNodup : (u.tokens.map PlacedToken.toToken).Nodup := by
    rw [tokens_eq hRead hTokens]
    obtain ⟨hPlaces, hOrder⟩ := Token.apart_of_ofTextAt hTokens
    refine (hOrder.imp_of_mem fun {x y} hx hy hLe => ?_)
    rintro rfl
    have hRoom := (hPlaces x hx).2
    omega
  exact List.inj_on_of_nodup_map hNodup ht ht' h

/-- Behind a call on its line stands its argument list. -/
theorem isPunct_of_call {table : MacroTable} {scopes : UnitScopes} {w : Usage}
    (hUsage : .usage w ∈ Occurrence.all table scopes (UsageIndex.liveCode u))
    (hFunction : w.definition.definition.shape.isFunction = true)
    (hNext : [w.token.toToken, v] <:+: tokens) : v.isPunct "(" = true ∨ v.atLineStart = true := by
  by_cases hv : v.atLineStart = true
  · exact .inr hv
  refine .inl ?_
  obtain ⟨before, rest, hSplit, hAt⟩ := Occurrence.exists_at?_of_mem_all hUsage
  change UsageIndex.liveCode u = before ++ w.token :: rest at hSplit
  obtain ⟨q, hq, hOpen⟩ := Occurrence.isPunct_of_at?_eq_usage hAt hFunction
  obtain ⟨qs, rfl⟩ := List.head?_eq_some_iff.mp hq
  have hLive : w.token ∈ UsageIndex.liveCode u := by
    rw [hSplit]
    exact List.mem_append_right _ List.mem_cons_self
  obtain ⟨hCode, hReach⟩ := List.mem_filter.mp hLive
  -- The token behind the name stands on the line of the name, so it is compiled if the name is.
  obtain ⟨line, hLine, hInfix⟩ := Token.exists_line_of_infix hNext (by simpa using hv)
  rw [← lines_eq hRead hTokens] at hLine
  obtain ⟨found, hFound, rfl⟩ := List.mem_map.mp hLine
  obtain ⟨n, hPlaced⟩ := exists_numbered (n := 0) hFound
  obtain ⟨t', ht', v', hv', hToken, rfl, hPosition⟩ :=
    @exists_mem_placeTokens n found.reachability _ _ _ hInfix
  obtain rfl := eq_of_toToken_eq hRead hTokens (List.mem_flatMap.mpr ⟨_, hPlaced, ht'⟩)
    (mem_tokens_of_mem_codeTokens hCode) hToken
  obtain ⟨l, hl, hRole, hMem⟩ := exists_code_line hCode
  obtain rfl := eq_of_mem_placeTokens hPlaced hl ht' hMem
  have hv'Live : v' ∈ UsageIndex.liveCode u := by
    refine List.mem_filter.mpr ⟨List.mem_flatMap.mpr ⟨_, hl, ?_⟩, ?_⟩
    · dsimp only at hRole ⊢
      rw [hRole]
      exact hv'
    · rw [(of_mem_placeTokens hv').1, ← (of_mem_placeTokens ht').1]
      exact hReach
  have hPairwise := liveCode_pairwise u
  rw [hSplit] at hPairwise hv'Live
  obtain ⟨-, hBehind, hFront⟩ := List.pairwise_append.mp hPairwise
  rcases List.mem_append.mp hv'Live with hBefore | hHere
  · have hLess := hFront v' hBefore _ List.mem_cons_self
    omega
  rcases List.mem_cons.mp hHere with rfl | hHere
  · omega
  rcases List.mem_cons.mp hHere with rfl | hLater
  · exact hOpen
  · have hFirst := (List.pairwise_cons.mp hBehind).1 q List.mem_cons_self
    have hSecond := (List.pairwise_cons.mp (List.pairwise_cons.mp hBehind).2).1 v' hLater
    omega

/-- Code stands on lines that are no directives. -/
theorem exists_plain_line (ht : t ∈ u.codeTokens) : ∃ line ∈ logicalLines tokens,
    Directive.isLine line = false ∧ t.toToken ∈ line := by
  obtain ⟨l, hl, hRole, ht⟩ := exists_code_line ht
  have hLine := mem_of_mem_numbered hl
  refine ⟨_, mem_logicalLines hRead hTokens hLine, ?_, ?_⟩
  · have hSpells := (written_of_mem_lines hRead hLine).role
    rw [hRole] at hSpells
    cases hSpells with
    | code hPunct => simpa [UnitLine.tokens, Directive.isLine] using hPunct
  · rw [← map_toToken_placeTokens l.1 l.2.reachability l.2.tokens]
    exact List.mem_map_of_mem ht

end Text

end CompilationUnit

open Piece

namespace Directive

variable {last : Span} {done : List String} {variadic expecting : Bool}
  {ts replacement : List Token} {shape : Shape} {first : Token} {rest : List Token} {d : Definition}

/-- Behind the parameters, which are identifiers, stands the replacement. -/
theorem parameters_eq_ok
    (h : parameters last done variadic expecting ts = .ok (shape, replacement)) :
    replacement <:+ ts ∧ ∀ p ∈ shape.parameters, p ∈ done ∨ ∃ t ∈ ts, t.isIdentifier = true
    ∧ t.spelling = p := by
  fun_induction parameters last done variadic expecting ts with
  | case1 | case2 | case4 | case6 | case9 | case10 | case12 => cases h
  | case3 done variadic expecting t ts =>
      cases h
      exact ⟨List.suffix_cons t _, fun p hp => .inl hp⟩
  | case5 done variadic t ts hClose hMore hEllipsis ih
  | case11 done variadic expecting t ts hClose hMore hNext hComma ih =>
      obtain ⟨hSuffix, hNames⟩ := ih h
      refine ⟨hSuffix.trans (List.suffix_cons t ts), fun p hp => (hNames p hp).imp_right ?_⟩
      rintro ⟨u, hu, hName⟩
      exact ⟨u, List.mem_cons_of_mem t hu, hName⟩
  | case7 done variadic t hClose hMore hName hIdentifier hNew e ts hEllipsis ih
  | case8 done variadic t hClose hMore hName hIdentifier hNew e ts hEllipsis ih =>
      obtain ⟨hSuffix, hNames⟩ := ih h
      refine ⟨hSuffix.trans ?_, fun p hp => ?_⟩
      · simp [List.suffix_cons_iff]
      · rcases hNames p hp with hDone | ⟨u, hu, hBoth⟩
        · rcases List.mem_append.mp hDone with hDone | hLast
          · exact .inl hDone
          · exact .inr ⟨t, List.mem_cons_self, hIdentifier, (List.mem_singleton.mp hLast).symm⟩
        · exact .inr ⟨u, by simp_all, hBoth⟩

theorem split_suffix (first : Token) (rest : List Token) : (split (first :: rest)).2 <:+ rest := by
  unfold split
  split
  · rename_i next others hRest
    obtain rfl : rest = next :: others := hRest
    split
    · exact List.suffix_cons next others
    · exact List.suffix_rfl
  · exact List.nil_suffix

/-- The replacement of a definition is the end of its line, and its parameters are identifiers of
the line. -/
theorem replacement_suffix (h : define? first rest = .ok d) :
    d.replacement <:+ rest ∧ ∀ p ∈ d.shape.parameters, ∃ t ∈ rest, t.isIdentifier = true
    ∧ t.spelling = p := by
  have hSplit := split_suffix first rest
  unfold define? at h
  dsimp only at h
  split at h
  · cases h
  rename_i t ts hBody
  rw [hBody] at hSplit
  have hts : ts <:+ rest := (List.suffix_cons t ts).trans hSplit
  split at h
  · cases h
  split at h
  · cases h
  split at h
  · rename_i open_ inner
    have hInner : inner <:+ rest := (List.suffix_cons open_ inner).trans hts
    split at h
    · obtain ⟨⟨shape, replacement⟩, hParameters, rfl⟩ := Except.map_eq_ok_iff.mp h
      obtain ⟨hSuffix, hNames⟩ := parameters_eq_ok hParameters
      refine ⟨hSuffix.trans hInner, fun p hp => ?_⟩
      obtain ⟨u, hu, hBoth⟩ := (hNames p hp).resolve_left (by simp)
      exact ⟨u, hInner.subset hu, hBoth⟩
    · cases h
      exact ⟨hts, by simp [Shape.parameters]⟩
  · cases h
    exact ⟨List.nil_suffix, by simp [Shape.parameters]⟩

end Directive

theorem Directive.define?_of_ofLine? {keyword : String} {first : Token} {rest : List Token}
    {d : Definition} (h : ofLine? keyword first rest = some (.ok (.define d))) :
    define? first rest = .ok d := by
  unfold ofLine? at h
  split at h
  · rw [Option.some.injEq, Except.map_eq_ok_iff] at h
    obtain ⟨definition, hDefinition, hSame⟩ := h
    cases hSame
    exact hDefinition
  split at h
  · rw [Option.some.injEq, Except.map_eq_ok_iff] at h
    obtain ⟨name, -, hOther⟩ := h
    cases hOther
  · cases h

theorem lexeme_ne_nil {path : String} {p : Cursor} {start spaced : Bool} {text : Text}
    {tokens : List Token} (h : Lexed path p start spaced text tokens) :
    ∀ t ∈ tokens, t.isIdentifier = true → t.lexeme ≠ [] := by
  induction h with
  | done => simp
  | lineEnd _ ih | blank _ _ ih => exact ih
  | token hFirst _ ih =>
      refine List.forall_mem_cons.mpr ⟨fun hIdentifier => ?_, ih⟩
      rw [isIdentifier, beq_iff_eq] at hIdentifier
      dsimp only at hIdentifier ⊢
      rw [hIdentifier]
      exact ne_nil_of_first hFirst

/-- An identifier is spelled with word characters. -/
theorem of_isIdentifier {path : String} {text : Text} {tokens : List Token}
    (hTokens : Token.ofText path text = .ok tokens) {t : Token} (ht : t ∈ tokens)
    (hIdentifier : t.isIdentifier = true) : Text.ofString t.spelling = t.lexeme
      ∧ (∀ c ∈ t.lexeme, isWord c = true) ∧ (∀ c ∈ t.spelling.toList, Unicode.isWord c = true)
      ∧ t.spelling ≠ "" := by
  have hWords : ∀ c ∈ t.lexeme, isWord c = true := Token.isWord_of_mem_lexeme hTokens ht hIdentifier
  have hNe := lexeme_ne_nil (lexed_of_ofTextAt hTokens) t ht hIdentifier
  have hChars : ∃ cs : List Char, t.lexeme = cs.map .char := by
    generalize t.lexeme = x at hWords
    induction x with
    | nil => exact ⟨[], rfl⟩
    | cons c x ih =>
        obtain ⟨hc, hx⟩ := List.forall_mem_cons.mp hWords
        obtain ⟨cs, rfl⟩ := ih hx
        cases c with
        | char c => exact ⟨c :: cs, rfl⟩
        | byte b => cases hc
  obtain ⟨cs, hcs⟩ := hChars
  have hSpelling : t.spelling = String.ofList cs := by
    rw [spelling, Text.display, hcs, List.flatMap_map]
    simp [SourceChar.display]
  rw [hSpelling, Text.ofString, String.toList_ofList, ← hcs]
  rw [hcs] at hWords hNe
  refine ⟨rfl, hcs ▸ hWords, fun c hc => hWords _ (List.mem_map_of_mem hc), fun hEmpty => hNe ?_⟩
  rw [show cs = [] by simpa using congrArg String.toList hEmpty]
  rfl

theorem isQuiet_spelling {path : String} {text : Text} {tokens : List Token}
    (hTokens : Token.ofText path text = .ok tokens) {t : Token} (ht : t ∈ tokens)
    (hIdentifier : t.isIdentifier = true) : (Text.ofString t.spelling).IsQuiet := by
  obtain ⟨hText, hWords, -⟩ := of_isIdentifier hTokens ht hIdentifier
  rw [hText]
  exact Text.isQuiet_of_isWord hWords

namespace CompilationUnit

variable {u : CompilationUnit} {path : String} {text : Text} {tokens : List Token} {e : Event}
  {d : Definition}

/-- A macro directive stands on a logical line of the text. -/
theorem exists_directive_line (hRead : read path text none = .ok u)
    (hTokens : Token.ofText path text = .ok tokens) (he : e ∈ u.events) :
    ∃ t ts, t :: ts ∈ logicalLines tokens ∧ t.isPunct "#" = true
      ∧ Directive.ofLine? (Directive.split (t :: ts)).1 t ts = some (.ok e.directive) := by
  obtain ⟨l, hl, keyword, unresolved, hRole, -⟩ := exists_line_of_mem_events he
  have hLine := mem_of_mem_numbered hl
  have hSpells := (written_of_mem_lines hRead hLine).role
  rw [hRole] at hSpells
  cases hSpells with
  | change hPunct hOfLine => exact ⟨_, _, mem_logicalLines hRead hTokens hLine, hPunct, hOfLine⟩

/-- The text of a replacement can be read again, if its tokens can be written elsewhere. -/
theorem isClosed_text (hRead : read path text none = .ok u)
    (hTokens : Token.ofText path text = .ok tokens) (he : e ∈ u.events)
    (hDefine : e.directive = .define d) (hMovable : ∀ t ∈ d.replacement, t.IsMovable) :
    d.text.IsClosed := by
  obtain ⟨t, ts, hLine, -, hOfLine⟩ := exists_directive_line hRead hTokens he
  rw [hDefine] at hOfLine
  obtain ⟨front, hFront⟩ := (Directive.replacement_suffix (Directive.define?_of_ofLine? hOfLine)).1
  obtain ⟨before, _, _, after, hSame, rfl, hContinues⟩ := Token.exists_of_mem_logicalLines hLine
  obtain ⟨rfl, rfl⟩ := List.cons.inj hSame
  -- The line comes to its replacement behind a token, from where on the text is read as a text of
  -- its own.
  have hLexed := lexed_of_ofTextAt hTokens
  have hParts : before ++ t :: (ts ++ after) = (before ++ t :: front)
      ++ (d.replacement ++ after) := by
    simp [← hFront]
  obtain ⟨x, xs, hxs⟩ := List.exists_cons_of_ne_nil (l := before ++ t :: front) (by simp)
  rw [hParts, hxs] at hLexed
  obtain ⟨_, rest, _, hBehind, -⟩ := hLexed.exists_behind
  intro r hBound
  exact Passes.of_render hBehind
    (fun v hv => hContinues v (by rw [← hFront]; exact List.mem_append_right _ hv)) hMovable hBound

end CompilationUnit

end Demacro
