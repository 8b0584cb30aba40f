import Demacro.Proofs.Rewriting.Attachment
import Demacro.Proofs.Rewriting.Payloads
import Demacro.Proofs.Scopes.Qualifiers
import Demacro.Proofs.Uses.Partition

/-!
The edits of a proposal in a unit of one text. Each of them gives up a directive, respells a name,
or inserts lines of code behind a statement, provided that what stands for the macro can be written
elsewhere.
-/

namespace Demacro

open Piece Token

/-- The text can be written as a name: it starts like a word, and holds no quotation mark, comment,
splice or line end. -/
def Text.IsName (v : Text) : Prop :=
  v.IsQuiet ∧ ∃ c ∈ v.head?, isWord c = true

instance (v : Text) : Decidable v.IsName :=
  inferInstanceAs (Decidable (_ ∧ _))

/-- What stands for a macro can be written elsewhere: no quotation mark stands alone in its
replacement, and the classes and namespaces around it have names. -/
structure Analysis.Movable (a : Analysis) (name : String) : Prop where
  literals : ∀ d ∈ (MacroTable.ofEvents a.unit.events).liveDefinitions name, ∀ t ∈ d.replacement,
    ¬t.IsStray
  scopes : ∀ c ∈ a.classifications, c.name = name → ∀ context ∈ c.context, ∀ n ∈ context.scopePath,
    (Text.ofString n).IsName

instance (t : Token) : Decidable t.IsStray :=
  inferInstanceAs (Decidable (_ ∧ _))

instance (a : Analysis) (name : String) : Decidable (a.Movable name) :=
  decidable_of_iff (_ ∧ _) ⟨fun h => ⟨h.1, h.2⟩, fun h => ⟨h.literals, h.scopes⟩⟩

namespace Text

variable {v s : Text} {name : String}

/-- A name in front of another one, with a mark between them. -/
theorem IsName.append (hv : v.IsName) (hs : s.IsQuiet) : (v ++ s).IsName :=
  ⟨hv.1.append hs, exists_head_append hv.2 s⟩

theorem isName_intercalate {s : String} {names : List String} (hs : (ofString s).IsQuiet)
    (h : ∀ name ∈ names, (ofString name).IsName) (hNe : names ≠ []) :
    (ofString (s.intercalate names)).IsName := by
  refine ⟨isQuiet_intercalate hs fun name hName => (h name hName).1, ?_⟩
  obtain ⟨name, others, rfl⟩ := List.exists_cons_of_ne_nil hNe
  have hHead := (h name List.mem_cons_self).2
  cases others with
  | nil => rwa [String.intercalate_singleton]
  | cons next others =>
      rw [String.intercalate_cons_cons, ofString_append, ofString_append]
      exact exists_head_append (exists_head_append hHead _) _

theorem isName_camelCase (hWords : ∀ c ∈ name.toList, Unicode.isWord c = true) (hNe : name ≠ "") :
    (ofString (camelCase name)).IsName := by
  obtain ⟨⟨c, hc, hWord⟩, hQuiet⟩ := of_camelCase hWords hNe
  refine ⟨isQuiet_ofString.mpr hQuiet, .char c, ?_, hWord⟩
  rw [ofString, List.head?_map, Option.mem_def.mp hc]
  rfl

end Text

/-- Uses are qualified by names of the scopes around the definition. -/
theorem Survey.Outcome.isName_of_mem_qualified {s : Survey} {name : String} {c : Classification}
    (h : s.Outcome name c)
    (hScope : ∀ context ∈ c.context, ∀ n ∈ context.scopePath, (Text.ofString n).IsName) :
    ∀ q ∈ c.qualified, (Text.ofString q.qualifier).IsName := by
  intro q hq
  obtain ⟨d, hContext, -, frame, -, hOutside⟩ := h.of_mem_qualified hq
  obtain ⟨hQualifier, hNe⟩ := of_outsideUse hOutside
  obtain ⟨shared, -, hNames, -⟩ :=
    behindCommon_spec (s.scopes.contextOf d).scopePath q.usage.context.scopePath
  rw [hQualifier] at hNe ⊢
  refine Text.isName_intercalate (by decide) (fun n hn => hScope _ hContext n ?_) ?_
  · rw [hNames]
    exact List.mem_append_right shared hn
  · rintro hNone
    rw [hNone] at hNe
    exact hNe rfl

/-- A macro that becomes a function has arguments. -/
theorem Survey.Outcome.isFunction_of_functionLikeMacro {s : Survey} {name : String}
    {c : Classification} {d : ActiveSpan} (h : s.Outcome name c)
    (hConfidence : c.confidence ≠ .blocked) (hSubject : s.subject name = .ok d)
    (hPattern : c.pattern = .functionLikeMacro) : d.definition.shape.isFunction = true := by
  cases h with
  | unsuitable | rejected => exact absurd rfl hConfidence
  | constant =>
      have hConstant := hPattern ▸ pattern_constantMacro _ _
      exact absurd hConstant (by decide)
  | function hOther hShape =>
      cases hSubject.symm.trans hOther
      exact hShape

/-- Neither of the two operators of macros is in a replacement that is looked at. -/
theorem Survey.of_tokenRefusal?_eq_none {s : Survey} {d : Definition}
    (h : s.tokenRefusal? d = none) :
    (∀ t ∈ d.replacement, t.isPunct "##" = false) ∧ ∀ t ∈ d.replacement, t.isPunct "#" = false := by
  unfold tokenRefusal? at h
  split at h
  · cases h
  split at h
  · cases h
  rename_i hPasting
  split at h
  · cases h
  rename_i hHash
  simp only [List.any_eq_true, not_exists, not_and, Bool.not_eq_true] at hPasting hHash
  exact ⟨hPasting, hHash⟩

namespace CompilationUnit

variable {u : CompilationUnit} {path : String} {text : Text} {tokens : List Token} {e : Event}
  {t : PlacedToken} {x : Edit}

section

variable (hRead : read path text none = .ok u) (hTokens : Token.ofText path text = .ok tokens)

include hRead hTokens

/-- The name that is defined is an identifier of the text. -/
theorem exists_identifier (he : e ∈ u.events) (hDefine : e.directive.isDefine = true) :
    ∃ v ∈ tokens, v.isIdentifier = true ∧ v.spelling = e.directive.name := by
  obtain ⟨f, rest, hLine, -, hOfLine⟩ := exists_directive_line hRead hTokens he
  obtain ⟨v, hv, hBoth⟩ := Directive.exists_name_of_ofLine? hOfLine hDefine
  exact ⟨v, mem_of_mem_logicalLines hLine (List.mem_cons_of_mem f hv), hBoth⟩

/-- Directives stand in the file. -/
theorem path_of_mem_events (he : e ∈ u.events) : e.directive.span.path = path := by
  obtain ⟨f, rest, hLine, -, hOfLine⟩ := exists_directive_line hRead hTokens he
  rw [(Directive.ofLine?_eq_ok hOfLine).1]
  exact ((pairwise_of_ofTextAt hTokens).1 f (mem_of_mem_logicalLines hLine List.mem_cons_self)).1

/-- The names of the parameters of a definition are quiet. -/
theorem isQuiet_parameters {d : Definition} (he : e ∈ u.events)
    (hDefine : e.directive = .define d) : ∀ p ∈ d.shape.parameters, (Text.ofString p).IsQuiet := by
  intro p hp
  obtain ⟨f, rest, hLine, -, hOfLine⟩ := exists_directive_line hRead hTokens he
  rw [hDefine] at hOfLine
  obtain ⟨v, hv, hIdentifier, rfl⟩ :=
    (Directive.replacement_suffix (Directive.define?_of_ofLine? hOfLine)).2 p hp
  exact isQuiet_spelling hTokens (mem_of_mem_logicalLines hLine (List.mem_cons_of_mem f hv))
    hIdentifier

theorem attached_directive (he : e ∈ u.events)
    (hExtent : x.toExtent = Proposal.extentOf e.directive.span)
    (hText : x.text = [] ∨ x.text.IsCode) : x.Attached tokens tokens (.line true) := by
  obtain ⟨f, rest, hLine, hHash, hOfLine⟩ := exists_directive_line hRead hTokens he
  rw [(Directive.ofLine?_eq_ok hOfLine).1] at hExtent
  rw [← (takeWhile_continues (head_of_ofTextAt hTokens rfl)).2] at hLine
  exact .directive hLine hHash (by rw [hExtent]; rfl) (by rw [hExtent]; rfl) hText

/-- A token of the code stands on a line that is no directive. -/
theorem isCode_of_mem_codeTokens (ht : t ∈ u.codeTokens) :
    (Mode.line true).IsCode tokens t.toToken := by
  obtain ⟨line, hLine, hPlain, ht⟩ := exists_plain_line hRead hTokens ht
  rw [← (takeWhile_continues (head_of_ofTextAt hTokens rfl)).2] at hLine
  exact Mode.isCode_of_line hLine hPlain ht

theorem toToken_mem (ht : t ∈ u.codeTokens) : t.toToken ∈ tokens := by
  rw [← tokens_eq hRead hTokens]
  exact List.mem_map_of_mem (mem_tokens_of_mem_codeTokens ht)

end

end CompilationUnit

namespace Proposal

variable {parse : List UInt8 → SyntaxNode} {settings : Settings} {u : CompilationUnit}
  {path : String} {text : Text} {tokens : List Token} {c : Classification} {d : ActiveSpan}
  {declaration : Declaration} {p : Proposal} {x : Edit} {w : Usage}

section

variable (hRead : CompilationUnit.read path text none = .ok u)
  (hTokens : Token.ofText path text = .ok tokens)

include hRead hTokens

/-- A use is respelled with the name of the declaration, behind a qualifier if it needs one. -/
theorem respells_spelling (hw : w.token ∈ u.codeTokens) (hIdentifier : w.token.isIdentifier = true)
    (hName : w.token.spelling = c.name)
    (hQualified : ∀ q ∈ c.qualified, (Text.ofString q.qualifier).IsName) {newName : String}
    (hNew : newName = c.name ∨ newName = camelCase c.name
      ∧ ∀ v, [w.token.toToken, v] <:+: tokens → v.isPunct "(" = true ∨ v.atLineStart = true)
    (hChanged : spelling c newName w ≠ w.token.spelling) :
    Respells tokens w.token.toToken (Text.ofString (spelling c newName w)) := by
  obtain ⟨hLexeme, -, hWords, hNe⟩ :=
    of_isIdentifier hTokens (CompilationUnit.toToken_mem hRead hTokens hw) hIdentifier
  change Text.ofString w.token.spelling = _ at hLexeme
  rcases hNew with rfl | ⟨rfl, hNext⟩
  · unfold spelling at hChanged ⊢
    split
    · rename_i q hFound
      have hFront := (hQualified q (List.mem_of_find?_eq_some hFound)).append (s :=
        Text.ofString "::") (by decide)
      rw [Text.ofString_append, Text.ofString_append, ← hName, hLexeme]
      refine .qualified hFront.1.isPlain hFront.2 ?_
      simp [Text.ofString]
    · rename_i hNone
      rw [hNone] at hChanged
      exact absurd hName.symm hChanged
  · change ∀ c ∈ w.token.spelling.toList, _ at hWords
    have hCamel := Text.isName_camelCase hWords hNe
    change (Text.ofString (camelCase w.token.spelling)).IsName at hCamel
    rw [hName] at hCamel
    have hSpelled : (Text.ofString (spelling c (camelCase c.name) w)).IsName := by
      unfold spelling
      split
      · rename_i q hFound
        rw [Text.ofString_append, Text.ofString_append, List.append_assoc]
        exact (hQualified q (List.mem_of_find?_eq_some hFound)).append
          (Text.IsQuiet.append (by decide) hCamel.1)
      · exact hCamel
    refine .renamed hSpelled.1.isPlain hSpelled.2 (fun a ha => ?_) hNext
    exact hSpelled.1.satisfies_eq_false (List.mem_of_getLast? ha) (by decide)

end

namespace IsMadeFor

variable {d : ActiveSpan}

section

variable (h : p.IsMadeFor settings (Survey.ofUnit parse settings u) u c d declaration)
  (hOutcome : (Survey.ofUnit parse settings u).Outcome c.name c)

include h hOutcome

/-- A function stands for a macro with arguments, and so do its uses. -/
theorem isFunction_of_mem_usages (hPattern : c.pattern = .functionLikeMacro) (hw : w ∈ c.usages) :
    .usage w ∈ Occurrence.all (Survey.ofUnit parse settings u).table
      (Survey.ofUnit parse settings u).scopes
        (UsageIndex.liveCode u)
      ∧ w.definition.definition.shape.isFunction = true := by
  obtain ⟨_, -, -, hUsages, -⟩ := hOutcome.of_ne_blocked h.confidence
  rw [hUsages] at hw
  obtain ⟨hUsage, hName⟩ := UsageIndex.mem_usages.mp hw
  refine ⟨hUsage, ?_⟩
  obtain ⟨_, _, -, hAt⟩ := Occurrence.exists_at?_of_mem_all hUsage
  have hActive := (Occurrence.of_at?_eq_usage hAt).2.1
  change MacroTable.activeAt? _ w.token.spelling w.token.position = _ at hActive
  rw [hName] at hActive
  have hLive := MacroTable.mem_liveDefinitions_of_activeAt?
    (MacroTable.positions_of_inOrder (CompilationUnit.events_inOrder u)) hActive
  obtain ⟨hDefinition, hReach⟩ := Survey.mem_definitions_of_subject h.subject
  have hSame := MacroTable.signature_eq_of_not_isAmbiguous (Survey.subject_eq_ok h.subject).1 hLive
    (MacroTable.mem_liveDefinitions_iff_exists_span.mpr ⟨d, hDefinition, rfl, hReach⟩)
  rw [show w.definition.definition.shape = d.definition.shape from congrArg Prod.fst hSame]
  exact hOutcome.isFunction_of_functionLikeMacro h.confidence h.subject hPattern

end

section

variable (hRead : CompilationUnit.read path text none = .ok u)
  (hTokens : Token.ofText path text = .ok tokens)
  (h : p.IsMadeFor settings (Survey.ofUnit parse settings u) u c d declaration)

include hRead hTokens h

theorem of_name : (∀ a ∈ c.name.toList, Unicode.isWord a = true) ∧ c.name ≠ "" := by
  obtain ⟨hName, e, he, hDefine, -⟩ := Survey.exists_event_of_subject h.subject
  obtain ⟨v, hv, hIdentifier, hSpelling⟩ := CompilationUnit.exists_identifier hRead hTokens he
    (by rw [hDefine]; rfl)
  rw [hDefine] at hSpelling
  rw [← hName, ← show v.spelling = d.definition.name from hSpelling]
  exact (of_isIdentifier hTokens hv hIdentifier).2.2

/-- The definition stands in the file. -/
theorem path_eq : d.definition.span.path = path := by
  obtain ⟨-, e, he, hDefine, -⟩ := Survey.exists_event_of_subject h.subject
  have hPath := CompilationUnit.path_of_mem_events hRead hTokens he
  rw [hDefine] at hPath
  exact hPath

theorem isQuiet_name : (Text.ofString c.name).IsQuiet := by
  have hWords := (h.of_name hRead hTokens).1
  exact Text.isQuiet_of_isWord (by simpa [Text.ofString, isWord, SourceChar.satisfies] using hWords)

theorem isClosed_text (hLiterals : ∀ d ∈ (MacroTable.ofEvents u.events).liveDefinitions c.name,
    ∀ t ∈ d.replacement, ¬t.IsStray) : d.definition.text.IsClosed := by
  obtain ⟨hName, e, he, hDefine, -⟩ := Survey.exists_event_of_subject h.subject
  obtain ⟨hDefinition, hReach⟩ := Survey.mem_definitions_of_subject h.subject
  obtain ⟨hPasting, hHash⟩ := Survey.of_tokenRefusal?_eq_none (Survey.subject_eq_ok h.subject).2.2.2
  exact CompilationUnit.isClosed_text hRead hTokens he hDefine fun t ht =>
    { stray :=
        hLiterals _
          (MacroTable.mem_liveDefinitions_iff_exists_span.mpr ⟨d, hDefinition, rfl, hReach⟩) t ht
      hash := hHash t ht
      pasting := hPasting t ht }

variable (hOutcome : (Survey.ofUnit parse settings u).Outcome c.name c)
  (hClosed : d.definition.text.IsClosed)
  (hScopes : ∀ context ∈ c.context, ∀ n ∈ context.scopePath, (Text.ofString n).IsName)

include hOutcome

theorem gives : ∀ payload ∈ c.payload, payload.Gives d.definition.text := by
  obtain ⟨-, e, he, hDefine, -⟩ := Survey.exists_event_of_subject h.subject
  exact hOutcome.gives h.subject (CompilationUnit.isQuiet_parameters hRead hTokens he hDefine)

include hScopes

/-- A use is respelled as a name. -/
theorem attached_usage (hx : x ∈ usageEdits p.id c declaration.name) :
    x.Attached tokens tokens (.line true) := by
  obtain ⟨w, hw, rfl⟩ := List.mem_map.mp hx
  obtain ⟨hw, hChanged⟩ := List.mem_filter.mp hw
  have hRests := Analysis.restsOn_of_isMadeFor h hOutcome
  obtain ⟨hCode, hName⟩ := hRests.used w hw
  have hIdentifier : w.token.isIdentifier = true := by
    obtain ⟨_, -, -, hUsages, -⟩ := hOutcome.of_ne_blocked h.confidence
    have hListed :=
      List.mem_map_of_mem (f := Occurrence.token) (UsageIndex.mem_usages.mp (hUsages ▸ hw)).1
    rw [show (Survey.ofUnit parse settings u).uses.occurrences.map Occurrence.token =
      _ from Occurrence.map_token_all] at hListed
    exact (Bool.and_eq_true_iff.mp (List.mem_filter.mp hListed).2).1
  refine .name (CompilationUnit.isCode_of_mem_codeTokens hRead hTokens hCode) hIdentifier rfl rfl ?_
  refine respells_spelling hRead hTokens hCode hIdentifier hName
    (hOutcome.isName_of_mem_qualified hScopes) ?_ (by simpa using hChanged)
  have hNewName := (Declaration.name_of_ofClassification h.declared).1
  split at hNewName
  · rename_i hFunction
    obtain ⟨hUsage, hShape⟩ := h.isFunction_of_mem_usages hOutcome hFunction.1 hw
    exact .inr ⟨hNewName, fun v hNext => CompilationUnit.isPunct_of_call hRead hTokens hUsage
      hShape hNext⟩
  · exact .inl hNewName

include hClosed

/-- The declaration takes the place of a directive. -/
theorem attached_declaration (hExtent : x.toExtent = extentOf d.definition.span)
    (hText : x.text = declaration.text) : x.Attached tokens tokens (.line true) := by
  obtain ⟨-, e, he, hDefine, -⟩ := Survey.exists_event_of_subject h.subject
  refine CompilationUnit.attached_directive hRead hTokens he (by rw [hExtent, hDefine]; rfl)
    (.inr ?_)
  obtain ⟨hWords, hNe⟩ := h.of_name hRead hTokens
  rw [hText]
  exact Declaration.isCode_ofClassification h.declared hWords hNe
    (fun context hContext n hn => (hScopes context hContext n hn).1)
    (h.gives hRead hTokens hOutcome) hClosed

/-- What defines a member goes behind its class. -/
theorem attached_outside (hOutside : declaration.outside = some x) (hAppend : x.isAppend = false) :
    x.Attached tokens tokens (.line true) := by
  have hRests := Analysis.restsOn_of_isMadeFor h hOutcome
  obtain ⟨-, -, hPlace⟩ := Declaration.of_outside_eq_some h.declared hOutside
  obtain ⟨-, -, context, frame, stop, hContext, hFrame, hStop, hExtent⟩ :=
      hPlace.resolve_left fun hEnd => by
    rw [hAppend] at hEnd
    cases hEnd.1
  have hMem := (List.mem_filter.mp (List.mem_of_head? hFrame)).1
  obtain ⟨t, ht, hSemicolon, -, hEnd⟩ := hRests.ends context hContext frame hMem stop hStop
  obtain ⟨v, hCode, hText⟩ := Declaration.isCode_of_mem_outside h.declared hOutside hAppend
    (h.isQuiet_name hRead hTokens)
    (fun context hContext n hn => (hScopes context hContext n hn).1)
    (h.gives hRead hTokens hOutcome) hClosed
  exact .inserted (CompilationUnit.isCode_of_mem_codeTokens hRead hTokens ht) hSemicolon
    (by rw [hExtent, hEnd]) (by rw [hExtent, hEnd]) hText hCode

/-- The edits of a proposal in the file are attached to the tokens of its text. -/
theorem attached
    (hCompanion : isHeader path = true → Path.withoutSuffix path ++ settings.companionSuffix ≠ path)
    (hx : x ∈ p.edits) (hPath : x.path = path) :
    x.isAppend = false ∧ x.Attached tokens tokens (.line true) := by
  have hRests := Analysis.restsOn_of_isMadeFor h hOutcome
  rw [h.eq] at hx
  simp only [ofDeclaration, List.mem_cons, List.mem_append, Option.mem_toList] at hx
  rcases hx with rfl | (hOutside | hDeleted) | hUsage
  · exact ⟨rfl, h.attached_declaration hRead hTokens hOutcome hClosed hScopes rfl rfl⟩
  · have hAppend : x.isAppend = false := by
      rcases (Declaration.of_outside_eq_some h.declared hOutside).2.2 with ⟨-, hHeader, hOther⟩
        | ⟨hKind, -⟩
      · rw [hPath, h.path_eq hRead hTokens] at hOther
        rw [h.path_eq hRead hTokens] at hHeader
        exact absurd hOther.symm (hCompanion hHeader)
      · exact hKind
    exact ⟨hAppend, h.attached_outside hRead hTokens hOutcome hClosed hScopes hOutside hAppend⟩
  · obtain ⟨e, he, rfl⟩ := List.mem_map.mp hDeleted
    obtain ⟨hMem, -⟩ := hRests.events e (mem_of_mem_otherSites (List.mem_filter.mp he).1)
    exact ⟨rfl, CompilationUnit.attached_directive hRead hTokens hMem rfl (.inl rfl)⟩
  · have hUsage : x ∈ usageEdits p.id c declaration.name := by
      rw [h.eq]
      exact hUsage
    refine ⟨?_, h.attached_usage hRead hTokens hOutcome hScopes hUsage⟩
    obtain ⟨w, -, rfl⟩ := List.mem_map.mp hUsage
    rfl

end

end IsMadeFor

end Proposal

end Demacro
