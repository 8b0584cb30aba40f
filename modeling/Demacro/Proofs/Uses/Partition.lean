import Demacro.Proofs.Spacing
import Demacro.Proofs.Uses
import Demacro.Proofs.Uses.Arguments

/-!
What is collected about the names of macros in compiled code. Each mention of a macro that is
defined is listed once, under its own name, and it is listed as a use exactly if the name expands
there: a definition is in force, and it takes no arguments or those of the list that follows.
-/

namespace Demacro

/-- The arguments are as many as the macro has parameters, and none is empty. A macro with an
ellipsis takes more of them and empty ones; one without parameters takes an empty list. -/
def Shape.Accepts (shape : Shape) (arguments : List (List PlacedToken)) : Prop :=
  if shape.isVariadic = true then shape.parameters.length ≤ arguments.length
  else if shape.parameters = [] then arguments = [[]]
  else arguments.length = shape.parameters.length ∧ [] ∉ arguments

namespace CompilationUnit

/-- Whether the name has a definition that is in no disabled branch. -/
def defines (u : CompilationUnit) (name : String) : Bool :=
  u.events.any fun e => e.directive.name == name && e.directive.isDefine
    && e.reachability != .disabled

/-- The identifiers in compiled code that are spelled like a macro that is defined. -/
def mentions (u : CompilationUnit) (name : String) : List PlacedToken :=
  (UsageIndex.liveCode u).filter fun t => t.spelling == name
    && (t.isIdentifier && u.defines t.spelling)

/-- The token is the name of a macro that expands: with the definition that the last directive about
the name in front of it gives, and with the arguments of the list behind it if the macro takes
some. -/
inductive Expands (u : CompilationUnit) (t : PlacedToken) (d : Definition) :
    List (List PlacedToken) → Prop
  | alone {e : Event} (decides : Event.Decides u.events t.spelling t.position e)
      (define : e.directive = .define d) (object : d.shape.isFunction = false) : Expands u t d []
  | called {e : Event} {before rest : List PlacedToken} {arguments : List (List PlacedToken)}
      {n : Nat}
      (decides : Event.Decides u.events t.spelling t.position e) (define : e.directive = .define d)
      (function : d.shape.isFunction = true) (split : UsageIndex.liveCode u = before ++ t :: rest)
      (starts : Arguments.Starts rest arguments n) (accepts : d.shape.Accepts arguments) :
      Expands u t d arguments

end CompilationUnit

theorem CompilationUnit.defines_iff {u : CompilationUnit} {name : String} :
    u.defines name = true ↔ (MacroTable.ofEvents u.events).liveDefinitions name ≠ [] := by
  simp only [defines, List.any_eq_true, Bool.and_eq_true, beq_iff_eq, bne_iff_ne]
  constructor
  · rintro ⟨e, he, ⟨hName, hDefine⟩, hLive⟩
    obtain ⟨d, hDirective⟩ := Directive.exists_of_isDefine hDefine
    rw [hDirective] at hName
    exact List.ne_nil_of_mem (MacroTable.mem_liveDefinitions_ofEvents.mpr
      ⟨e, he, hDirective, hName, hLive⟩)
  · intro hSome
    obtain ⟨d, hd⟩ := List.exists_mem_of_ne_nil _ hSome
    obtain ⟨e, he, hDirective, rfl, hLive⟩ := MacroTable.mem_liveDefinitions_ofEvents.mp hd
    exact ⟨e, he, ⟨by rw [hDirective]; rfl, by rw [hDirective]; rfl⟩, hLive⟩

namespace Arguments

variable {t : PlacedToken} {ts tokens : List PlacedToken} {arguments : List (List PlacedToken)}
  {n : Nat}

theorem Separated.ne_nil (h : Separated tokens arguments) : arguments ≠ [] := by
  cases h <;> exact List.cons_ne_nil _ _

theorem Starts.ne_nil (h : Starts tokens arguments n) : arguments ≠ [] := by
  obtain ⟨_, _, _, _, _, _, _, hSeparated, _⟩ := h
  exact hSeparated.ne_nil

theorem Starts.head (h : Starts tokens arguments n) :
    ∃ t ts, tokens = t :: ts ∧ t.isPunct "(" = true := by
  obtain ⟨opening, inside, closing, rest, rfl, isOpen, _⟩ := h
  exact ⟨opening, inside ++ closing :: rest, rfl, isOpen⟩

end Arguments

namespace Occurrence

variable {u : CompilationUnit} {table : MacroTable} {scopes : UnitScopes} {t : PlacedToken}
  {rest tokens : List PlacedToken} {shape : Shape} {d : Definition}
  {arguments : List (List PlacedToken)} {s : ActiveSpan}

/-- There is nothing wrong with exactly the arguments that the macro accepts. -/
theorem callFault?_eq_none_iff (hNe : arguments ≠ []) :
    callFault? shape arguments = none ↔ shape.Accepts arguments := by
  unfold callFault? Shape.Accepts
  have hPositive : arguments.length ≠ 0 := by simpa using hNe
  by_cases hVariadic : shape.isVariadic = true
  · by_cases hFew : arguments.length < shape.parameters.length
    · have hSome : shape.parameters.length ≠ 0 := by omega
      simp [hVariadic, hFew, hSome]
    · simp [hVariadic, hFew, Nat.le_of_not_lt hFew]
  · by_cases hNone : shape.parameters = []
    · by_cases hList : arguments = [[]]
      · simp [hVariadic, hNone, hList]
      · simp [hVariadic, hNone, hList, hPositive]
    · by_cases hCount : arguments.length = shape.parameters.length <;>
        simp [hVariadic, hNone, hCount]

/-- What is listed at a token is listed as a use exactly if the macro in force takes no arguments,
or those of the list that follows. -/
theorem at?_eq_usage_iff (scopes : UnitScopes) (hIdentifier : t.isIdentifier = true)
    (hContains : table.contains t.spelling = true)
    (hActive : table.activeAt? t.spelling t.position = some s) :
    (∃ w, at? table scopes t rest = some (usage w) ∧ w.definition.definition = d
      ∧ w.arguments = arguments)
      ↔ s.definition = d ∧ (d.shape.isFunction = false ∧ arguments = []
        ∨ d.shape.isFunction = true ∧ d.shape.Accepts arguments
        ∧ ∃ n, Arguments.Starts rest arguments n) := by
  unfold at?
  simp only [hIdentifier, hContains, hActive, Bool.not_true, Bool.or_self, Bool.false_eq_true,
    if_false]
  by_cases hFunction : s.definition.shape.isFunction = true
  case neg =>
    simp only [hFunction, Bool.not_false, if_true]
    constructor
    · rintro ⟨w, hw, hDefinition, hArguments⟩
      cases hw
      obtain rfl : s.definition = d := hDefinition
      obtain rfl : [] = arguments := hArguments
      exact ⟨rfl, .inl ⟨by simpa using hFunction, rfl⟩⟩
    · rintro ⟨rfl, ⟨-, rfl⟩ | ⟨hOther, -⟩⟩
      · exact ⟨_, rfl, rfl, rfl⟩
      · exact absurd hOther hFunction
  simp only [hFunction, Bool.not_true, Bool.false_eq_true, if_false]
  by_cases hOpen : rest.head?.any (·.isPunct "(") = true
  case neg =>
    simp only [hOpen, Bool.not_false, if_true]
    constructor
    · rintro ⟨w, hw, -⟩
      cases hw
    · rintro ⟨rfl, ⟨hOther, -⟩ | ⟨-, -, n, hStarts⟩⟩
      · rw [hFunction] at hOther
        cases hOther
      · obtain ⟨v, vs, rfl, hv⟩ := hStarts.head
        exact absurd hv (by simpa using hOpen)
  obtain ⟨v, hHead, hv⟩ := (Option.any_eq_true _ _).mp hOpen
  obtain ⟨vs, rfl⟩ := List.head?_eq_some_iff.mp hHead
  simp only [hOpen, Bool.not_true, Bool.false_eq_true, if_false]
  constructor
  · rintro ⟨w, hw, hDefinition, hArguments⟩
    split at hw
    · cases hw
    rename_i found n hSplit
    split at hw
    · cases hw
    rename_i hFits
    cases hw
    obtain rfl : s.definition = d := hDefinition
    obtain rfl : found = arguments := hArguments
    have hStarts := (Arguments.split?_eq_some_iff hv).mp hSplit
    exact ⟨rfl, .inr ⟨hFunction, (callFault?_eq_none_iff hStarts.ne_nil).mp hFits, n, hStarts⟩⟩
  · rintro ⟨rfl, ⟨hOther, -⟩ | ⟨-, hAccepts, n, hStarts⟩⟩
    · rw [hFunction] at hOther
      cases hOther
    · simp only [(Arguments.split?_eq_some_iff hv).mpr hStarts,
        (callFault?_eq_none_iff hStarts.ne_nil).mpr hAccepts]
      exact ⟨_, rfl, rfl, rfl⟩

/-- Something is listed at exactly the identifiers that are spelled like a macro that is defined. -/
theorem isSome_at?_iff : (at? (MacroTable.ofEvents u.events) scopes t rest).isSome = true
    ↔ (t.isIdentifier && u.defines t.spelling) = true := by
  rw [Bool.and_eq_true, CompilationUnit.defines_iff]
  constructor
  · intro h
    obtain ⟨o, ho⟩ := Option.isSome_iff_exists.mp h
    unfold at? at ho
    dsimp only at ho
    split at ho
    · cases ho
    rename_i hNamed
    simp only [Bool.or_eq_true, Bool.not_eq_true', not_or, Bool.not_eq_false] at hNamed
    refine ⟨hNamed.1, ?_⟩
    split at ho
    · split at ho
      · cases ho
      · rename_i hLive
        simpa using hLive
    · rename_i s hActive
      exact List.ne_nil_of_mem (MacroTable.mem_liveDefinitions_of_activeAt?
        (MacroTable.positions_of_inOrder (CompilationUnit.events_inOrder u)) hActive)
  · rintro ⟨hIdentifier, hLive⟩
    obtain ⟨d, hd⟩ := List.exists_mem_of_ne_nil _ hLive
    obtain ⟨o, ho⟩ := exists_at? scopes rest hIdentifier
      (MacroTable.contains_of_mem_names (MacroTable.mem_names_of_mem_liveDefinitions hd)) hLive
    exact Option.isSome_iff_exists.mpr ⟨o, ho⟩

/-- What is listed are these identifiers, in their order. -/
theorem map_token_all : (all (MacroTable.ofEvents u.events) scopes tokens).map token
    = tokens.filter fun t => t.isIdentifier && u.defines t.spelling := by
  induction tokens with
  | nil => rfl
  | cons t ts ih =>
      have hSome := @isSome_at?_iff u scopes t ts
      rw [all, List.map_append, ih]
      cases hAt : at? (MacroTable.ofEvents u.events) scopes t ts with
      | none =>
          rw [List.filter_cons_of_neg]
          · rfl
          · rw [← hSome, hAt]
            exact Bool.false_ne_true
      | some o =>
          rw [List.filter_cons_of_pos]
          · simp [token_of_at? hAt]
          · rw [← hSome, hAt]
            rfl

end Occurrence

namespace UsageIndex

variable {x : UsageIndex} {name : String} {u : CompilationUnit} {scopes : UnitScopes}
  {t : PlacedToken} {d : Definition} {arguments : List (List PlacedToken)}

/-- The tokens that are listed under a name: those of its uses, and those where it does not
expand. -/
def listed (x : UsageIndex) (name : String) : List PlacedToken :=
  (x.usages name).map Usage.token ++ (x.strays name).map Prod.fst
    ++ (x.unresolved name).map Prod.fst

/-- Each occurrence is in one of the three lists of its name. -/
theorem listed_perm (x : UsageIndex) (name : String) :
    (x.listed name).Perm ((x.occurrences.map Occurrence.token).filter (·.spelling == name)) := by
  obtain ⟨occurrences, tests⟩ := x
  induction occurrences with
  | nil => exact .nil
  | cons o os ih =>
      simp only [listed, usages, strays, unresolved] at ih ⊢
      cases o with
      | usage w =>
          by_cases hName : w.token.spelling = name <;> simpa [Occurrence.token, hName] using ih
      | stray v reason =>
          by_cases hName : v.spelling = name
          · rw [List.append_assoc] at ih
            simpa [Occurrence.token, hName] using List.perm_middle.trans (ih.cons v)
          · simpa [Occurrence.token, hName] using ih
      | unresolved v fault =>
          by_cases hName : v.spelling = name
          · simpa [Occurrence.token, hName] using List.perm_middle.trans (ih.cons v)
          · simpa [Occurrence.token, hName] using ih

/-- What is collected about the names of macros says of each mention once what it is. -/
structure Partitions (x : UsageIndex) (u : CompilationUnit) : Prop where
  /-- Under each name its mentions are listed, and nothing else. -/
  once : ∀ name, (x.listed name).Perm (u.mentions name)
  apart : ∀ name, (u.mentions name).Nodup
  /-- A mention is listed as a use of a definition with arguments exactly if it expands to them. -/
  expands : ∀ name, ∀ t ∈ u.mentions name, ∀ d arguments,
    (∃ w ∈ x.usages name, w.token = t ∧ w.definition.definition = d ∧ w.arguments = arguments)
      ↔ u.Expands t d arguments

theorem mem_mentions : t ∈ u.mentions name
    ↔ t ∈ liveCode u ∧ t.spelling = name ∧ t.isIdentifier = true ∧ u.defines t.spelling = true := by
  simp [CompilationUnit.mentions, List.mem_filter]

/-- A macro is used where it expands, in the way it expands. -/
theorem exists_usage_iff_expands (ht : t ∈ u.mentions name) :
    (∃ w ∈ (ofUnit u (MacroTable.ofEvents u.events) scopes).usages name,
        w.token = t ∧ w.definition.definition = d ∧ w.arguments = arguments) ↔
        u.Expands t d arguments := by
  obtain ⟨hCode, rfl, hIdentifier, hDefines⟩ := mem_mentions.mp ht
  have hContains : (MacroTable.ofEvents u.events).contains t.spelling = true := by
    obtain ⟨d, hd⟩ := List.exists_mem_of_ne_nil _ (CompilationUnit.defines_iff.mp hDefines)
    exact MacroTable.contains_of_mem_names (MacroTable.mem_names_of_mem_liveDefinitions hd)
  have hInForce := fun d => MacroTable.activeAt?_iff (d := d) (CompilationUnit.events_inOrder u)
    (CompilationUnit.outside_of_mem_codeTokens (List.mem_of_mem_filter hCode) t.spelling)
  constructor
  · rintro ⟨w, hw, rfl, rfl, rfl⟩
    obtain ⟨before, rest, hSplit, hAt⟩ := Occurrence.exists_at?_of_mem_all (mem_usages.mp hw).1
    have hActive := (Occurrence.of_at?_eq_usage hAt).2.1
    obtain ⟨e, hDecides, hDefine⟩ := (hInForce _).mp ⟨_, hActive, rfl⟩
    obtain ⟨-, ⟨hObject, hNone⟩ | ⟨hFunction, hAccepts, n, hStarts⟩⟩ :=
      (Occurrence.at?_eq_usage_iff scopes hIdentifier hContains hActive).mp ⟨w, hAt, rfl, rfl⟩
    · rw [hNone]
      exact .alone hDecides hDefine hObject
    · exact .called hDecides hDefine hFunction hSplit hStarts hAccepts
  · intro h
    -- What is listed at the token is in the index, whatever stands in front of it.
    have hListed : ∀ before rest, liveCode u = before ++ t :: rest → ∀ s,
        (MacroTable.ofEvents u.events).activeAt? t.spelling t.position = some s → s.definition = d →
        (d.shape.isFunction = false ∧ arguments = []
          ∨ d.shape.isFunction = true ∧ d.shape.Accepts arguments
          ∧ ∃ n, Arguments.Starts rest arguments n) →
        ∃ w ∈ (ofUnit u (MacroTable.ofEvents u.events) scopes).usages t.spelling,
          w.token = t ∧ w.definition.definition = d ∧ w.arguments = arguments := by
      intro before rest hSplit s hActive hDefinition hFits
      obtain ⟨w, hAt, hBoth⟩ := (Occurrence.at?_eq_usage_iff scopes hIdentifier hContains
        hActive).mpr ⟨hDefinition, hFits⟩
      have hToken : w.token = t := Occurrence.token_of_at? hAt
      refine ⟨w, mem_usages.mpr ⟨?_, by rw [hToken]⟩, hToken, hBoth⟩
      change _ ∈ Occurrence.all _ _ (liveCode u)
      rw [hSplit]
      exact Occurrence.mem_all_of_at? hAt
    cases h with
    | alone hDecides hDefine hObject =>
        obtain ⟨s, hActive, hDefinition⟩ := (hInForce d).mpr ⟨_, hDecides, hDefine⟩
        obtain ⟨before, rest, hSplit⟩ := List.append_of_mem hCode
        exact hListed before rest hSplit s hActive hDefinition (.inl ⟨hObject, rfl⟩)
    | called hDecides hDefine hFunction hSplit hStarts hAccepts =>
        obtain ⟨s, hActive, hDefinition⟩ := (hInForce d).mpr ⟨_, hDecides, hDefine⟩
        exact hListed _ _ hSplit s hActive hDefinition (.inr ⟨hFunction, hAccepts, _, hStarts⟩)

/-- The mentions of the macros of a unit are partitioned into uses and other occurrences. -/
theorem partitions_ofUnit (u : CompilationUnit) (scopes : UnitScopes) :
    (ofUnit u (MacroTable.ofEvents u.events) scopes).Partitions u := by
  constructor
  case once =>
    intro name
    have hTokens : (ofUnit u (MacroTable.ofEvents u.events) scopes).occurrences.map Occurrence.token
        = (liveCode u).filter fun t => t.isIdentifier && u.defines t.spelling :=
        Occurrence.map_token_all
    have hPerm := listed_perm (ofUnit u (MacroTable.ofEvents u.events) scopes) name
    rwa [hTokens, List.filter_filter] at hPerm
  case apart =>
    intro name
    refine List.Pairwise.filter _ ((CompilationUnit.liveCode_pairwise u).imp ?_)
    rintro t t' hLess rfl
    exact Nat.lt_irrefl _ hLess
  case expands => exact fun name t ht d arguments => exists_usage_iff_expands ht

end UsageIndex

end Demacro
