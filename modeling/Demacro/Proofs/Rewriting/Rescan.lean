import Demacro.Proofs.Inclusion.Opening
import Demacro.Proofs.Rewriting.Forms

/-!
Reading a unit again after changes. The directives that stay find the same groups open around them,
except that a file can have become one with an include guard. So whatever is defined in the changed
text was defined before, by a directive that stayed.
-/

namespace Demacro

/-- A live line that defines the name. -/
def UnitLine.Defines (line : UnitLine) (name : String) : Prop :=
  line.reachability ≠ .disabled ∧ ∃ keyword d unresolved,
    line.role = .directive keyword (some d) unresolved ∧ d.isDefine = true ∧ d.name = name

/-- What is to be found again of a logical line if the lines that `gone` says are no longer
there. -/
def rowOf (gone : List Token → Prop) [DecidablePred gone] : List Token → Row
  | [] => none
  | t :: ts => if t.isPunct "#" = true ∧ ¬gone (t :: ts) then some (ts.map Token.form) else none

namespace Reading

open Token

variable {gone : List Token → Prop} {path : String} {first first' : Token} {rest rest' : List Token}
  {reach reach' outer : Reachability} {follow follow' : Option Follow} {line line' : UnitLine}
  {r r' next : Reading} {groups groups' nextGroups : List Group} {isGuard isGuard' : Bool}
  {lines lines' : List (List Token)}

/-- What the second reading defines, a line of the first one defines that is not gone. -/
def DefinesLess (gone : List Token → Prop) (r r' : Reading) : Prop :=
  ∀ line' ∈ r'.lines, ∀ name, line'.Defines name → ∃ line ∈ r.lines, line.Defines name
    ∧ ¬gone (line.first :: line.rest)

theorem DefinesLess.add_left (h : DefinesLess gone r r') (line : UnitLine) :
    DefinesLess gone (r.add line) r' := by
  intro line' hLine' name hDefines
  obtain ⟨found, hFound, hSame⟩ := h line' hLine' name hDefines
  exact ⟨found, Array.mem_push.mpr (.inl hFound), hSame⟩

theorem DefinesLess.add_right (h : DefinesLess gone r r') (line' : UnitLine)
    (hLine : ∀ name, line'.Defines name →
    ∃ line ∈ r.lines, line.Defines name ∧ ¬gone (line.first :: line.rest)) :
    DefinesLess gone r (r'.add line') := by
  intro found hFound name hDefines
  rcases Array.mem_push.mp hFound with hFound | rfl
  · exact h found hFound name hDefines
  · exact hLine name hDefines

theorem DefinesLess.add (h : DefinesLess gone r r') (hGone : ¬gone (line.first :: line.rest))
    (hLine : ∀ name, line'.Defines name → line.Defines name) :
    DefinesLess gone (r.add line) (r'.add line') :=
  (h.add_left line).add_right line' fun name hDefines =>
    ⟨line, Array.mem_push.mpr (.inr rfl), hLine name hDefines, hGone⟩

theorem DefinesLess.congr {r₁ r₁' : Reading} (h : DefinesLess gone r r') (hr : r₁.lines = r.lines)
    (hr' : r₁'.lines = r'.lines) : DefinesLess gone r₁ r₁' := by
  intro line' hLine' name hDefines
  rw [hr'] at hLine'
  rw [hr]
  exact h line' hLine' name hDefines

/-- What a directive line can be read as where no includes are followed. -/
inductive Directed (first : Token) (rest : List Token) (reach : Reachability) :
    Option Directive → Prop where
  | change {d : Directive}
      (h : Directive.ofLine? (Directive.split (first :: rest)).1 first rest = some (.ok d)) :
      Directed first rest reach (some d)
  | disabled {e : ParseError}
      (h : Directive.ofLine? (Directive.split (first :: rest)).1 first rest = some (.error e))
      (hReach : reach = .disabled) : Directed first rest reach none
  | other (h : Directive.ofLine? (Directive.split (first :: rest)).1 first rest = none) :
      Directed first rest reach none

theorem addDirective_eq_ok (h : addDirective none follow path first rest reach r = .ok next) :
    ∃ change, Directed first rest reach change
      ∧ next.lines = (r.add ⟨first, rest, reach,
        .directive (Directive.split (first :: rest)).1 change false⟩).lines := by
  unfold addDirective at h
  dsimp only at h
  split at h
  · rename_i d hLine
    cases h
    exact ⟨_, .change hLine, rfl⟩
  · rename_i e hLine
    split at h
    · rename_i hReach
      cases h
      exact ⟨_, .disabled hLine hReach, rfl⟩
    · cases h
  rename_i hLine
  refine ⟨_, .other hLine, ?_⟩
  split at h
  · cases h
    rfl
  split at h <;>
    · cases h
      rfl

theorem exists_addDirective {change : Option Directive} (h : Directed first rest reach change)
    (follow : Option Follow) (path : String) (r : Reading) :
    ∃ next, addDirective none follow path first rest reach r = .ok next
      ∧ next.lines = (r.add ⟨first, rest, reach,
        .directive (Directive.split (first :: rest)).1 change false⟩).lines := by
  unfold addDirective
  dsimp only
  cases h with
  | change h =>
      rw [h]
      exact ⟨_, rfl, rfl⟩
  | disabled h hReach =>
      rw [h]
      dsimp only
      rw [if_pos hReach]
      exact ⟨_, rfl, rfl⟩
  | other h =>
      rw [h]
      dsimp only
      split
      · exact ⟨_, rfl, rfl⟩
      split <;> exact ⟨_, rfl, rfl⟩

/-- A directive that stays is read again as before, unless it is no longer compiled. -/
theorem Directed.of_forms {change : Option Directive} (h : Directed first rest reach change)
    (first' : Token) (hForms : rest.map form = rest'.map form)
    (hReach : reach = .disabled → reach' = .disabled) :
    ∃ change', Directed first' rest' reach' change' ∧ ∀ d' ∈ change', ∃ d ∈ change, d'.name = d.name
      ∧ d'.isDefine = d.isDefine := by
  have hKeyword : (Directive.split (first :: rest)).1 = (Directive.split (first' :: rest')).1 :=
    (Directive.split_of_forms first first' hForms).1
  cases h with
  | @change d h =>
      obtain ⟨d', hd', hSame⟩ := (Directive.ofLine?_of_forms hForms).2 d h
      refine ⟨some d', .change (hKeyword ▸ hd'), fun x hx => ?_⟩
      obtain rfl := Option.some.inj hx
      exact ⟨d, rfl, hSame⟩
  | @disabled e h hDisabled =>
      refine ⟨none, ?_, nofun⟩
      -- A line that is malformed stays so, since the forms say whether it is.
      cases hAgain : Directive.ofLine? (Directive.split (first' :: rest')).1 first' rest' with
      | none => exact .other hAgain
      | some result =>
          cases result with
          | error e' => exact .disabled hAgain (hReach hDisabled)
          | ok d' =>
              obtain ⟨d, hd, -⟩ := (Directive.ofLine?_of_forms hForms.symm).2 d' (hKeyword ▸ hAgain)
              cases h.symm.trans hd
  | other h => exact ⟨none, .other (hKeyword ▸ (Directive.ofLine?_of_forms hForms).1 h), nofun⟩

/-- The line is read as an include guard: its group is taken where it was not before. -/
def GuardsAgain (first : Token) (rest : List Token) (isGuard isGuard' : Bool) : Prop :=
  isGuard' = isGuard ∨ isGuard = false ∧
    ∃ guard, guardOperand? (Directive.split (first :: rest)).1 (Directive.split (first :: rest)).2
    = some guard

/-- A condition that asks for a name to be undefined is not known. -/
theorem certainty_of_guardOperand? {body : List Token} {guard : Text}
    (h : guardOperand? "if" body = some guard) : Conditional.certainty body = .ok .maybe := by
  have hOpen : ∀ {t : Token} {u v : Text} {ts : List Text}, t.lexeme = Text.ofString "!" →
      Conditional.withoutParentheses (t.lexeme :: u :: v :: ts) = t.lexeme :: u :: v :: ts := by
    intro t u v ts ht
    rw [ht, Conditional.withoutParentheses,
      if_neg (by simp [show (Text.ofString "!" == Text.ofString "(") = false from rfl])]
  unfold guardOperand? at h
  split at h
  · split at h
    · rename_i hKeyword
      exact absurd hKeyword.1 (by decide)
    · cases h
  · split at h
    · rename_i hNot
      simp only [Conditional.certainty, List.map_cons, List.map_nil, hOpen hNot.2.1]
    · cases h
  · split at h
    · rename_i hNot
      simp only [Conditional.certainty, List.map_cons, List.map_nil, hOpen hNot.2.1]
    · cases h
  · cases h

theorem keyword_of_ofKeyword? {keyword : String} {c : Conditional}
    (h : Conditional.ofKeyword? keyword = some c) : c.keyword = keyword := by
  simpa using List.find?_some h

/-- A line that is no macro directive defines nothing. -/
theorem not_defines {line : UnitLine}
    (h : ∀ keyword d unresolved, line.role ≠ .directive keyword (some d) unresolved)
    (name : String) : ¬line.Defines name := by
  rintro ⟨-, keyword, d, unresolved, hRole, -⟩
  exact h keyword d unresolved hRole

/-- A directive that stays is read again, and the groups behind it hide no less. -/
theorem exists_addLine (hPunct : first.isPunct "#" = true) (hPunct' : first'.isPunct "#" = true)
    (hForms : rest.map form = rest'.map form) (hGone : ¬gone (first :: rest))
    (hGroups : List.Forall₂ Group.Hides groups groups') (hr : DefinesLess gone r r')
    (hGuard : GuardsAgain first rest isGuard isGuard')
    (h : addLine none follow path outer isGuard first rest groups r = .ok (nextGroups, next)) :
    ∃ nextGroups' next', addLine none follow path outer isGuard' first' rest' groups' r'
    = .ok (nextGroups', next')
      ∧ List.Forall₂ Group.Hides nextGroups nextGroups' ∧ DefinesLess gone next next' := by
  obtain ⟨hKeyword, hBody⟩ := Directive.split_of_forms first first' hForms
  unfold addLine at h ⊢
  rw [if_pos hPunct] at h
  rw [if_pos hPunct']
  dsimp only at h ⊢
  rw [← hKeyword]
  split at h
  · rename_i c hConditional
    obtain ⟨found, hNext, h⟩ := Except.bind_eq_ok_iff.mp h
    cases h
    have hOuter : List.Forall₂ Group.Hides (if c.isOpener then groups else groups.drop 1)
        (if c.isOpener then groups' else groups'.drop 1) := by
      split
      · exact hGroups
      · exact List.forall₂_drop 1 hGroups
    have hLive :
      (Group.reachability (if c.isOpener then groups' else groups'.drop 1) outer != .disabled)
      = true →
        (Group.reachability (if c.isOpener then groups else groups.drop 1) outer != .disabled)
        = true := by
      rw [bne_iff_ne, bne_iff_ne]
      exact fun hLive hDisabled => hLive (Group.disabled_of_hides hOuter hDisabled)
    have hMaybe : isGuard' = isGuard ∨ isGuard = false ∧
        (c = .whenTrue → Conditional.certainty (Directive.split (first :: rest)).2
          = .ok .maybe) := by
      refine hGuard.imp_right fun ⟨hNone, guard, hOperand⟩ => ⟨hNone, fun hCondition => ?_⟩
      subst hCondition
      rw [← keyword_of_ofKeyword? hConditional] at hOperand
      exact certainty_of_guardOperand? hOperand
    obtain ⟨found', hNext', hHides⟩ :=
      Group.exists_next (Directive.lineSpan first' rest') hBody hGroups hLive hMaybe hNext
    rw [hNext']
    exact ⟨_, _, rfl, hHides, (hr.add_left _).add_right _ fun name hDefines => absurd hDefines
      (not_defines (by simp) name)⟩
  · rename_i hOther
    obtain ⟨found, hDirective, h⟩ := Except.bind_eq_ok_iff.mp h
    cases h
    obtain ⟨change, hDirected, hLines⟩ := addDirective_eq_ok hDirective
    have hDisabled : Group.reachability groups outer = .disabled →
        Group.reachability groups' outer = .disabled :=
      Group.disabled_of_hides hGroups
    obtain ⟨change', hDirected', hChange⟩ := hDirected.of_forms first' hForms hDisabled
    obtain ⟨found', hDirective', hLines'⟩ := exists_addDirective hDirected' follow path r'
    rw [hDirective']
    refine ⟨_, _, rfl, hGroups, ?_⟩
    refine (hr.add hGone fun name hDefines => ?_).congr hLines hLines'
    obtain ⟨hLive, keyword, d', unresolved, hRole, hDefine, hName⟩ := hDefines
    obtain ⟨-, rfl, -⟩ : _ ∧ change' = some d' ∧ _ := by simpa using hRole
    obtain ⟨d, hd, hSameName, hSameDefine⟩ := hChange d' rfl
    obtain rfl := Option.mem_def.mp hd
    exact ⟨fun hOff => hLive (hDisabled hOff), _, d, false, rfl, hSameDefine ▸ hDefine,
      hSameName ▸ hName⟩

/-- A line that is gone held a macro directive. -/
def IsMacroLine (line : List Token) : Prop :=
  (Directive.split line).1 = "define" ∨ (Directive.split line).1 = "undef"

theorem IsMacroLine.ofKeyword? {line : List Token} (h : IsMacroLine line) :
    Conditional.ofKeyword? (Directive.split line).1 = none := by
  rcases h with h | h <;>
    · rw [h]
      decide

/-- A line that is no conditional directive opens and closes no group. -/
theorem addLine_of_dropped (hLine : first.isPunct "#" = true → IsMacroLine (first :: rest))
    (h : addLine none follow path outer isGuard first rest groups r = .ok (nextGroups, next)) :
    nextGroups = groups ∧ ∃ line, next.lines = (r.add line).lines := by
  unfold addLine at h
  split at h
  · rename_i hPunct
    dsimp only at h
    rw [(hLine hPunct).ofKeyword?] at h
    obtain ⟨found, hDirective, h⟩ := Except.bind_eq_ok_iff.mp h
    cases h
    obtain ⟨change, -, hLines⟩ := addDirective_eq_ok hDirective
    exact ⟨rfl, _, hLines⟩
  · cases h
    exact ⟨rfl, _, rfl⟩

theorem lexemes_of_forms {ts ts' : List Token} (h : ts.map form = ts'.map form) :
    ts.map lexeme = ts'.map lexeme := by
  have hSame : ∀ ts : List Token, ts.map lexeme = (ts.map form).map (·.2.1) := by
    intro ts
    rw [List.map_map]
    rfl
  rw [hSame, hSame, h]

theorem guardOperand?_of_forms {body body' : List Token} (h : body.map form = body'.map form)
    (keyword : String) : guardOperand? keyword body = guardOperand? keyword body' := by
  rcases body with - | ⟨a, - | ⟨b, - | ⟨c, - | ⟨d, - | ⟨e, - | ⟨f, body⟩⟩⟩⟩⟩⟩ <;>
    rcases body' with - | ⟨a', - | ⟨b', - | ⟨c', - | ⟨d', - | ⟨e', - | ⟨f', body'⟩⟩⟩⟩⟩⟩ <;>
    simp only [List.map_cons, List.map_nil, List.cons.injEq, reduceCtorEq, and_false, and_true] at h
  case cons.nil.cons.nil => simp only [guardOperand?, isIdentifier_of_form h, lexeme_of_form h]
  case cons.cons.cons.nil.cons.cons.cons.nil =>
    simp only [guardOperand?, lexeme_of_form h.1, lexeme_of_form h.2.1, lexeme_of_form h.2.2]
  case cons.cons.cons.cons.cons.nil.cons.cons.cons.cons.cons.nil =>
    simp only [guardOperand?, lexeme_of_form h.1, lexeme_of_form h.2.1, lexeme_of_form h.2.2.1,
      lexeme_of_form h.2.2.2.1, lexeme_of_form h.2.2.2.2]
  all_goals rfl

variable {rows : List Row}

theorem gone_of_rowOf [DecidablePred gone] {t : Token} {ts : List Token}
    (h : rowOf gone (t :: ts) = none) (hPunct : t.isPunct "#" = true) : gone (t :: ts) := by
  by_contra hGone
  rw [rowOf, if_pos ⟨hPunct, hGone⟩] at h
  cases h

theorem exists_of_rowOf [DecidablePred gone] {line : List Token} {operands : List Form}
    (h : rowOf gone line = some operands) :
    ∃ t ts, line = t :: ts ∧ t.isPunct "#" = true ∧ ¬gone (t :: ts)
      ∧ ts.map form = operands := by
  cases line with
  | nil => cases h
  | cons t ts =>
      rw [rowOf] at h
      split at h
      · rename_i hKept
        exact ⟨t, ts, rfl, hKept.1, hKept.2, Option.some.inj h⟩
      · cases h

/-- Reading the lines again after changes. -/
theorem exists_addLines [DecidablePred gone] (hTracks : Tracks rows lines')
    (hRows : lines.map (rowOf gone) = rows) (hGone : ∀ line ∈ lines, gone line → IsMacroLine line)
    (hGroups : List.Forall₂ Group.Hides groups groups') (hr : DefinesLess gone r r')
    (hGuard : isGuard' = true → ∃ guard, includeGuard? lines' = some guard)
    (h : addLines none follow path outer false lines groups r = .ok (nextGroups, next)) :
    ∃ nextGroups' next', addLines none follow path outer isGuard' lines' groups' r'
    = .ok (nextGroups', next')
      ∧ List.Forall₂ Group.Hides nextGroups nextGroups' ∧ DefinesLess gone next next' := by
  induction hTracks generalizing lines groups groups' r r' isGuard' with
  | nil =>
      obtain rfl := List.map_eq_nil_iff.mp hRows
      cases h
      exact ⟨groups', r', rfl, hGroups, hr⟩
  | @kept operands rows t ts lines' hHash hOperands hTracks ih =>
      obtain ⟨line, others, rfl, hRow, hOthers⟩ := List.map_eq_cons_iff.mp hRows
      obtain ⟨f, fs, rfl, hPunct, hStays, hForms⟩ := exists_of_rowOf hRow
      replace hForms := hForms.trans hOperands.symm
      obtain ⟨⟨found, read⟩, hLine, hRest⟩ := Except.bind_eq_ok_iff.mp h
      have hAgain : GuardsAgain f fs false isGuard' := by
        cases isGuard' with
        | false => exact .inl rfl
        | true =>
            obtain ⟨guard, hGuard⟩ := hGuard rfl
            obtain ⟨o, os, d, ds, others, hLines, -, -, hOperand, -⟩ := includeGuard?_eq_some hGuard
            obtain ⟨⟨rfl, rfl⟩, rfl⟩ : (t = o ∧ ts = os) ∧ lines' = (d :: ds) :: others := by
              simpa using hLines
            obtain ⟨hKeyword, hBody⟩ := Directive.split_of_forms f t hForms
            exact .inr ⟨rfl, guard, by rwa [hKeyword, guardOperand?_of_forms hBody]⟩
      obtain ⟨found', read', hLine', hHides, hLess⟩ :=
        exists_addLine hPunct hHash hForms hStays hGroups hr hAgain hLine
      have hNoGuard : false = true → ∃ guard, includeGuard? lines' = some guard := nofun
      obtain ⟨nextGroups', next', hRest', hResult⟩ :=
        ih hOthers (fun line hMem => hGone line (List.mem_cons_of_mem _ hMem)) hHides hLess
          hNoGuard hRest
      refine ⟨nextGroups', next', ?_, hResult⟩
      rw [addLines, hLine']
      exact hRest'
  | @gone rows lines' hTracks ih =>
      obtain ⟨line, others, rfl, hRow, hOthers⟩ := List.map_eq_cons_iff.mp hRows
      have hGoneRest : ∀ line ∈ others, gone line → IsMacroLine line :=
        fun line hMem => hGone line (List.mem_cons_of_mem _ hMem)
      cases line with
      | nil => exact ih hOthers hGoneRest hGroups hr hGuard h
      | cons t ts =>
          obtain ⟨⟨found, read⟩, hLine, hRest⟩ := Except.bind_eq_ok_iff.mp h
          obtain ⟨rfl, added, hLines⟩ := addLine_of_dropped
            (fun hPunct => hGone _ List.mem_cons_self (gone_of_rowOf hRow hPunct)) hLine
          exact ih hOthers hGoneRest hGroups ((hr.add_left added).congr hLines rfl) hGuard hRest
  | @code rows t ts lines' hHash hTracks ih =>
      have hPlain : isGuard' = false := by
        rw [← Bool.not_eq_true]
        intro hTrue
        obtain ⟨guard, hGuard⟩ := hGuard hTrue
        obtain ⟨o, os, d, ds, others, hLines, hPunct, -⟩ := includeGuard?_eq_some hGuard
        obtain ⟨⟨rfl, -⟩, -⟩ : (t = o ∧ ts = os) ∧ lines' = (d :: ds) :: others := by
          simpa using hLines
        rw [hHash] at hPunct
        cases hPunct
      subst hPlain
      have hLess := hr.add_right ⟨t, ts, Group.reachability groups' outer, .code⟩
        fun name hDefines => absurd hDefines (not_defines (by simp) name)
      have hNoGuard : false = true → ∃ guard, includeGuard? lines' = some guard := nofun
      obtain ⟨nextGroups', next', hRest', hResult⟩ := ih hRows hGone hGroups hLess hNoGuard h
      refine ⟨nextGroups', next', ?_, hResult⟩
      rw [addLines, addLine, if_neg (by simp [hHash])]
      exact hRest'

theorem closesAtEnd_of_dropped {line : List Token} {depth : Nat}
    (hLine : Directive.isLine line = true → IsMacroLine line) :
    closesAtEnd depth (line :: lines) = closesAtEnd depth lines := by
  have hNone : Conditional.ofKeyword? (if Directive.isLine line then (Directive.split line).1
      else "") = none := by
    split
    · rename_i hDirective
      exact (hLine hDirective).ofKeyword?
    · decide
  rw [closesAtEnd, hNone]

theorem closesAtEnd_of_includeGuard? {opening defining : List Token} {guard : Text}
    (h : includeGuard? (opening :: defining :: lines) = some guard) :
    closesAtEnd 1 lines = true := by
  unfold includeGuard? at h
  dsimp only at h
  split at h
  · split at h
    · split at h
      · rename_i hGuard
        exact hGuard.2.2
      · cases h
    · cases h
  · cases h

/-- The groups that are open in front of the lines are still closed on the last one. -/
theorem closesAtEnd_of_tracks [DecidablePred gone] (hTracks : Tracks rows lines')
    (hRows : lines.map (rowOf gone) = rows) (hGone : ∀ line ∈ lines, gone line → IsMacroLine line)
    {depth : Nat} (h : closesAtEnd depth lines = true) : closesAtEnd depth lines' = true := by
  induction hTracks generalizing lines depth with
  | nil =>
      obtain rfl := List.map_eq_nil_iff.mp hRows
      exact h
  | @kept operands rows t ts lines' hHash hOperands hTracks ih =>
      obtain ⟨line, others, rfl, hRow, hOthers⟩ := List.map_eq_cons_iff.mp hRows
      obtain ⟨f, fs, rfl, hPunct, hStays, hForms⟩ := exists_of_rowOf hRow
      have hKeyword := (Directive.split_of_forms f t (hForms.trans hOperands.symm)).1
      have hGoneRest : ∀ line ∈ others, gone line → IsMacroLine line :=
        fun line hMem => hGone line (List.mem_cons_of_mem _ hMem)
      have hLine : Directive.isLine (f :: fs) = true := by simpa [Directive.isLine] using hPunct
      have hLine' : Directive.isLine (t :: ts) = true := by simpa [Directive.isLine] using hHash
      rw [closesAtEnd, if_pos hLine] at h
      rw [closesAtEnd, if_pos hLine', ← hKeyword]
      split at h
      · split_ifs at h ⊢
        · obtain rfl := List.isEmpty_iff.mp h
          cases hTracks with
          | nil => rfl
          | _ => cases hOthers
        · exact ih hOthers hGoneRest h
      · exact ih hOthers hGoneRest h
      · exact ih hOthers hGoneRest h
  | @gone rows lines' hTracks ih =>
      obtain ⟨line, others, rfl, hRow, hOthers⟩ := List.map_eq_cons_iff.mp hRows
      have hGoneRest : ∀ line ∈ others, gone line → IsMacroLine line :=
        fun line hMem => hGone line (List.mem_cons_of_mem _ hMem)
      rw [closesAtEnd_of_dropped] at h
      · exact ih hOthers hGoneRest h
      · intro hDirective
        cases line with
        | nil => cases hDirective
        | cons t ts =>
            exact hGone _ List.mem_cons_self
              (gone_of_rowOf hRow (by simpa [Directive.isLine] using hDirective))
  | @code rows t ts lines' hHash hTracks ih =>
      rw [closesAtEnd_of_dropped]
      · exact ih hRows hGone h
      · intro hDirective
        simp [Directive.isLine, hHash] at hDirective

/-- The first line of a file with an include guard stays. -/
theorem exists_opening [DecidablePred gone] (hTracks : Tracks (lines.map (rowOf gone)) lines')
    (hGone : ∀ line ∈ lines, gone line → IsMacroLine line) {guard : Text}
    (hGuard : includeGuard? lines = some guard) :
    ∃ o os others t ts others', lines = (o :: os) :: others ∧ lines' = (t :: ts) :: others'
    ∧ o.isPunct "#" = true
      ∧ t.isPunct "#" = true ∧ os.map form = ts.map form ∧ ¬gone (o :: os)
      ∧ guardOperand? (Directive.split (o :: os)).1 (Directive.split (o :: os)).2 = some guard
      ∧ Tracks (others.map (rowOf gone)) others' := by
  obtain ⟨o, os, d, ds, others, rfl, hPunct, -, hOperand, -⟩ := includeGuard?_eq_some hGuard
  have hOpening : ¬gone (o :: os) := by
    intro hGoneOpening
    rcases hGone _ List.mem_cons_self hGoneOpening with hKeyword | hKeyword <;>
      rcases guardOperand?_keyword hOperand with hOther | hOther <;>
      · rw [hKeyword] at hOther
        exact absurd hOther (by decide)
  rw [List.map_cons, rowOf, if_pos ⟨hPunct, hOpening⟩] at hTracks
  cases hTracks with
  | @kept _ _ t ts others' hHash hForms hTracks =>
      exact ⟨o, os, _, t, ts, others', rfl, rfl, hPunct, hHash, hForms.symm, hOpening, hOperand,
        hTracks⟩

/-- A file with an include guard keeps it. -/
theorem includeGuard?_of_tracks [DecidablePred gone]
    (hTracks : Tracks (lines.map (rowOf gone)) lines')
    (hGone : ∀ line ∈ lines, gone line → IsMacroLine line) {guard : Text}
    (hGuard : includeGuard? lines = some guard)
    (hStays : ∀ line ∈ lines, (Directive.split line).2.map lexeme = [guard] → ¬gone line) :
    includeGuard? lines' = some guard := by
  obtain ⟨o, os, _, t, ts, _, rfl, rfl, -, hHash, hForms, -, hOperand, hTracks⟩ :=
    exists_opening hTracks hGone hGuard
  obtain ⟨o, os, d, ds, others, hLines, -, hPunct, -, hDefine, hName⟩ :=
    includeGuard?_eq_some hGuard
  obtain ⟨⟨rfl, rfl⟩, rfl⟩ := by simpa using hLines
  have hDefining : ¬gone (d :: ds) := hStays _ (by simp) hName
  rw [List.map_cons, rowOf, if_pos ⟨hPunct, hDefining⟩] at hTracks
  cases hTracks with
  | @kept _ _ e es rest hHash' hForms' hRest =>
      obtain ⟨hKeyword, hBody⟩ := Directive.split_of_forms o t hForms
      obtain ⟨hKeyword', hBody'⟩ := Directive.split_of_forms d e hForms'.symm
      have hLexemes : (Directive.split (e :: es)).2.map lexeme = [guard] := by
        rw [← hName, lexemes_of_forms hBody']
      have hCloses : closesAtEnd 1 rest = true :=
        closesAtEnd_of_tracks hRest rfl (fun line hMem => hGone line (by simp [hMem]))
          (closesAtEnd_of_includeGuard? hGuard)
      unfold includeGuard?
      dsimp only
      rw [if_pos (by simp [Directive.isLine, hHash, hHash']), ← hKeyword,
        ← guardOperand?_of_forms hBody, hOperand]
      dsimp only
      rw [if_pos ⟨by rw [← hKeyword', hDefine], hLexemes, hCloses⟩]

/-- Reading the lines of a file again, of which the first may open its include guard. -/
theorem exists_addLines_guarded [DecidablePred gone]
    (hTracks : Tracks (lines.map (rowOf gone)) lines')
    (hGone : ∀ line ∈ lines, gone line → IsMacroLine line)
    (hStays : ∀ guard, includeGuard? lines = some guard → ∀ line ∈ lines,
      (Directive.split line).2.map lexeme = [guard] → ¬gone line) (hr : DefinesLess gone r r')
    (h : addLines none follow path outer (includeGuard? lines).isSome lines [] r = .ok (nextGroups,
      next)) :
    ∃ nextGroups' next', addLines none follow path outer (includeGuard? lines').isSome lines' [] r'
        = .ok (nextGroups', next')
      ∧ List.Forall₂ Group.Hides nextGroups nextGroups' ∧ DefinesLess gone next next' := by
  cases hGuard : includeGuard? lines with
  | none =>
      rw [hGuard] at h
      exact exists_addLines hTracks rfl hGone .nil hr
        (fun hSome => Option.isSome_iff_exists.mp hSome) h
  | some guard =>
      rw [includeGuard?_of_tracks hTracks hGone hGuard (hStays guard hGuard)]
      rw [hGuard] at h
      obtain ⟨o, os, others, t, ts, others', rfl, rfl, hPunct, hHash, hForms, hOpening, -, hRest⟩ :=
        exists_opening hTracks hGone hGuard
      obtain ⟨⟨found, read⟩, hLine, h⟩ := Except.bind_eq_ok_iff.mp h
      obtain ⟨found', read', hLine', hHides, hLess⟩ :=
        exists_addLine hPunct hHash hForms hOpening .nil hr (.inl rfl) hLine
      have hNoGuard : false = true → ∃ guard, includeGuard? others' = some guard := nofun
      obtain ⟨nextGroups', next', hLines', hResult⟩ :=
        exists_addLines hRest rfl (fun line hMem => hGone line (List.mem_cons_of_mem _ hMem)) hHides
          hLess hNoGuard h
      refine ⟨nextGroups', next', ?_, hResult⟩
      rw [addLines, hLine']
      exact hLines'

end Reading

namespace CompilationUnit

open Reading

variable {gone : List Token → Prop} {path : String} {text text' : Text}
  {tokens tokens' : List Token} {u : CompilationUnit}

/-- The unit of a changed text can be read, and its live definitions stand on lines that stayed. -/
theorem exists_read [DecidablePred gone] (hTokens : Token.ofText path text = .ok tokens)
    (hTokens' : Token.ofText path text' = .ok tokens')
    (hTracks : Tracks ((Token.logicalLines tokens).map (rowOf gone)) (Token.logicalLines tokens'))
    (hGone : ∀ line ∈ Token.logicalLines tokens, gone line → IsMacroLine line)
    (hStays : ∀ guard, includeGuard? (Token.logicalLines tokens) = some guard →
      ∀ line ∈ Token.logicalLines tokens,
      (Directive.split line).2.map Token.lexeme = [guard] → ¬gone line)
    (h : read path text none = .ok u) :
    ∃ u', read path text' none = .ok u' ∧ ∀ line' ∈ u'.lines, ∀ name,
      line'.Defines name → ∃ line ∈ u.lines, line.Defines name
      ∧ ¬gone (line.first :: line.rest) := by
  obtain ⟨r, hFile, h⟩ := Except.bind_eq_ok_iff.mp h
  cases h
  obtain ⟨_, last, hText, hLines, rfl⟩ := addFile_eq_ok hFile
  obtain rfl := Except.ok.inj (hTokens.symm.trans hText)
  have hStart : DefinesLess gone (Reading.started {} path text (Token.logicalLines tokens))
      (Reading.started {} path text' (Token.logicalLines tokens')) := by
    intro line' hLine'
    simp [Reading.started] at hLine'
  obtain ⟨groups', last', hLines', hGroups, hLess⟩ :=
    exists_addLines_guarded hTracks hGone hStays hStart hLines
  cases hGroups
  have hOnce : ∀ (b : Bool) (r : Reading), (if b then r.addOnce path else r).lines = r.lines := by
    intro b r
    cases b <;> rfl
  have hFile' : addFileWithin none maxIncludeDepth path text' .unconditional {}
      = .ok (if (includeGuard? (Token.logicalLines tokens')).isSome then last'.addOnce path
        else last') := by
    rw [maxIncludeDepth, addFileWithin]
    unfold addFile
    rw [hTokens']
    exact Except.bind_eq_ok_iff.mpr ⟨([], last'), hLines', rfl⟩
  refine ⟨⟨path, _, _, _⟩, by rw [read, hFile']; rfl, fun line' hLine' name hDefines => ?_⟩
  dsimp only at hLine' ⊢
  rw [hOnce, Array.mem_toList_iff] at hLine'
  obtain ⟨line, hLine, hFound⟩ := hLess line' hLine' name hDefines
  exact ⟨line, by rwa [hOnce, Array.mem_toList_iff], hFound⟩

end CompilationUnit

end Demacro
