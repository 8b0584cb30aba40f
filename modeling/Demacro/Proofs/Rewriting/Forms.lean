import Demacro.Proofs.Lexing.Recovery
import Demacro.Proofs.Reading

/-!
What directives depend on: the forms of their tokens and the groups that are open around them. Where
the open groups hide no less than before, a directive is read again without a fault.
-/

namespace Demacro

namespace Token

variable {t t' : Token}

theorem isPunct_of_form (h : t.form = t'.form) (spelling : String) :
    t.isPunct spelling = t'.isPunct spelling := by
  simp only [form, Prod.mk.injEq] at h
  rw [isPunct, isPunct, h.1, h.2.1]

theorem isIdentifier_of_form (h : t.form = t'.form) : t.isIdentifier = t'.isIdentifier := by
  simp only [form, Prod.mk.injEq] at h
  rw [isIdentifier, isIdentifier, h.1]

theorem isNamed_of_form (h : t.form = t'.form) (name : String) :
    t.isNamed name = t'.isNamed name := by
  simp only [form, Prod.mk.injEq] at h
  rw [isNamed, isNamed, h.1, h.2.1]

theorem lexeme_of_form (h : t.form = t'.form) : t.lexeme = t'.lexeme := by
  simp only [form, Prod.mk.injEq] at h
  exact h.2.1

theorem spelling_of_form (h : t.form = t'.form) : t.spelling = t'.spelling := by
  rw [spelling, spelling, lexeme_of_form h]

theorem spaced_of_form (h : t.form = t'.form) : t.spaced = t'.spaced := by
  simp only [form, Prod.mk.injEq] at h
  exact h.2.2

end Token

namespace Directive

open Token

variable {first first' : Token} {rest rest' ts ts' : List Token}

theorem split_of_forms (first first' : Token) (h : rest.map form = rest'.map form) :
    (split (first :: rest)).1 = (split (first' :: rest')).1
      ∧ (split (first :: rest)).2.map form = (split (first' :: rest')).2.map form := by
  match rest, rest', h with
  | [], [], _ => exact ⟨rfl, rfl⟩
  | t :: ts, t' :: ts', h =>
      obtain ⟨hHead, hTail⟩ := List.cons.inj h
      simp only [split, List.drop_one, List.tail_cons, isIdentifier_of_form hHead,
        spelling_of_form hHead]
      split
      · exact ⟨rfl, hTail⟩
      · exact ⟨rfl, h⟩

theorem exists_cons_of_forms {t : Token} (h : (t :: ts).map form = ts'.map form) :
    ∃ u us, ts' = u :: us ∧ t.form = u.form ∧ ts.map form = us.map form := by
  cases ts' with
  | nil => cases h
  | cons u us => exact ⟨u, us, rfl, List.cons.inj h⟩

/-- Whether a parameter list is well formed depends on the forms of the tokens. -/
theorem parameters_of_forms (h : ts.map form = ts'.map form) {last last' : Span}
    {done : List String} {variadic expecting : Bool} {x : Shape × List Token}
    (hOk : parameters last done variadic expecting ts = .ok x) :
    ∃ x', parameters last' done variadic expecting ts' = .ok x' := by
  fun_induction parameters last done variadic expecting ts generalizing ts' with
  | case1 | case2 | case4 | case6 | case9 | case10 | case12 => cases hOk
  | case3 done variadic expecting t ts hClose hLast =>
      obtain ⟨u, us, rfl, ht, -⟩ := exists_cons_of_forms h
      rw [isPunct_of_form ht] at hClose
      rw [parameters.eq_def]
      dsimp only
      rw [if_pos hClose, if_neg hLast]
      exact ⟨_, rfl⟩
  | case5 done variadic t ts hClose hMore hEllipsis ih =>
      obtain ⟨u, us, rfl, ht, hts⟩ := exists_cons_of_forms h
      rw [isPunct_of_form ht] at hClose hEllipsis
      rw [parameters.eq_def]
      dsimp only
      rw [if_neg hClose, if_neg hMore, if_pos rfl, if_pos hEllipsis]
      exact ih hts hOk
  | case7 done variadic t hClose hMore hName hIdentifier hNew e ts hEllipsis ih =>
      obtain ⟨u, us, rfl, ht, hRest⟩ := exists_cons_of_forms h
      obtain ⟨f, us, rfl, he, hts⟩ := exists_cons_of_forms hRest
      rw [isPunct_of_form ht] at hClose hName
      rw [isIdentifier_of_form ht] at hIdentifier
      rw [isPunct_of_form he] at hEllipsis
      rw [spelling_of_form ht] at hNew ih hOk
      rw [parameters, if_neg hClose, if_neg hMore, if_pos rfl, if_neg hName, if_pos hIdentifier,
        if_neg hNew]
      rw [if_pos hEllipsis]
      exact ih hts hOk
  | case8 done variadic t hClose hMore hName hIdentifier hNew e ts hEllipsis ih =>
      obtain ⟨u, us, rfl, ht, hRest⟩ := exists_cons_of_forms h
      obtain ⟨f, us, rfl, he, hts⟩ := exists_cons_of_forms hRest
      rw [isPunct_of_form ht] at hClose hName
      rw [isIdentifier_of_form ht] at hIdentifier
      rw [isPunct_of_form he] at hEllipsis
      rw [spelling_of_form ht] at hNew ih hOk
      rw [parameters, if_neg hClose, if_neg hMore, if_pos rfl, if_neg hName, if_pos hIdentifier,
        if_neg hNew]
      rw [if_neg hEllipsis]
      exact ih hRest hOk
  | case11 done variadic expecting t ts hClose hMore hNext hComma ih =>
      obtain ⟨u, us, rfl, ht, hts⟩ := exists_cons_of_forms h
      rw [isPunct_of_form ht] at hClose hComma
      rw [parameters.eq_def]
      dsimp only
      rw [if_neg hClose, if_neg hMore, if_neg hNext, if_pos hComma]
      exact ih hts hOk

/-- What a `#define` defines depends on the forms of the tokens behind the first one. -/
theorem define?_of_forms (h : rest.map form = rest'.map form) {d : Definition}
    (hOk : define? first rest = .ok d) :
    ∃ d', define? first' rest' = .ok d' ∧ d'.name = d.name := by
  have hSplit := (split_of_forms first first' h).2
  unfold define? at hOk ⊢
  dsimp only at hOk ⊢
  split at hOk
  · cases hOk
  rename_i t ts hBody
  rw [hBody] at hSplit
  obtain ⟨u, us, hBody', ht, hts⟩ := exists_cons_of_forms hSplit
  rw [hBody']
  dsimp only
  rw [isIdentifier_of_form ht, isNamed_of_form ht, spelling_of_form ht] at hOk
  split at hOk
  · cases hOk
  rename_i hIdentifier
  rw [if_neg hIdentifier]
  split at hOk
  · cases hOk
  rename_i hNamed
  rw [if_neg hNamed]
  split at hOk
  · rename_i open_ inner
    obtain ⟨open_', inner', rfl, hOpen, hInner⟩ := exists_cons_of_forms hts
    rw [isPunct_of_form hOpen, spaced_of_form hOpen] at hOk
    dsimp only
    split at hOk
    · rename_i hFunction
      rw [if_pos hFunction]
      obtain ⟨x, hParameters, rfl⟩ := Except.map_eq_ok_iff.mp hOk
      obtain ⟨x', hParameters'⟩ := parameters_of_forms hInner hParameters
      exact ⟨_, Except.map_eq_ok_iff.mpr ⟨x', hParameters', rfl⟩, rfl⟩
    · rename_i hObject
      rw [if_neg hObject]
      cases hOk
      exact ⟨_, rfl, rfl⟩
  · obtain rfl := List.map_eq_nil_iff.mp hts.symm
    cases hOk
    exact ⟨_, rfl, rfl⟩

theorem undef?_of_forms (h : rest.map form = rest'.map form) {name : String}
    (hOk : undef? first rest = .ok name) : undef? first' rest' = .ok name := by
  have hSplit := (split_of_forms first first' h).2
  unfold undef? at hOk ⊢
  split at hOk
  · rename_i t ts hBody
    rw [hBody] at hSplit
    obtain ⟨u, us, hBody', ht, -⟩ := exists_cons_of_forms hSplit
    rw [hBody']
    dsimp only
    rw [isIdentifier_of_form ht, spelling_of_form ht] at hOk
    split at hOk
    · rename_i hIdentifier
      rw [if_pos hIdentifier]
      exact hOk
    · cases hOk
  · cases hOk

/-- The macro directive on a line depends on the forms of the tokens behind the first one. -/
theorem ofLine?_of_forms (h : rest.map form = rest'.map form) {keyword : String} :
    (ofLine? keyword first rest = none → ofLine? keyword first' rest' = none)
      ∧ ∀ d, ofLine? keyword first rest = some (.ok d) →
        ∃ d', ofLine? keyword first' rest' = some (.ok d') ∧ d'.name = d.name
        ∧ d'.isDefine = d.isDefine := by
  unfold ofLine?
  split
  · refine ⟨nofun, fun d hOk => ?_⟩
    obtain ⟨definition, hDefinition, rfl⟩ := Except.map_eq_ok_iff.mp (Option.some.inj hOk)
    obtain ⟨definition', hDefinition', hName⟩ := define?_of_forms h hDefinition
    exact ⟨.define definition', by rw [hDefinition']; rfl, hName, rfl⟩
  split
  · refine ⟨nofun, fun d hOk => ?_⟩
    obtain ⟨name, hName, rfl⟩ := Except.map_eq_ok_iff.mp (Option.some.inj hOk)
    exact ⟨.undef name (lineSpan first' rest'), by rw [undef?_of_forms h hName]; rfl, rfl, rfl⟩
  · exact ⟨fun _ => rfl, nofun⟩

end Directive

namespace Conditional

/-- What is known about a condition depends on the forms of the tokens. -/
theorem certainty_of_forms {body body' : List Token}
    (h : body.map Token.form = body'.map Token.form) : certainty body = certainty body' := by
  have hLexemes : ∀ ts : List Token, ts.map Token.lexeme = (ts.map Token.form).map (·.2.1) := by
    intro ts
    rw [List.map_map]
    rfl
  rw [certainty, certainty, hLexemes, hLexemes, h]

end Conditional

namespace Group

open Conditional

variable {g g' : Group} {groups groups' next : List Group} {c : Conditional}
  {body body' : List Token} {span : Span} {live live' isGuard isGuard' : Bool}

/-- The second group is as far as the first one, and no branch is taken in it that is not taken in
the first one: the two are alike, or a branch of the second one that is always taken was seen. -/
structure Hides (g g' : Group) : Prop where
  sawElse : g.sawElse = g'.sawElse
  branch : g.current = g'.current ∧ g.anyAlways = g'.anyAlways ∧ g.allNever = g'.allNever
    ∨ g'.anyAlways = true ∧ (g.current = .never → g'.current = .never)

theorem Hides.never (h : Hides g g') (hNever : g.current = .never) : g'.current = .never := by
  rcases h.branch with ⟨hSame, -⟩ | ⟨-, hHides⟩
  · rw [← hSame, hNever]
  · exact hHides hNever

theorem Hides.atElse (h : Hides g g') : Hides g.atElse g'.atElse := by
  refine ⟨rfl, ?_⟩
  rcases h.branch with ⟨-, hAny, hAll⟩ | ⟨hAny, -⟩
  · exact .inl (by simp [Group.atElse, hAny, hAll])
  · exact .inr (by simp [Group.atElse, hAny])

theorem sawElse_atBranch (g : Group) (known : Certainty) :
    (g.atBranch known).sawElse = g.sawElse := by
  unfold Group.atBranch
  split <;> rfl

theorem Hides.atBranch (h : Hides g g') (hAny : g'.anyAlways = false) (known : Certainty) :
    Hides (g.atBranch known) (g'.atBranch known) := by
  refine ⟨by rw [sawElse_atBranch, sawElse_atBranch, h.sawElse], .inl ?_⟩
  rcases h.branch with ⟨-, hSame, hAll⟩ | ⟨hAlways, -⟩
  · simp [Group.atBranch, hSame, hAny, hAll]
  · rw [hAny] at hAlways
    cases hAlways

/-- Behind a branch that is always taken, no other is. -/
theorem Hides.atBranch_of_always (h : Hides g g') (hAny : g'.anyAlways = true)
    (known known' : Certainty) : Hides (g.atBranch known) (g'.atBranch known') := by
  refine ⟨by rw [sawElse_atBranch, sawElse_atBranch, h.sawElse], .inr ?_⟩
  simp [Group.atBranch, hAny]

/-- A line that is not compiled is not compiled either inside groups that take fewer branches. -/
theorem disabled_of_hides {outer : Reachability} (h : List.Forall₂ Hides groups groups')
    (hDisabled : reachability groups outer = .disabled) :
    reachability groups' outer = .disabled := by
  unfold reachability at hDisabled ⊢
  split at hDisabled
  · rename_i hNever
    refine if_pos (hNever.imp_right fun hAny => ?_)
    obtain ⟨g, hg, hNever⟩ := List.any_eq_true.mp hAny
    obtain ⟨g', hg', hHides⟩ := h.exists_right hg
    exact List.any_eq_true.mpr ⟨g', hg', by rw [hHides.never (eq_of_beq hNever)]; rfl⟩
  · split at hDisabled <;> cases hDisabled

/-- What an opening directive starts. A group whose first branch is not known to be left out can
also be taken for an include guard. -/
theorem exists_opened (span' : Span) (hForms : body.map Token.form = body'.map Token.form)
    (hLive : live' = true → live = true)
    (hGuard : isGuard' = isGuard ∨ isGuard = false
      ∧ (c = .whenTrue → Conditional.certainty body = .ok .maybe))
      (h : opened c body span live isGuard = .ok g) :
    ∃ g', opened c body' span' live' isGuard' = .ok g' ∧ Hides g g' := by
  have hEmpty : body.isEmpty = body'.isEmpty := by
    rw [← List.isEmpty_map (f := Token.form), hForms, List.isEmpty_map]
  have hHead : body.head?.any (·.isIdentifier) = body'.head?.any (·.isIdentifier) := by
    match body, body', hForms with
    | [], [], _ => rfl
    | t :: ts, t' :: ts', h => exact Token.isIdentifier_of_form (List.cons.inj h).1
  obtain ⟨known, rfl, hKnown⟩ := Reading.opened_eq_ok h
  refine ⟨start c span'.line (if isGuard' then .always else known), ?_, ?_⟩
  · unfold opened at h ⊢
    dsimp only at h ⊢
    split at h
    · rename_i hCondition
      rw [if_pos hCondition] at hKnown ⊢
      split at h
      · cases h
      · rename_i hOperands
        rw [if_neg fun hNone => hOperands ?_]
        · rw [certainty, ← Conditional.certainty_of_forms hForms, hKnown]
          rfl
        · rw [Bool.and_eq_true] at hNone ⊢
          exact ⟨hLive hNone.1, hEmpty ▸ hNone.2⟩
    · rename_i hCondition
      rw [if_neg hCondition] at hKnown ⊢
      split at h
      · cases h
      · rename_i hName
        rw [if_neg fun hNone => hName ?_, hKnown]
        · rfl
        · rw [Bool.and_eq_true] at hNone ⊢
          exact ⟨hLive hNone.1, hHead ▸ hNone.2⟩
  · refine ⟨rfl, ?_⟩
    rcases hGuard with rfl | ⟨rfl, hCertainty⟩
    · exact .inl ⟨rfl, rfl, rfl⟩
    · have hMaybe : known = .maybe := by
        split at hKnown
        · rename_i hCondition
          rw [hCertainty hCondition] at hKnown
          exact (Except.ok.inj hKnown).symm
        · exact hKnown
      rw [hMaybe]
      cases isGuard' with
      | false => exact .inl ⟨rfl, rfl, rfl⟩
      | true => exact .inr ⟨rfl, nofun⟩

/-- A conditional directive that stays is read again, and the groups behind it hide no less. -/
theorem exists_next (span' : Span) (hForms : body.map Token.form = body'.map Token.form)
    (hGroups : List.Forall₂ Hides groups groups') (hLive : live' = true → live = true)
    (hGuard : isGuard' = isGuard ∨ isGuard = false
      ∧ (c = .whenTrue → Conditional.certainty body = .ok .maybe))
    (h : Group.next groups c body span live isGuard = .ok next) :
    ∃ next', Group.next groups' c body' span' live' isGuard' = .ok next'
    ∧ List.Forall₂ Hides next next' := by
  unfold Group.next at h ⊢
  split at h
  · rename_i hOpener
    rw [if_pos hOpener]
    obtain ⟨g, hOpened, rfl⟩ := Except.map_eq_ok_iff.mp h
    obtain ⟨g', hOpened', hHides⟩ := exists_opened span' hForms hLive hGuard hOpened
    exact ⟨g' :: groups', by rw [hOpened']; rfl, .cons hHides hGroups⟩
  rename_i hOpener
  rw [if_neg hOpener]
  cases hGroups with
  | nil => cases h
  | @cons g g' outer outer' hHides hOuter =>
      dsimp only at h ⊢
      split at h
      · rename_i hEnd
        rw [if_pos hEnd]
        cases h
        exact ⟨outer', rfl, hOuter⟩
      rename_i hEnd
      rw [if_neg hEnd]
      split at h
      · cases h
      rename_i hElse
      rw [if_neg (hHides.sawElse ▸ hElse)]
      split at h
      · rename_i hOtherwise
        rw [if_pos hOtherwise]
        cases h
        exact ⟨_, rfl, .cons hHides.atElse hOuter⟩
      rename_i hOtherwise
      rw [if_neg hOtherwise]
      cases hAny : g'.anyAlways with
      | true =>
          rw [Bool.true_or, if_pos rfl]
          refine ⟨_, rfl, ?_⟩
          split at h
          · cases h
            exact .cons (hHides.atBranch_of_always hAny _ _) hOuter
          · obtain ⟨known, -, rfl⟩ := Except.map_eq_ok_iff.mp h
            exact .cons (hHides.atBranch_of_always hAny _ _) hOuter
      | false =>
          have hSame : g.anyAlways = false := by
            rcases hHides.branch with ⟨-, hSame, -⟩ | ⟨hAlways, -⟩
            · rw [hSame, hAny]
            · rw [hAny] at hAlways
              cases hAlways
          rw [hSame] at h
          split at h
          · rename_i hBranch
            rw [if_pos hBranch]
            cases h
            exact ⟨_, rfl, .cons (hHides.atBranch hAny _) hOuter⟩
          · rename_i hBranch
            rw [if_neg hBranch]
            obtain ⟨known, hKnown, rfl⟩ := Except.map_eq_ok_iff.mp h
            rw [certainty, Conditional.certainty_of_forms hForms] at hKnown
            rw [certainty, hKnown]
            exact ⟨_, rfl, .cons (hHides.atBranch hAny known) hOuter⟩

end Group

end Demacro
