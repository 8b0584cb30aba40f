import Demacro.Directive
import Demacro.Proofs.Success

/-!
Which lines define a macro. A line is a definition if its name may be one and if what stands in
parentheses directly behind the name is a list of parameters; the grammar of these lists is told
apart from the way they are read.
-/

namespace Demacro.Directive

/-- Elements with a comma between each two of them. An element is a name; the last one may be an
ellipsis, or a name with an ellipsis directly behind it. -/
inductive ParameterRow : List Token → List String → Bool → Prop where
  | name {t : Token} (hName : t.isIdentifier = true) : ParameterRow [t] [t.spelling] false
  | ellipsis {e : Token} (hEllipsis : e.isPunct "..." = true) : ParameterRow [e] [] true
  | nameEllipsis {t e : Token} (hName : t.isIdentifier = true)
      (hEllipsis : e.isPunct "..." = true) : ParameterRow [t, e] [t.spelling] true
  | more {t comma : Token} {ts : List Token} {names : List String} {variadic : Bool}
      (hName : t.isIdentifier = true)
      (hComma : comma.isPunct "," = true) (rest : ParameterRow ts names variadic) :
      ParameterRow (t :: comma :: ts) (t.spelling :: names) variadic

/-- What may stand between the parentheses of a macro: the names of its parameters, all different,
and whether there is an ellipsis. -/
inductive ParameterList : List Token → List String → Bool → Prop where
  | empty : ParameterList [] [] false
  | row {ts : List Token} {names : List String} {variadic : Bool}
      (h : ParameterRow ts names variadic)
      (distinct : names.Nodup) : ParameterList ts names variadic

/-- A token that may be the name of a macro. -/
structure IsMacroName (t : Token) : Prop where
  isIdentifier : t.isIdentifier = true
  notDefined : t.isNamed "defined" = false

/-- A parenthesis opens a parameter list if no white space is in front of it. -/
def opensList (t : Token) : Bool :=
  t.isPunct "(" && !t.spaced

/-- What the tokens behind the keyword of a definition say: the name, the parameters and the
replacement. The list of parameters ends at the first closing parenthesis. -/
inductive Defines : List Token → String → Shape → List Token → Prop where
  | object {t : Token} {ts : List Token} (hName : IsMacroName t)
      (hAlone : ts.head?.any opensList = false) : Defines (t :: ts) t.spelling .object ts
  | function {t opening closing : Token} {inside replacement : List Token} {names : List String}
      {variadic : Bool}
      (hName : IsMacroName t) (hOpen : opensList opening = true)
      (hClose : closing.isPunct ")" = true)
      (hFirst : ∀ u ∈ inside, u.isPunct ")" = false) (hList : ParameterList inside names variadic) :
      Defines (t :: opening :: (inside ++ closing :: replacement)) t.spelling
        (.function names variadic) replacement

section

variable {t e comma closing first keyword : Token} {ts body inside rest : List Token}
  {names done : List String} {variadic expecting : Bool} {last : Span} {shape : Shape}
  {d : Definition}

theorem parameters_close (h : closing.isPunct ")" = true) :
    parameters last done variadic false (closing :: rest) = .ok (.function done variadic,
      rest) := by
  rw [parameters.eq_def]
  simp [h]

theorem parameters_empty (h : closing.isPunct ")" = true) :
    parameters last [] variadic true (closing :: rest) = .ok (.function [] variadic, rest) := by
  rw [parameters.eq_def]
  simp [h]

theorem parameters_ellipsis (h : e.isPunct "..." = true) :
    parameters last done false true (e :: ts) = parameters last done true false ts := by
  rw [parameters.eq_def]
  simp [h, Token.isPunct_eq_false h ")" (by decide)]

theorem parameters_name (hName : t.isIdentifier = true) (hNew : t.spelling ∉ done)
    (hNext : e.isPunct "..." = false) :
    parameters last done false true (t :: e :: ts) =
    parameters last (done ++ [t.spelling]) false false (e :: ts) := by
  rw [parameters.eq_def]
  simp [Token.not_isPunct_of_isIdentifier hName, hName, hNew, hNext]

theorem parameters_nameEllipsis (hName : t.isIdentifier = true) (hNew : t.spelling ∉ done)
    (hNext : e.isPunct "..." = true) :
    parameters last done false true (t :: e :: ts) =
    parameters last (done ++ [t.spelling]) true false ts := by
  rw [parameters.eq_def]
  simp [Token.not_isPunct_of_isIdentifier hName, hName, hNew, hNext]

theorem parameters_comma (h : comma.isPunct "," = true) :
    parameters last done false false (comma :: ts) = parameters last done false true ts := by
  rw [parameters.eq_def]
  simp [h, Token.isPunct_eq_false h ")" (by decide)]

theorem not_mem_of_nodup {name : String} (h : (done ++ name :: names).Nodup) : name ∉ done :=
  fun hMem => (List.nodup_append.mp h).2.2 name hMem name List.mem_cons_self rfl

theorem nodup_append_singleton {name : String} (h : done.Nodup) (hNew : name ∉ done) :
    (done ++ [name]).Nodup := by
  refine List.nodup_append.mpr ⟨h, by simp, ?_⟩
  rintro a ha _ hb rfl
  exact hNew (List.mem_singleton.mp hb ▸ ha)

/-- A row of new names is read to its end. -/
theorem ParameterRow.parameters_append (h : ParameterRow inside names variadic)
    (hClose : closing.isPunct ")" = true) (hNew : (done ++ names).Nodup) :
    parameters last done false true (inside ++ closing :: rest)
      = .ok (.function (done ++ names) variadic, rest) := by
  induction h generalizing done with
  | name hName =>
      rw [List.singleton_append, parameters_name hName (not_mem_of_nodup hNew)
        (Token.isPunct_eq_false hClose "..." (by decide)), parameters_close hClose]
  | ellipsis hEllipsis =>
      rw [List.singleton_append, parameters_ellipsis hEllipsis, parameters_close hClose,
        List.append_nil]
  | nameEllipsis hName hEllipsis =>
      rw [List.cons_append, List.singleton_append, parameters_nameEllipsis hName
        (not_mem_of_nodup hNew) hEllipsis, parameters_close hClose]
  | more hName hComma _ ih =>
      rw [List.cons_append, List.cons_append, parameters_name hName (not_mem_of_nodup hNew)
        (Token.isPunct_eq_false hComma "..." (by decide)), parameters_comma hComma]
      have hRest := ih (by rwa [← List.append_cons])
      rwa [← List.append_cons] at hRest

/-- What may still come in a list behind the names `done`, if an ellipsis was seen or not and if a
name must come or not. -/
inductive Remains (done : List String) : Bool → Bool → List Token → List String → Bool → Prop where
  | last {variadic : Bool} : Remains done variadic false [] [] variadic
  | empty (h : done = []) : Remains done false true [] [] false
  | row {ts : List Token} {names : List String} {v : Bool} (h : ParameterRow ts names v) :
      Remains done false true ts names v
  | more {comma : Token} {ts : List Token} {names : List String} {v : Bool}
      (hComma : comma.isPunct "," = true)
      (h : ParameterRow ts names v) : Remains done false false (comma :: ts) names v

/-- What is read as a list is one. Nothing follows an ellipsis, and a comma only follows a name. -/
theorem exists_of_parameters (hVariadic : variadic = true → expecting = false)
    (hDone : variadic = false → expecting = false → done ≠ [])
    (h : parameters last done variadic expecting ts = .ok (shape, rest)) :
    ∃ inside closing names v, ts = inside ++ closing :: rest ∧ closing.isPunct ")" = true
      ∧ shape = .function (done ++ names) v ∧ (done.Nodup → (done ++ names).Nodup)
      ∧ Remains done variadic expecting inside names v := by
  fun_induction parameters last done variadic expecting ts with
  | case3 done variadic expecting t ts hClose hEnd =>
      cases h
      refine ⟨[], t, [], variadic, rfl, hClose, by rw [List.append_nil], by simp, ?_⟩
      cases expecting with
      | false => exact .last
      | true =>
          have hNone : variadic = false := by simpa using hVariadic
          subst hNone
          exact .empty (by simpa using hEnd)
  | case5 done variadic t ts hClose hMore hEllipsis ih =>
      obtain rfl : variadic = false := by simpa using hMore
      obtain ⟨inside, closing, names, v, rfl, hEnd, rfl, hDistinct, hRemains⟩ :=
        ih (fun _ => rfl) nofun h
      cases hRemains
      exact ⟨[t], closing, [], true, rfl, hEnd, rfl, hDistinct, .row (.ellipsis hEllipsis)⟩
  | case7 done variadic t hClose hMore hOther hName hNew e ts hEllipsis ih =>
      obtain rfl : variadic = false := by simpa using hMore
      obtain ⟨inside, closing, names, v, rfl, hEnd, rfl, hDistinct, hRemains⟩ :=
        ih (fun _ => rfl) nofun h
      cases hRemains
      refine ⟨[t, e], closing, [t.spelling], true, rfl, hEnd,
        by rw [List.append_nil], fun hNodup => ?_, .row (.nameEllipsis hName hEllipsis)⟩
      exact nodup_append_singleton hNodup (by simpa using hNew)
  | case8 done variadic t hClose hMore hOther hName hNew e ts hEllipsis ih =>
      obtain rfl : variadic = false := by simpa using hMore
      obtain ⟨inside, closing, names, v, hTokens, hEnd, rfl, hDistinct, hRemains⟩ :=
        ih nofun (by simp) h
      refine ⟨t :: inside, closing, t.spelling :: names, v, by rw [hTokens, List.cons_append], hEnd,
        by rw [← List.append_cons], fun hNodup => ?_, .row ?_⟩
      · rw [List.append_cons]
        exact hDistinct (nodup_append_singleton hNodup (by simpa using hNew))
      · cases hRemains with
        | last => exact .name hName
        | more hComma hRow => exact .more hName hComma hRow
  | case11 done variadic expecting t ts hClose hMore hLast hComma ih =>
      obtain rfl : variadic = false := by simpa using hMore
      obtain rfl : expecting = false := by simpa using hLast
      obtain ⟨inside, closing, names, v, rfl, hEnd, rfl, hDistinct, hRemains⟩ := ih nofun nofun h
      refine ⟨t :: inside, closing, names, v, rfl, hEnd, rfl, hDistinct, ?_⟩
      cases hRemains with
      | empty hNone => exact absurd hNone (hDone rfl rfl)
      | row hRow => exact .more hComma hRow
  | _ => cases h

theorem ParameterRow.not_close (h : ParameterRow inside names variadic) :
    ∀ u ∈ inside, u.isPunct ")" = false := by
  induction h with
  | name hName => simpa using Token.not_isPunct_of_isIdentifier hName ")"
  | ellipsis hEllipsis => simpa using Token.isPunct_eq_false hEllipsis ")" (by decide)
  | nameEllipsis hName hEllipsis =>
      simpa using ⟨Token.not_isPunct_of_isIdentifier hName ")", Token.isPunct_eq_false hEllipsis ")"
        (by decide)⟩
  | more hName hComma _ ih =>
      rw [List.forall_mem_cons, List.forall_mem_cons]
      exact ⟨Token.not_isPunct_of_isIdentifier hName ")", Token.isPunct_eq_false hComma ")"
        (by decide), ih⟩

theorem ParameterList.not_close (h : ParameterList inside names variadic) :
    ∀ u ∈ inside, u.isPunct ")" = false := by
  cases h with
  | empty => simp
  | row h _ => exact h.not_close

/-- The reader accepts exactly the parameter lists. -/
theorem parameters_eq_ok_iff : parameters last [] false true ts = .ok (shape, rest) ↔
    ∃ inside closing names v, ts = inside ++ closing :: rest ∧ closing.isPunct ")" = true
      ∧ ParameterList inside names v ∧ shape = .function names v := by
  constructor
  · intro h
    obtain ⟨inside, closing, names, v, rfl, hClose, rfl, hDistinct, hRemains⟩ :=
      exists_of_parameters (by simp) (by simp) h
    refine ⟨inside, closing, names, v, rfl, hClose, ?_, by rw [List.nil_append]⟩
    cases hRemains with
    | empty => exact .empty
    | row hRow => exact .row hRow (by simpa using hDistinct)
  · rintro ⟨inside, closing, names, v, rfl, hClose, hList, rfl⟩
    cases hList with
    | empty => exact parameters_empty hClose
    | row hRow hDistinct => exact hRow.parameters_append hClose (by simpa using hDistinct)

theorem split_keyword (h : keyword.isIdentifier = true) :
    split (first :: keyword :: body) = (keyword.spelling, body) :=
  if_pos h

/-- What the line of a definition gives to a name. -/
theorem Defines.define?_eq (hKeyword : keyword.isIdentifier = true) {name : String}
    {replacement : List Token} (h : Defines body name shape replacement) :
    define? first (keyword :: body)
      = .ok ⟨name, lineSpan first (keyword :: body), shape, replacement⟩ := by
  unfold define?
  rw [split_keyword hKeyword]
  cases h with
  | object hName hAlone =>
      cases replacement with
      | nil => simp [hName.isIdentifier, hName.notDefined]
      | cons opening inner =>
          have hClosed : ¬ (opening.isPunct "(" && !opening.spaced) = true := by
            simpa [opensList] using hAlone
          simp only [hName.isIdentifier, hName.notDefined, Bool.not_true, Bool.false_eq_true,
            if_false, if_neg hClosed]
  | @function t opening closing inside replacement names variadic hName hOpen hClose _ hList =>
      have hOpen : (opening.isPunct "(" && !opening.spaced) = true := hOpen
      have hRead : parameters ((inside ++ closing :: replacement).getLastD opening).span
        [] false true
          (inside ++ closing :: replacement) = .ok (.function names variadic, replacement) :=
        parameters_eq_ok_iff.mpr ⟨inside, closing, names, variadic, rfl, hClose, hList, rfl⟩
      simp only [hName.isIdentifier, hName.notDefined, Bool.not_true, Bool.false_eq_true, if_false,
        if_pos hOpen, hRead]
      rfl

/-- What a line gives to a name is what its definition says. -/
theorem defines_of_define? (hKeyword : keyword.isIdentifier = true)
    (h : define? first (keyword :: body) = .ok d) : Defines body d.name d.shape d.replacement := by
  unfold define? at h
  rw [split_keyword hKeyword] at h
  dsimp only at h
  cases body with
  | nil => cases h
  | cons t ts =>
      dsimp only at h
      split at h
      · cases h
      rename_i hIdentifier
      split at h
      · cases h
      rename_i hReserved
      have hName : IsMacroName t := ⟨by simpa using hIdentifier, by simpa using hReserved⟩
      cases ts with
      | nil =>
          cases h
          exact .object hName rfl
      | cons opening inner =>
          dsimp only at h
          split at h
          · rename_i hOpen
            obtain ⟨⟨shape, replacement⟩, hRead, rfl⟩ := Except.map_eq_ok_iff.mp h
            obtain ⟨inside, closing, names, variadic, rfl, hClose, hList, rfl⟩ :=
              parameters_eq_ok_iff.mp hRead
            exact .function hName hOpen hClose hList.not_close hList
          · rename_i hAlone
            cases h
            exact .object hName (by simpa [opensList] using hAlone)

/-- A line defines a macro if and only if it is a definition in the sense of the grammar, and then
it gives to the name what the grammar says. Every other line is refused. -/
theorem define?_exact (hKeyword : keyword.isIdentifier = true) :
    (∀ d, define? first (keyword :: body) = .ok d ↔
      Defines body d.name d.shape d.replacement ∧ d.span = lineSpan first (keyword :: body))
      ∧ ((∃ e, define? first (keyword :: body) = .error e) ↔
        ∀ name shape replacement, ¬ Defines body name shape replacement) := by
  refine ⟨fun d => ⟨fun h => ⟨defines_of_define? hKeyword h, ?_⟩, fun ⟨hDefines, hSpan⟩ => ?_⟩, ?_,
    fun hNone => ?_⟩
  · have hSame := h.symm.trans ((defines_of_define? hKeyword h).define?_eq hKeyword)
    exact congrArg Definition.span (Except.ok.inj hSame)
  · rw [hDefines.define?_eq hKeyword, ← hSpan]
  · rintro ⟨e, h⟩ name shape replacement hDefines
    rw [hDefines.define?_eq hKeyword] at h
    cases h
  · cases h : define? first (keyword :: body) with
    | error e => exact ⟨e, rfl⟩
    | ok d => exact absurd (defines_of_define? hKeyword h) (hNone _ _ _)

end

/-- A text whose first two tokens and the others pass a test. -/
theorem exists_line_of_passes {x : Except ParseError (List Token)}
    (test : Token → Token → List Token → Bool) (h : x.passes (fun tokens => match tokens with
      | first :: keyword :: body => test first keyword body
      | _ => false) = true) :
    ∃ first keyword body, x = .ok (first :: keyword :: body) ∧ test first keyword body = true := by
  obtain ⟨tokens, rfl, hTest⟩ := Except.exists_of_passes _ h fun _ _ h => h
  split at hTest
  · exact ⟨_, _, _, rfl, hTest⟩
  · cases hTest

/-- A list that ends with a name and an ellipsis, and one that ends with a comma. -/
theorem define?_exact_ellipsis :
    (∃ first keyword body d, Token.ofText "f.cpp" "#define LOG(level, args...) f(level)"
      = .ok (first :: keyword :: body)
      ∧ keyword.isIdentifier = true ∧ define? first (keyword :: body) = .ok d
      ∧ d.shape = .function ["level", "args"] true ∧ Defines body d.name d.shape d.replacement)
    ∧ ∃ first keyword body, Token.ofText "f.cpp" "#define LOG(level, ) f(level)"
    = .ok (first :: keyword :: body)
      ∧ keyword.isIdentifier = true ∧ ∀ name shape replacement,
      ¬ Defines body name shape replacement := by
  constructor
  · obtain ⟨first, keyword, body, hTokens, hTest⟩ := exists_line_of_passes
      (x := Token.ofText "f.cpp" "#define LOG(level, args...) f(level)")
      (fun first keyword body => keyword.isIdentifier
        && (define? first (keyword :: body)).passes (·.shape == .function ["level", "args"] true))
          (by decide +kernel)
    rw [Bool.and_eq_true] at hTest
    obtain ⟨d, hRead, hShape⟩ := Except.exists_of_passes _ hTest.2 fun d _ h => eq_of_beq h
    exact ⟨first, keyword, body, d, hTokens, hTest.1, hRead, hShape,
      (((define?_exact hTest.1).1 d).mp hRead).1⟩
  · obtain ⟨first, keyword, body, hTokens, hTest⟩ := exists_line_of_passes
      (x := Token.ofText "f.cpp" "#define LOG(level, ) f(level)")
      (fun first keyword body => keyword.isIdentifier
        && !(define? first (keyword :: body)).passes fun _ => true) (by decide +kernel)
    rw [Bool.and_eq_true, Bool.not_eq_true'] at hTest
    have hRefused : ∃ e, define? first (keyword :: body) = .error e := by
      cases hRead : define? first (keyword :: body) with
      | error e => exact ⟨e, rfl⟩
      | ok d => simp [hRead, Except.passes] at hTest
    exact ⟨first, keyword, body, hTokens, hTest.1, (define?_exact hTest.1).2.mp hRefused⟩

end Demacro.Directive
