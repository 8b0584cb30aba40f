import Demacro.Proofs.Lexing.Derivation
import Demacro.Proofs.Rewriting.Rescan
import Demacro.Proofs.Edit
import Demacro.Proofs.Spacing

/-!
Edits that are attached to what they change: a whole directive, a name in the code, or the end of a
statement. Making such edits gives a text that is changed piece by piece.
-/

namespace Demacro

open Piece Token

/-- The token stands in code that is to come at a place, if `tokens` are to come there. -/
def Mode.IsCode (m : Mode) (tokens : List Token) (t : Token) : Prop :=
  m = .line false ∧ t ∈ tokens.takeWhile continues
    ∨ ∃ line ∈ logicalLines (tokens.dropWhile continues), Directive.isLine line = false ∧ t ∈ line

/-- The text can take the place of a name: it is the name behind a qualifier, or another name where
no token but an opening parenthesis follows on the line. -/
inductive Respells (all : List Token) (t : Token) : Text → Prop where
  | qualified {q : Text} (hPlain : IsPlain q) (hHead : ∃ c ∈ q.head?, isWord c = true)
      (hLast : q.getLast? = some (.char ':')) : Respells all t (q ++ t.lexeme)
  | renamed {v : Text} (hPlain : IsPlain v) (hHead : ∃ c ∈ v.head?, isWord c = true)
      (hLast : ∀ a ∈ v.getLast?, a.satisfies (['/', '\\', '\r'].contains ·) = false)
      (hNext : ∀ u, [t, u] <:+: all → u.isPunct "(" = true ∨ u.atLineStart = true) : Respells all t
      v

/-- The edit changes something that is to come: it gives a directive up for lines of code or for
nothing, respells a name, or inserts lines of code behind a statement. -/
inductive Edit.Attached (all tokens : List Token) (m : Mode) (e : Edit) : Prop where
  | directive {t : Token} {ts : List Token}
      (hLine : t :: ts ∈ logicalLines (tokens.dropWhile continues))
      (hHash : t.isPunct "#" = true) (hStart : e.start = t.span.start)
      (hStop : e.stop = (ts.getLastD t).span.stop)
      (hText : e.text = [] ∨ ∀ r, Passes true (e.text ++ r) r)
  | name {t : Token} (hCode : m.IsCode tokens t) (hIdentifier : t.isIdentifier = true)
      (hStart : e.start = t.span.start)
      (hStop : e.stop = t.span.stop) (hText : Respells all t e.text)
  | inserted {t : Token} {w : Text} (hCode : m.IsCode tokens t) (hSemicolon : t.isPunct ";" = true)
      (hStart : e.start = t.span.stop) (hStop : e.stop = t.span.stop)
      (hText : e.text = .char '\n' :: w) (hPasses : ∀ r, Passes true (w ++ r) r)

/-- The lines that edits change as a whole. -/
def IsGone (edits : List Edit) : List Token → Prop
  | [] => False
  | t :: ts => ∃ e ∈ edits, e.start = t.span.start ∧ e.stop = (ts.getLastD t).span.stop

instance (edits : List Edit) : DecidablePred (IsGone edits)
  | [] => inferInstanceAs (Decidable False)
  | t :: ts =>
      inferInstanceAs
        (Decidable (∃ e ∈ edits, e.start = t.span.start ∧ e.stop = (ts.getLastD t).span.stop))

/-- The flags of the next token are those of the place, and the tokens to come are as it says. -/
def Mode.Matches (start spaced : Bool) (tokens : List Token) : Mode → Prop
  | .line true => ∀ x ∈ tokens.head?, x.atLineStart = true
  | .line false => start = false
  | .directive flag operands =>
      start = false ∧ flag = spaced ∧ operands = (tokens.takeWhile continues).map form

/-- The edits that are still to be made at a place. -/
structure Pending (all : List Token) (edits : List Edit) (m : Mode) (p : Cursor)
    (tokens : List Token) (es : List Edit) : Prop where
  suffix : tokens <:+ all
  order : es.Pairwise Edit.Precedes
  attached : ∀ e ∈ es, e.Attached all tokens m
  subset : ∀ e ∈ es, e ∈ edits
  rest : ∀ e ∈ edits, e ∈ es ∨ e.stop ≤ p.offset

variable {all tokens ts : List Token} {edits es : List Edit} {m m' : Mode} {p : Cursor}
  {path : String} {start spaced : Bool} {t tok : Token} {text x r : Text} {e : Edit}
  {kind : TokenKind}

theorem Mode.IsCode.mem (h : m.IsCode tokens t) : t ∈ tokens := by
  rcases h with ⟨-, ht⟩ | ⟨line, hLine, -, ht⟩
  · exact (List.takeWhile_prefix _).subset ht
  · exact (List.dropWhile_suffix _).subset (mem_of_mem_logicalLines hLine ht)

theorem Mode.isCode_of_line {line : List Token}
    (hLine : line ∈ logicalLines (tokens.dropWhile continues))
    (hPlain : Directive.isLine line = false) (ht : t ∈ line) : m.IsCode tokens t :=
  .inr ⟨line, hLine, hPlain, ht⟩

theorem Edit.Attached.imp (h : e.Attached all tokens m)
    (hLines : ∀ line ∈ logicalLines (tokens.dropWhile continues), Directive.isLine line = true →
      line ∈ logicalLines (ts.dropWhile continues))
      (hCode : ∀ t, m.IsCode tokens t → m'.IsCode ts t) :
    e.Attached all ts m' := by
  cases h with
  | directive hLine hHash hStart hStop hText =>
      exact .directive (hLines _ hLine (by simpa [Directive.isLine] using hHash)) hHash hStart
        hStop hText
  | name ht hIdentifier hStart hStop hText =>
      exact .name (hCode _ ht) hIdentifier hStart hStop hText
  | inserted ht hSemicolon hStart hStop hText hPasses =>
      exact .inserted (hCode _ ht) hSemicolon hStart hStop hText hPasses

/-- A line takes some room behind the place where it starts. -/
theorem lt_of_line (hTokens : Lexed path p start spaced text tokens)
    (hLine : t :: ts ∈ logicalLines (tokens.dropWhile continues)) :
    p.offset ≤ t.span.start ∧ t.span.stop ≤ (ts.getLastD t).span.stop
    ∧ t.span.start < t.span.stop := by
  obtain ⟨hPlaces, hOrder⟩ := apart_of_ofTextAt hTokens.ofTextAt_eq_ok
  have hSublist : (t :: ts).Sublist tokens := by
    have hPart := List.sublist_flatten_of_mem hLine
    rw [flatten_logicalLines] at hPart
    exact hPart.trans (List.dropWhile_sublist _)
  have ht := hPlaces t (hSublist.subset List.mem_cons_self)
  refine ⟨ht.1, ?_, ht.2⟩
  cases ts with
  | nil => exact Nat.le_refl _
  | cons u us =>
      have hLast : (u :: us).getLastD t ∈ u :: us := by
        rw [List.getLastD_cons]
        exact List.getLastD_mem_cons
      have hBehind := (List.pairwise_cons.mp (hOrder.sublist hSublist)).1 _ hLast
      have hRoom := (hPlaces _ (hSublist.subset (List.mem_cons_of_mem t hLast))).2
      omega

/-- An edit takes place where a token does. -/
theorem Edit.Attached.place (h : e.Attached all tokens m)
    (hTokens : Lexed path p start spaced text tokens) : p.offset ≤ e.start ∧ e.start ≤ e.stop := by
  obtain ⟨hPlaces, -⟩ := apart_of_ofTextAt hTokens.ofTextAt_eq_ok
  cases h with
  | directive hLine hHash hStart hStop hText =>
      have hRoom := lt_of_line hTokens hLine
      omega
  | name ht hIdentifier hStart hStop hText =>
      have hRoom := hPlaces _ ht.mem
      omega
  | inserted ht hSemicolon hStart hStop =>
      have hRoom := hPlaces _ ht.mem
      omega

/-- Among edits in order, those that nothing precedes come first. -/
theorem exists_head {P Q : Edit → Prop} (hOrder : es.Pairwise Edit.Precedes)
    (hAll : ∀ e ∈ es, P e ∨ Q e) (hClash : ∀ d ∈ es, ∀ e, d.Precedes e → ¬P e) :
    (∀ e ∈ es, Q e) ∨ ∃ e es', es = e :: es' ∧ P e ∧ ∀ e' ∈ es', Q e' := by
  cases es with
  | nil => exact .inl (by simp)
  | cons e es =>
      have hRest : ∀ e' ∈ es, Q e' := fun e' he' =>
        (hAll e' (List.mem_cons_of_mem e he')).resolve_left
          (hClash e List.mem_cons_self e' ((List.pairwise_cons.mp hOrder).1 e' he'))
      rcases hAll e List.mem_cons_self with hHere | hBehind
      · exact .inr ⟨e, es, rfl, hHere, hRest⟩
      · exact .inl (List.forall_mem_cons.mpr ⟨hBehind, hRest⟩)

/-- The edit changes the token in front, or inserts behind it. -/
inductive Edit.IsAt (all : List Token) (t : Token) (e : Edit) : Prop where
  | name (hIdentifier : t.isIdentifier = true) (hStart : e.start = t.span.start)
      (hStop : e.stop = t.span.stop) (hText : Respells all t e.text)
  | inserted {w : Text} (hSemicolon : t.isPunct ";" = true) (hStart : e.start = t.span.stop)
      (hStop : e.stop = t.span.stop) (hText : e.text = .char '\n' :: w)
      (hPasses : ∀ r, Passes true (w ++ r) r)

/-- The lines behind a token that is no directive. -/
theorem lines_of_code (hFlag : tok.atLineStart = start) :
    logicalLines ((tok :: ts).dropWhile continues) = if start then
      (tok :: ts.takeWhile continues) :: logicalLines (ts.dropWhile continues)
    else logicalLines (ts.dropWhile continues) := by
  subst hFlag
  cases hStart : tok.atLineStart with
  | true => rw [List.dropWhile_cons_of_neg (by simp [continues, hStart]), logicalLines_cons,
      if_pos rfl]
  | false => rw [List.dropWhile_cons_of_pos (by simp [continues, hStart]),
      if_neg Bool.false_ne_true]

/-- An edit of what is to come is at the token in front or behind it. -/
theorem Edit.Attached.of_code (h : e.Attached all (tok :: ts) (.line start))
    (hFlag : tok.atLineStart = start) (hHash : start = true → tok.isPunct "#" = false) :
    e.IsAt all tok ∨ e.Attached all ts (.line false) := by
  have hLines := @lines_of_code ts start tok hFlag
  have hCode : ∀ t, (Mode.line start).IsCode (tok :: ts) t →
      t = tok ∨ (Mode.line false).IsCode ts t := by
    rintro t (⟨hMode, ht⟩ | ⟨line, hLine, hPlain, ht⟩)
    · obtain rfl : start = false := by simpa using hMode
      rw [List.takeWhile_cons_of_pos (by simp [continues, hFlag])] at ht
      exact (List.mem_cons.mp ht).imp_right fun ht => .inl ⟨rfl, ht⟩
    · rw [hLines] at hLine
      split at hLine
      · rcases List.mem_cons.mp hLine with rfl | hLine
        · exact (List.mem_cons.mp ht).imp_right fun ht => .inl ⟨rfl, ht⟩
        · exact .inr (Mode.isCode_of_line hLine hPlain ht)
      · exact .inr (Mode.isCode_of_line hLine hPlain ht)
  cases h with
  | @directive u us hLine hPunct hStart hStop hText =>
      refine .inr (.directive ?_ hPunct hStart hStop hText)
      rw [hLines] at hLine
      split at hLine
      · rename_i hStarts
        rcases List.mem_cons.mp hLine with hSame | hLine
        · obtain ⟨rfl, rfl⟩ := List.cons.inj hSame
          rw [hHash hStarts] at hPunct
          cases hPunct
        · exact hLine
      · exact hLine
  | name ht hIdentifier hStart hStop hText =>
      rcases hCode _ ht with rfl | ht
      · exact .inl (.name hIdentifier hStart hStop hText)
      · exact .inr (.name ht hIdentifier hStart hStop hText)
  | inserted ht hSemicolon hStart hStop hText hPasses =>
      rcases hCode _ ht with rfl | ht
      · exact .inl (.inserted hSemicolon hStart hStop hText hPasses)
      · exact .inr (.inserted ht hSemicolon hStart hStop hText hPasses)

/-- Only the first edit can be at the token in front. -/
theorem Edit.not_isAt_of_precedes {d : Edit} (hTokens : Lexed path p start spaced text (tok :: ts))
    {q : Cursor} {text' : Text} {start' spaced' : Bool}
    (hBehind : Lexed path q start' spaced' text' ts) (hOffset : q.offset = tok.span.stop)
    (hd : d.IsAt all tok ∨ d.Attached all ts m) (h : d.Precedes e) : ¬e.IsAt all tok := by
  have hRoom := ((apart_of_ofTextAt hTokens.ofTextAt_eq_ok).1 tok List.mem_cons_self).2
  obtain ⟨hLe, hApart⟩ := h
  have hStop : (tok.span.stop : Int) ≤ d.stop := by
    rcases hd with hHere | hLater
    · cases hHere with
      | name _ _ hStop _ => omega
      | inserted _ _ hStop => omega
    · have hPlace := hLater.place hBehind
      omega
  intro hAt
  cases hAt with
  | name _ hStart _ _ => omega
  | inserted hSemicolon hStart hStop' =>
      rcases hd with hHere | hLater
      · cases hHere with
        | name hIdentifier _ _ _ =>
            rw [not_isPunct_of_isIdentifier hIdentifier] at hSemicolon
            cases hSemicolon
        | inserted _ hStart'' => exact hApart ⟨by omega, by omega⟩
      · have hPlace := hLater.place hBehind
        exact hApart ⟨by omega, by omega⟩

/-- A character that nothing in front of it goes on with. -/
def IsApart (c : SourceChar) : Prop :=
  isHard c = true ∧ isInner c = false

theorem isApart_of_blank (hFirst : first text = .ok (.blank, x.length)) :
    ∀ c ∈ text.head?, IsApart c := by
  have hFixed : ∀ c ∈ ['\\', '/', ' ', '\t', '\r', '\x0c', '\x0b', '\ufeff'],
      IsApart (.char c) := by
    unfold IsApart
    exact List.forall_mem_of_all (by decide +kernel)
  intro c hc
  by_cases hSpace : c.satisfies isHorizontalSpace = true
  · cases c with
    | byte b => cases hSpace
    | char c =>
        simp only [SourceChar.satisfies, isHorizontalSpace, Bool.or_eq_true, beq_iff_eq] at hSpace
        rcases hSpace with ((((rfl | rfl) | rfl) | rfl) | rfl) | rfl <;> exact hFixed _ (by simp)
  · obtain ⟨t, rfl⟩ := List.head?_eq_some_iff.mp hc
    unfold first at hFirst
    split at hFirst
    · rename_i hText
      obtain ⟨rfl, -⟩ := List.cons.inj hText
      exact hFixed _ (by simp)
    · rename_i hText
      obtain ⟨rfl, -⟩ := List.cons.inj hText
      exact hFixed _ (by simp)
    · cases hFirst
    · rename_i hText
      obtain ⟨rfl, -⟩ := List.cons.inj hText
      exact hFixed _ (by simp)
    · rename_i hText
      obtain ⟨rfl, -⟩ := List.cons.inj hText
      exact hFixed _ (by simp)
    · rw [List.head?_cons, Option.any_some, if_neg hSpace] at hFirst
      obtain ⟨found, -, hEq⟩ := Except.map_eq_ok_iff.mp hFirst
      cases hEq

theorem primarySpelling_eq {spelling : Text} (h : primarySpelling x = spelling)
    (hOther : ∀ d ∈ digraphs, Text.ofString d.2 ≠ spelling) : x = spelling := by
  unfold primarySpelling at h
  split at h
  · rename_i d hFound
    exact absurd h (hOther d (List.mem_of_find?_eq_some hFound))
  · exact h

theorem eq_of_isPunct {s : Span} {spelling : String}
    (h : (Token.mk kind (lexemeOf kind x) s start spaced).isPunct spelling = true)
    (hOther : ∀ d ∈ digraphs, Text.ofString d.2 ≠ Text.ofString spelling) :
    x = Text.ofString spelling := by
  simp only [isPunct, Bool.and_eq_true, beq_iff_eq] at h
  rw [lexemeOf, if_pos h.1] at h
  exact primarySpelling_eq h.2 hOther

/-- Where at most an opening parenthesis follows on the line, nothing joins what comes. -/
theorem isApart_of_next (hBehind : Lexed path p false spaced r ts)
    (hNext : ∀ u ∈ ts.head?, u.isPunct "(" = true ∨ u.atLineStart = true) :
    ∀ c ∈ r.head?, IsApart c := by
  cases hBehind with
  | done => simp
  | lineEnd =>
      intro c hc
      obtain rfl := Option.some.inj hc
      exact ⟨by decide +kernel, by decide +kernel⟩
  | blank hFirst => exact isApart_of_blank hFirst
  | token hFirst h =>
      rcases hNext _ rfl with hOpen | hStart
      · obtain rfl := eq_of_isPunct hOpen (by decide)
        intro c hc
        obtain rfl := Option.some.inj hc
        exact ⟨by decide +kernel, by decide +kernel⟩
      · cases hStart

/-- What nothing joins stays so when the text changes. -/
theorem isApart_of_woven {rows : List Row} {r' : Text} (h : Woven (.line false) r r' rows)
    (hApart : ∀ c ∈ r.head?, IsApart c) : ∀ c ∈ r'.head?, IsApart c := by
  obtain ⟨u, s, s', rfl, rfl, hParting⟩ := h.exists_common rfl
  cases u with
  | cons c u => exact hApart
  | nil =>
      cases hParting with
      | ended => simp
      | lineEnd =>
          intro c hc
          obtain rfl := Option.some.inj hc
          exact ⟨by decide +kernel, by decide +kernel⟩
      | written _ _ _ hWord _ =>
          obtain ⟨c, hc, hWord⟩ := hWord
          have hNone := isWord_eq_false_of_isHard (hApart c hc).1
          rw [hWord] at hNone
          cases hNone

theorem isWord_of_identifier (hFirst : first (x ++ r) = .ok (.token .identifier, x.length)) :
    (∀ c ∈ x, isWord c = true) ∧ ∃ c ∈ x.head?, isWord c = true := by
  have hAll := isWord_of_identifierLength? (identifierLength?_of_first hFirst)
  rw [List.take_left] at hAll
  obtain ⟨c, y, rfl⟩ := exists_head_of_first hFirst
  exact ⟨hAll, c, rfl, hAll c List.mem_cons_self⟩

/-- A name gives way to another spelling of it. -/
theorem woven_of_respells {rows : List Row} {r' v : Text} {s : Span}
    (hFirst : first (x ++ r) = .ok (.token .identifier, x.length))
    (hBehind : Lexed path p false false r ts)
    (hSuffix : Token.mk .identifier x s start spaced :: ts <:+ all)
    (hText : Respells all (.mk .identifier x s start spaced) v)
    (h : Woven (.line false) r r' (none :: rows)) :
    Woven (.line start) (x ++ r) (v ++ r') (none :: rows) := by
  obtain ⟨hNames, c, hc, hWord⟩ := isWord_of_identifier hFirst
  have hHeadWord : ∀ r : Text, (x ++ r).head? = some c := by
    intro r
    rw [List.head?_append, Option.mem_def.mp hc]
    rfl
  cases hText with
  | @qualified q hPlain hHead hLast =>
      have hMeets : Meets q (x ++ r') := by
        refine ⟨fun a ha => ?_, fun b hb => ?_, fun b hb => ?_⟩
        · obtain rfl := Option.some.inj (hLast.symm.trans ha)
          rfl
        · obtain rfl := Option.some.inj ((hHeadWord r').symm.trans hb)
          simpa [isLoose] using And.left (by simpa [isLoose] using isLoose_of_isWord hWord)
        · obtain rfl := Option.some.inj ((hHeadWord r').symm.trans hb)
          exact .inr ⟨hLast, hWord⟩
      rw [List.append_assoc]
      exact .written (x := []) hPlain hHead hMeets (by simp) ⟨c, hHeadWord r, hWord⟩
        (.code hFirst (fun hStart => absurd hStart Bool.false_ne_true) h)
  | renamed hPlain hHead hLast hNext =>
      have hApart := isApart_of_woven h (isApart_of_next hBehind fun u hu => hNext u ?_)
      · exact .written hPlain hHead ⟨hLast, fun c hc => (hApart c hc).2,
          fun c hc => .inl (hApart c hc).1⟩ hNames ⟨c, hHeadWord r, hWord⟩ h
      · obtain ⟨us, rfl⟩ := List.head?_eq_some_iff.mp hu
        exact (List.prefix_append [_, u] us).isInfix.trans hSuffix.isInfix

end Demacro
