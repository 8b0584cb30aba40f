import Demacro.Proofs.Rewriting.Attachment
import Mathlib.Data.List.DropRight

/-!
Reading a text again after edits that are attached to its tokens. The edits are made on the way
through the tokens, so that the changed text comes out piece by piece.
-/

namespace Demacro

open Piece Token

variable {all tokens ts : List Token} {edits es : List Edit} {m m' : Mode} {p q : Cursor}
  {path : String} {start spaced : Bool} {operands : List Form} {t tok : Token} {text x r : Text}
  {e : Edit} {kind : TokenKind}

/-- The rows of the lines that start behind a place, if the edits are made. -/
def rowsOf (edits : List Edit) (tokens : List Token) : List Row :=
  (logicalLines (tokens.dropWhile continues)).map (rowOf (IsGone edits))

theorem Pending.skip (h : Pending all edits m p tokens es) (hSuffix : ts <:+ tokens)
    (hOffset : p.offset ≤ q.offset) (hAttached : ∀ e ∈ es, e.Attached all ts m') :
    Pending all edits m' q ts es where
  suffix := hSuffix.trans h.suffix
  order := h.order
  attached := hAttached
  subset := h.subset
  rest e he := (h.rest e he).imp_right fun hStop => hStop.trans (Int.ofNat_le.mpr hOffset)

theorem Pending.make (h : Pending all edits m p tokens (e :: es)) (hSuffix : ts <:+ tokens)
    (hOffset : p.offset ≤ q.offset) (hStop : e.stop ≤ q.offset)
    (hAttached : ∀ e ∈ es, e.Attached all ts m') : Pending all edits m' q ts es where
  suffix := hSuffix.trans h.suffix
  order := h.order.of_cons
  attached := hAttached
  subset d hd := h.subset d (List.mem_cons_of_mem e hd)
  rest d hd := by
    rcases h.rest d hd with hd | hPassed
    · rcases List.mem_cons.mp hd with rfl | hd
      · exact .inr hStop
      · exact .inl hd
    · exact .inr (hPassed.trans (Int.ofNat_le.mpr hOffset))

/-- What comes behind a text with edits that are all behind it. -/
theorem Edit.weave_of_attached (h : ∀ e ∈ es, e.Attached all ts m)
    (hBehind : Lexed path (p.past x) start spaced r ts) :
    Edit.weave p.offset es (x ++ r) = x ++ Edit.weave (p.past x).offset es r := by
  rw [Cursor.offset_past]
  refine Edit.weave_append fun e he => ?_
  rw [← Cursor.offset_past]
  exact (h e he).place hBehind

theorem Edit.Attached.lt_stop (h : e.Attached all tokens m)
    (hTokens : Lexed path p start spaced text tokens) : (p.offset : Int) < e.stop := by
  obtain ⟨hPlaces, -⟩ := apart_of_ofTextAt hTokens.ofTextAt_eq_ok
  cases h with
  | directive hLine hHash hStart hStop hText =>
      have hRoom := lt_of_line hTokens hLine
      omega
  | name ht hIdentifier hStart hStop hText =>
      have hRoom := hPlaces _ ht.mem
      omega
  | inserted ht hSemicolon hStart hStop =>
      have hRoom := hPlaces _ ht.mem
      omega

theorem Edit.Attached.ne_nil (h : e.Attached all tokens m) : tokens ≠ [] := by
  rintro rfl
  cases h with
  | directive hLine => cases hLine
  | name ht => cases ht.mem
  | inserted ht => cases ht.mem

/-- The edit gives the directive up that starts with the token. -/
structure Edit.GivesUp (tok : Token) (ts : List Token) (e : Edit) : Prop where
  start : e.start = tok.span.start
  stop : e.stop = ((ts.takeWhile continues).getLastD tok).span.stop
  text : e.text = [] ∨ ∀ r, Passes true (e.text ++ r) r

/-- An edit of what is to come gives the directive in front up or is behind it. -/
theorem Edit.Attached.of_directive (h : e.Attached all (tok :: ts) (.line true))
    (hFlag : tok.atLineStart = true) (hHash : tok.isPunct "#" = true) :
    e.GivesUp tok ts ∨ e.Attached all ts (.directive spaced operands) := by
  have hLines : logicalLines ((tok :: ts).dropWhile continues)
      = (tok :: ts.takeWhile continues) :: logicalLines (ts.dropWhile continues) := by
    rw [lines_of_code hFlag, if_pos rfl]
  have hCode : ∀ t, (Mode.line true).IsCode (tok :: ts) t →
      (Mode.directive spaced operands).IsCode ts t := by
    rintro t (⟨hMode, -⟩ | ⟨line, hLine, hPlain, ht⟩)
    · cases hMode
    · rw [hLines] at hLine
      rcases List.mem_cons.mp hLine with rfl | hLine
      · rw [Directive.isLine, List.head?_cons, Option.any_some, hHash] at hPlain
        cases hPlain
      · exact Mode.isCode_of_line hLine hPlain ht
  cases h with
  | directive hLine hPunct hStart hStop hText =>
      rw [hLines] at hLine
      rcases List.mem_cons.mp hLine with hSame | hLine
      · obtain ⟨rfl, rfl⟩ := List.cons.inj hSame
        exact .inl ⟨hStart, hStop, hText⟩
      · exact .inr (.directive hLine hPunct hStart hStop hText)
  | name ht hIdentifier hStart hStop hText =>
      exact .inr (.name (hCode _ ht) hIdentifier hStart hStop hText)
  | inserted ht hSemicolon hStart hStop hText hPasses =>
      exact .inr (.inserted (hCode _ ht) hSemicolon hStart hStop hText hPasses)

/-- Behind the line of a directive, no token is left of it. -/
theorem Edit.Attached.behind_line (h : e.Attached all ts (.directive spaced operands)) :
    e.Attached all (ts.dropWhile continues) m := by
  have hSame : (ts.dropWhile continues).dropWhile continues = ts.dropWhile continues :=
    List.dropWhile_idempotent _ ts
  refine h.imp (fun line hLine _ => by rwa [hSame]) fun t ht => ?_
  rcases ht with ⟨hMode, -⟩ | ht
  · cases hMode
  · exact .inr (by rwa [hSame])

theorem line_mem (hFlag : tok.atLineStart = true) :
    tok :: ts.takeWhile continues ∈ logicalLines ((tok :: ts).dropWhile continues) := by
  rw [lines_of_code hFlag, if_pos rfl]
  exact List.mem_cons_self

/-- A line is gone exactly if an edit of all of it is still to be made. -/
theorem Pending.isGone_iff (h : Pending all edits m p (tok :: ts) es)
    (hFlag : tok.atLineStart = true) (hTokens : Lexed path p start spaced text (tok :: ts)) :
    IsGone edits (tok :: ts.takeWhile continues) ↔ ∃ e ∈ es, e.start = tok.span.start
      ∧ e.stop = ((ts.takeWhile continues).getLastD tok).span.stop := by
  have hRoom := lt_of_line hTokens (line_mem hFlag)
  constructor
  · rintro ⟨e, he, hStart, hStop⟩
    refine ⟨e, (h.rest e he).resolve_right fun hPassed => ?_, hStart, hStop⟩
    omega
  · rintro ⟨e, he, hPlace⟩
    exact ⟨e, h.subset e he, hPlace⟩

theorem Mode.close_directive (rows : List Row) :
    (Mode.directive spaced operands).close rows = rows := rfl

theorem Mode.close_start (rows : List Row) : (Mode.line true).close rows = rows := rfl

theorem Mode.close_inside (rows : List Row) : (Mode.line false).close rows = none :: rows := rfl

theorem matches_of_line (b : Bool) :
    (Mode.line b).Matches false spaced (ts.dropWhile continues) := by
  cases b with
  | false => rfl
  | true =>
      intro x hx
      have hContinues := List.head?_dropWhile_not continues ts
      rw [Option.mem_def.mp hx] at hContinues
      simpa [continues] using hContinues

theorem dropWhile_of_continues (h : tok.atLineStart = false) :
    (tok :: ts).dropWhile continues = ts.dropWhile continues :=
  List.dropWhile_cons_of_pos (by simp [continues, h])

theorem rowsOf_of_continues (h : tok.atLineStart = false) :
    rowsOf edits (tok :: ts) = rowsOf edits ts := by
  rw [rowsOf, dropWhile_of_continues h]
  rfl

theorem rowsOf_of_start (h : tok.atLineStart = true) :
    rowsOf edits (tok :: ts) = rowOf (IsGone edits) (tok :: ts.takeWhile continues)
    :: rowsOf edits ts := by
  rw [rowsOf, lines_of_code h, if_pos rfl]
  rfl

theorem rowsOf_dropWhile : rowsOf edits (ts.dropWhile continues) = rowsOf edits ts := by
  rw [rowsOf, List.dropWhile_idempotent]
  rfl

theorem Edit.IsAt.stop_le (h : e.IsAt all tok) (hStop : tok.span.stop = q.offset) :
    e.stop ≤ q.offset := by
  cases h with
  | name _ _ hStop' _ => omega
  | inserted _ _ hStop' => omega

section Token

variable {s : Span}

/-- A token of a line of code, with the edit that is made there. -/
theorem Pending.woven_code (hFirst : first (x ++ r) = .ok (.token kind, x.length))
    (hTokens : Lexed path p start spaced (x ++ r) (tok :: ts))
    (hBehind : Lexed path (p.past x) false false r ts)
    (hTok : tok = ⟨kind, lexemeOf kind x, s, start, spaced⟩) (hStart : tok.span.start = p.offset)
    (hStop : tok.span.stop = (p.past x).offset) (hHash : start = true → ¬IsHash kind x)
    (h : Pending all edits (.line start) p (tok :: ts) es)
    (hRest : ∀ es', Pending all edits (.line false) (p.past x) ts es' →
      Woven (.line false) r (Edit.weave (p.past x).offset es' r) (none :: rowsOf edits ts)) :
    Woven (.line start) (x ++ r) (Edit.weave p.offset es (x ++ r)) (none :: rowsOf edits ts) := by
  have hOffset : p.offset ≤ (p.past x).offset := by
    rw [Cursor.offset_past]
    omega
  have hSuffix : ts <:+ tok :: ts := List.suffix_cons tok ts
  have hFlag : tok.atLineStart = start := by
    rw [hTok]
  have hNoHash : start = true → tok.isPunct "#" = false := fun hStart =>
    Bool.eq_false_iff.mpr fun hPunct => hHash hStart (isPunct_hash_iff.mp (hTok ▸ hPunct))
  have hSplit : ∀ e ∈ es, e.IsAt all tok ∨ e.Attached all ts (.line false) := fun e he =>
    (h.attached e he).of_code hFlag hNoHash
  rcases exists_head h.order hSplit fun d hd e hPrecedes =>
    Edit.not_isAt_of_precedes hTokens hBehind hStop.symm (hSplit d hd) hPrecedes with hBehindAll
      | ⟨e, es, rfl, hAt, hLater⟩
  · rw [Edit.weave_of_attached hBehindAll hBehind]
    exact .code hFirst hHash (hRest es (h.skip hSuffix hOffset hBehindAll))
  · have hMade := hRest es (h.make hSuffix hOffset (hAt.stop_le hStop) hLater)
    cases hAt with
    | name hIdentifier hFrom hTo hText =>
        obtain rfl : kind = .identifier := by simpa [hTok, isIdentifier] using hIdentifier
        rw [Edit.weave_cons (by omega) (by rw [hTo, hStop, Cursor.offset_past]),
          ← Cursor.offset_past]
        subst hTok
        exact woven_of_respells hFirst hBehind h.suffix hText hMade
    | @inserted w hSemicolon hFrom hTo hText hPasses =>
        obtain rfl : x = [.char ';'] := by
          subst hTok
          exact eq_of_isPunct hSemicolon (by decide)
        have hHere : Edit.weave (p.past [.char ';']).offset (e :: es) r
            = e.text ++ Edit.weave (p.past [.char ';']).offset es r :=
          Edit.weave_cons (x := []) (by omega) (by simp; omega)
        have hFront : Edit.weave p.offset (e :: es) ([.char ';'] ++ r)
            = [.char ';'] ++ Edit.weave (p.past [.char ';']).offset (e :: es) r := by
          rw [Cursor.offset_past]
          refine Edit.weave_append (x := [.char ';']) fun d hd => ?_
          rw [← Cursor.offset_past]
          rcases List.mem_cons.mp hd with rfl | hd
          · exact ⟨by omega, by omega⟩
          · exact (hLater d hd).place hBehind
        rw [hFront, hHere, hText]
        exact .inserted hPasses hMade

/-- A directive, with the edit that gives it up if there is one. -/
theorem Pending.woven_directive (hFirst : first (x ++ r) = .ok (.token kind, x.length))
    (hHash : IsHash kind x) (hTokens : Lexed path p true spaced (x ++ r) (tok :: ts))
    (hBehind : Lexed path (p.past x) false false r ts)
    (hTok : tok = ⟨kind, lexemeOf kind x, s, true, spaced⟩) (hStart : tok.span.start = p.offset)
    (hStop : tok.span.stop = (p.past x).offset)
    (h : Pending all edits (.line true) p (tok :: ts) es)
    (hStays : ∀ es', Pending all edits (.directive false ((ts.takeWhile continues).map form))
      (p.past x) ts es' →
      Woven (.directive false ((ts.takeWhile continues).map form)) r
        (Edit.weave (p.past x).offset es' r) (rowsOf edits ts))
    (hGone : ∀ b q r' es', r'.length < (x ++ r).length →
      Lexed path q false false r' (ts.dropWhile continues) →
      Pending all edits (.line b) q (ts.dropWhile continues) es' →
      Woven (.line b) r' (Edit.weave q.offset es' r') ((Mode.line b).close (rowsOf edits ts))) :
    Woven (.line true) (x ++ r) (Edit.weave p.offset es (x ++ r)) (rowsOf edits (tok :: ts)) := by
  have hOffset : p.offset ≤ (p.past x).offset := by
    rw [Cursor.offset_past]
    omega
  have hFlag : tok.atLineStart = true := by
    rw [hTok]
  have hPunct : tok.isPunct "#" = true := by
    rw [hTok]
    exact isPunct_hash_iff.mpr hHash
  have hSplit : ∀ e ∈ es, e.GivesUp tok ts
      ∨ e.Attached all ts (.directive false ((ts.takeWhile continues).map form)) := fun e he =>
    (h.attached e he).of_directive hFlag hPunct
  have hClash : ∀ d ∈ es, ∀ e, d.Precedes e → ¬e.GivesUp tok ts := by
    intro d hd e hPrecedes hGivesUp
    have hLt := (h.attached d hd).lt_stop hTokens
    have hFrom := hGivesUp.start
    have hLe := hPrecedes.stop_le_start
    omega
  have hIff := h.isGone_iff hFlag hTokens
  rw [rowsOf_of_start hFlag]
  rcases exists_head h.order hSplit hClash with hLater | ⟨e, es, rfl, hGivesUp, hLater⟩
  · have hStaying : ¬IsGone edits (tok :: ts.takeWhile continues) := by
      rw [hIff]
      rintro ⟨e, he, hFrom, -⟩
      have hPlace := (hLater e he).place hBehind
      have hRoom := lt_of_line hTokens (line_mem hFlag)
      omega
    rw [Edit.weave_of_attached hLater hBehind, rowOf, if_pos ⟨hPunct, hStaying⟩]
    exact .directive hFirst hHash (hStays es (h.skip (List.suffix_cons tok ts) hOffset hLater))
  · have hGoing : IsGone edits (tok :: ts.takeWhile continues) :=
      hIff.mpr ⟨e, List.mem_cons_self, hGivesUp.start, hGivesUp.stop⟩
    have hParts : tok :: ts.takeWhile continues ++ ts.dropWhile continues = tok :: ts := by
      rw [List.cons_append, List.takeWhile_append_dropWhile]
    rw [← hParts] at hTokens
    obtain ⟨d, r', hText, hLine, hEnd, hNe⟩ := hTokens.exists_behind
    have hHead : ∃ c ∈ d.head?, c ≠ .char '\n' := by
      obtain ⟨c, d, rfl⟩ := List.exists_cons_of_ne_nil hNe
      rw [hText, List.cons_append] at hFirst
      exact ⟨c, rfl, (startsToken_cons.mp (first_eq_token_iff.mp hFirst).1).1⟩
    have hShorter : r'.length < (x ++ r).length := by
      rw [hText, List.length_append]
      have hPos := List.length_pos_iff.mpr hNe
      omega
    have hRest : ∀ b, Pending all edits (.line b) (p.past d) (ts.dropWhile continues) es := by
      intro b
      refine h.make ((List.dropWhile_suffix _).trans (List.suffix_cons tok ts)) ?_
        (by rw [hGivesUp.stop, hEnd]) fun e he => (hLater e he).behind_line
      rw [Cursor.offset_past]
      omega
    have hWeave : Edit.weave p.offset (e :: es) (d ++ r') = e.text ++ Edit.weave
        (p.past d).offset es r' := by
      rw [Cursor.offset_past] at hEnd ⊢
      exact Edit.weave_cons (by rw [hGivesUp.start, hStart]) (by rw [hGivesUp.stop, hEnd])
    rw [rowOf, if_neg (by simp [hGoing]), hText, hWeave]
    rcases hGivesUp.text with hNil | hPasses
    · rw [hNil]
      exact .removed hHead (hGone true _ _ _ hShorter hLine (hRest true))
    · exact .replaced hHead hPasses (hGone false _ _ _ hShorter hLine (hRest false))

end Token

/-- The changed text is made of the text piece by piece. -/
theorem Pending.woven (hTokens : Lexed path p start spaced text tokens)
    (hMatches : m.Matches start spaced tokens) (h : Pending all edits m p tokens es) :
    Woven m text (Edit.weave p.offset es text) (m.close (rowsOf edits tokens)) := by
  induction hLength : text.length using Nat.strongRecOn generalizing m p start spaced tokens
      text es with
  | _ length ih =>
      subst hLength
      cases hTokens with
      | done =>
          cases es with
          | nil =>
              refine .done ?_
              cases m with
              | line => trivial
              | directive => exact hMatches.2.2
          | cons e es =>
              exact absurd rfl (h.attached e List.mem_cons_self).ne_nil
      | @lineEnd _ _ _ r tokens hBehind =>
          obtain ⟨hNone, hSame⟩ := takeWhile_continues (head_of_ofTextAt hBehind.ofTextAt_eq_ok rfl)
          have hEnds : m.Ends := by
            cases m with
            | line => trivial
            | directive =>
                rw [Mode.Ends, hMatches.2.2, hNone]
                rfl
          have hAttached : ∀ e ∈ es, e.Attached all tokens (.line true) := fun e he =>
            (h.attached e he).imp (fun _ hLine _ => hLine) fun t ht => by
              rcases ht with ⟨-, ht⟩ | ht
              · rw [hNone] at ht
                cases ht
              · exact .inr ht
          have hWeave := Edit.weave_of_attached hAttached hBehind
          rw [List.singleton_append, List.singleton_append] at hWeave
          rw [hWeave]
          refine .lineEnd hEnds
            (ih _ (by simp) hBehind (head_of_ofTextAt hBehind.ofTextAt_eq_ok rfl)
            (h.skip List.suffix_rfl ?_ hAttached) rfl)
          rw [Cursor.offset_past]
          omega
      | @blank _ _ _ x r tokens hFirst hBehind =>
          have hPos := first_pos hFirst
          have hAttached : ∀ e ∈ es, e.Attached all tokens m.afterBlank := fun e he =>
            (h.attached e he).imp (fun _ hLine _ => hLine) fun t ht =>
                ht.imp_left fun ⟨hMode, ht⟩ => by
              rw [hMode]
              exact ⟨rfl, ht⟩
          have hMatches' : m.afterBlank.Matches start true tokens := by
            cases m with
            | line flag => cases flag with | false | true => exact hMatches
            | directive => exact ⟨hMatches.1, rfl, hMatches.2.2⟩
          have hPending : Pending all edits m.afterBlank (p.past x) tokens es := by
            refine h.skip List.suffix_rfl ?_ hAttached
            rw [Cursor.offset_past]
            omega
          rw [Edit.weave_of_attached hAttached hBehind]
          have hBehindWoven :=
            ih _ (by rw [List.length_append]; omega) hBehind hMatches' hPending rfl
          refine .blank hFirst ?_
          cases m with
          | line start => exact hBehindWoven
          | directive => exact hBehindWoven
      | @token _ _ _ x r kind ts hFirst hBehind =>
          have hPos := first_pos hFirst
          have hShorter : r.length < (x ++ r).length := by
            rw [List.length_append]
            omega
          have hTokens : Lexed path _ start spaced _ _ := .token hFirst hBehind
          cases m with
          | directive flag operands =>
              obtain ⟨rfl, rfl, rfl⟩ := hMatches
              have hAttached : ∀ e ∈ es,
                  e.Attached all ts (.directive false ((ts.takeWhile continues).map form)) :=
                  fun e he =>
                (h.attached e he).imp
                (fun _ hLine _ => by rwa [dropWhile_of_continues rfl] at hLine) fun t ht => by
                  rcases ht with ⟨hMode, -⟩ | ht
                  · cases hMode
                  · exact .inr (by rwa [dropWhile_of_continues rfl] at ht)
              have hPending :=
                h.skip (q := p.past x) (List.suffix_cons _ ts) (by rw [Cursor.offset_past]; omega)
                  hAttached
              rw [Edit.weave_of_attached hAttached hBehind, Mode.close_directive,
                rowsOf_of_continues rfl]
              exact .operand hFirst (ih _ hShorter hBehind ⟨rfl, rfl, rfl⟩ hPending rfl)
          | line flag =>
              obtain rfl : start = flag := by
                cases flag with
                | false => exact hMatches
                | true => exact hMatches _ rfl
              by_cases hDirective : start = true ∧ IsHash kind x
              · obtain ⟨rfl, hHash⟩ := hDirective
                refine h.woven_directive hFirst hHash hTokens hBehind rfl rfl rfl ?_ ?_
                · exact fun es' h' => ih _ hShorter hBehind ⟨rfl, rfl, rfl⟩ h' rfl
                · intro b q r' es' hShorter' hLexed h'
                  rw [← rowsOf_dropWhile]
                  exact ih _ hShorter' hLexed (matches_of_line b) h' rfl
              · have hRows : (Mode.line start).close (rowsOf edits (⟨kind, lexemeOf kind x,
                    ⟨path, p.offset, (p.past x).offset, p.line, p.column⟩, start, spaced⟩ :: ts))
                      = none :: rowsOf edits ts := by
                  cases start with
                  | false => rw [Mode.close_inside, rowsOf_of_continues rfl]
                  | true =>
                      rw [Mode.close_start, rowsOf_of_start rfl, rowOf, if_neg]
                      rintro ⟨hPunct, -⟩
                      exact hDirective ⟨rfl, isPunct_hash_iff.mp hPunct⟩
                rw [hRows]
                refine h.woven_code hFirst hTokens hBehind rfl rfl rfl
                  (fun hStart hHash => hDirective ⟨hStart, hHash⟩) fun es' h' => ?_
                exact ih _ hShorter hBehind rfl h' rfl

theorem Edit.Attached.within (h : e.Attached all tokens m)
    (hTokens : Lexed path p start spaced text tokens) :
    e.Within p.offset (p.offset + text.length) := by
  have hStop : e.stop ≤ (p.offset + text.length : Nat) := by
    cases h with
    | @directive t ts hLine hHash hStart hStop hText =>
        have hLast := mem_of_mem_logicalLines hLine List.getLastD_mem_cons
        rw [hStop]
        exact Int.ofNat_le.mpr (hTokens.stop_le _ ((List.dropWhile_suffix _).subset hLast))
    | name ht hIdentifier hStart hStop hText =>
        rw [hStop]
        exact Int.ofNat_le.mpr (hTokens.stop_le _ ht.mem)
    | inserted ht hSemicolon hStart hStop =>
        rw [hStop]
        exact Int.ofNat_le.mpr (hTokens.stop_le _ ht.mem)
  have hPlace := h.place hTokens
  exact ⟨hPlace.1, hPlace.2, hStop⟩

/-- A text can be read again after edits that are attached to its tokens, and the directives that no
edit gives up are found again. -/
theorem exists_ofText_applyAll {tokens : List Token} (hTokens : ofText path text = .ok tokens)
    (hPath : ∀ e ∈ edits, e.path = path) (hAppend : ∀ e ∈ edits, e.isAppend = false)
    (hApart : edits.Pairwise fun d e => d.overlaps e = false)
    (hAttached : ∀ e ∈ edits, e.Attached tokens tokens (.line true)) :
    ∃ text', Edit.applyAll text edits = .ok text' ∧ ∃ tokens', ofText path text' = .ok tokens'
      ∧ Tracks ((logicalLines tokens).map (rowOf (IsGone edits))) (logicalLines tokens') := by
  have hLexed := lexed_of_ofTextAt hTokens
  have hWithin : ∀ e ∈ edits, e.Within 0 text.length := fun e he => by
    simpa [Cursor.start] using (hAttached e he).within hLexed
  obtain ⟨hOrder, hApplied⟩ := Edit.applyAll_eq_weave hPath hAppend hWithin hApart
  have hMem : ∀ e, e ∈ Edit.sorted edits ↔ e ∈ edits := fun e => (Edit.sorted_perm edits).mem_iff
  have hHead := head_of_ofTextAt hTokens rfl
  have hPending : Pending tokens edits (.line true) .start tokens (Edit.sorted edits) :=
    ⟨List.suffix_rfl, hOrder, fun e he => hAttached e ((hMem e).mp he), fun e he => (hMem e).mp he,
      fun e he => .inl ((hMem e).mpr he)⟩
  have hMatches : (Mode.line true).Matches true false tokens := hHead
  have hReads : Reads path _ _ _ := (hPending.woven hLexed hMatches).reads
  obtain ⟨tokens', hTokens', hTracks⟩ := hReads .start false
  refine ⟨_, hApplied, tokens', hTokens', ?_⟩
  rw [(takeWhile_continues (head_of_ofTextAt hTokens' rfl)).2] at hTracks
  rwa [Mode.close_start, rowsOf, (takeWhile_continues hHead).2] at hTracks

end Demacro
