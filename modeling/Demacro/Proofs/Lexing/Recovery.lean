import Demacro.Proofs.Lexing.Weaving

/-!
Reading a changed text. Its logical lines are the directives that stay, as they were, and lines of
code where there was code or a directive that is gone.
-/

namespace Demacro

/-- The lines are those that the rows say: the directives of the rows in order, and lines of code in
place of the rows that say nothing. -/
inductive Tracks : List Row → List (List Token) → Prop where
  | nil : Tracks [] []
  | kept {operands : List Form} {rows : List Row} {t : Token} {ts : List Token}
      {lines : List (List Token)}
      (hHash : t.isPunct "#" = true) (hOperands : ts.map Token.form = operands)
      (h : Tracks rows lines) : Tracks (some operands :: rows) ((t :: ts) :: lines)
  | gone {rows : List Row} {lines : List (List Token)} (h : Tracks rows lines) :
      Tracks (none :: rows) lines
  | code {rows : List Row} {t : Token} {ts : List Token} {lines : List (List Token)}
      (hHash : t.isPunct "#" = false)
      (h : Tracks (none :: rows) lines) : Tracks (none :: rows) ((t :: ts) :: lines)

namespace Token

variable {path : String} {p : Cursor} {start spaced : Bool} {t : Text} {tokens : List Token}

/-- The token stands on the logical line of the token in front of it. -/
def continues (t : Token) : Bool :=
  !t.atLineStart

/-- A token and those that stand on its line come first, the next lines behind them. -/
theorem logicalLines_cons (t : Token) (ts : List Token) :
    logicalLines (t :: ts) = (t :: ts.takeWhile continues)
    :: logicalLines (ts.dropWhile continues) := by
  induction ts generalizing t with
  | nil => rfl
  | cons next ts ih =>
      have hStep : logicalLines (t :: next :: ts) = if next.atLineStart then
          [t] :: (next :: ts.takeWhile continues) :: logicalLines (ts.dropWhile continues)
        else (t :: next :: ts.takeWhile continues) :: logicalLines (ts.dropWhile continues) := by
        rw [logicalLines.eq_def]
        dsimp only
        rw [ih next]
      rw [hStep]
      cases hStart : next.atLineStart with
      | true => simp [continues, hStart, ih next]
      | false => simp [continues, hStart]

/-- A logical line is a part of the tokens in which only the first one can start a line. -/
theorem exists_of_mem_logicalLines {line : List Token} (h : line ∈ logicalLines tokens) :
    ∃ before t ts after, line = t :: ts ∧ tokens = before ++ t :: (ts ++ after)
    ∧ ∀ u ∈ ts, u.atLineStart = false := by
  induction hLength : tokens.length using Nat.strongRecOn generalizing tokens with
  | _ length ih =>
      subst hLength
      cases tokens with
      | nil => cases h
      | cons t ts =>
          have hParts : ts = ts.takeWhile continues ++ ts.dropWhile continues :=
            List.takeWhile_append_dropWhile.symm
          rw [logicalLines_cons] at h
          rcases List.mem_cons.mp h with rfl | h
          · refine ⟨[], t, _, ts.dropWhile continues, rfl,
              by rw [List.nil_append, ← hParts], fun u hu => ?_⟩
            simpa [continues] using List.all_eq_true.mp List.all_takeWhile u hu
          · obtain ⟨before, u, us, after, hLine, hTokens, hContinues⟩ :=
              ih _ (Nat.lt_succ_of_le (List.dropWhile_suffix _).length_le) h rfl
            refine ⟨t :: (ts.takeWhile continues ++ before), u, us, after, hLine, ?_, hContinues⟩
            rw [List.cons_append, List.append_assoc, ← hTokens, ← hParts]

/-- The first token starts a line if reading starts with one. -/
theorem head_of_ofTextAt (h : ofTextAt path p start spaced t = .ok tokens) (hStart : start = true) :
    ∀ x ∈ tokens.head?, x.atLineStart = true := by
  fun_induction ofTextAt path p start spaced t generalizing tokens with
  | case1 =>
      cases h
      simp
  | case2 => cases h
  | case3 =>
      rename_i ih
      exact ih h rfl
  | case4 =>
      rename_i ih
      exact ih h hStart
  | case5 =>
      obtain ⟨others, -, h⟩ := Except.bind_eq_ok_iff.mp h
      cases h
      intro x hx
      obtain rfl := Option.some.inj hx
      exact hStart

theorem takeWhile_continues (h : ∀ x ∈ tokens.head?, x.atLineStart = true) :
    tokens.takeWhile continues = [] ∧ tokens.dropWhile continues = tokens := by
  cases tokens with
  | nil => exact ⟨rfl, rfl⟩
  | cons x tokens => simp [continues, h x rfl]

end Token

namespace Piece

open Token

variable {path : String} {m : Mode} {x t t' r r' : Text} {kind : TokenKind} {start : Bool}
  {operands : List Form} {rows : List Row}

/-- Reading the text from a place on comes to its end and gives the lines that the rows say. -/
def Reads (path : String) : Mode → Text → List Row → Prop
  | .line start, t, rows => ∀ p spaced, ∃ tokens, ofTextAt path p start spaced t = .ok tokens
      ∧ Tracks rows (logicalLines (tokens.dropWhile continues))
  | .directive spaced operands, t, rows =>
      ∀ p, ∃ tokens, ofTextAt path p false spaced t = .ok tokens
      ∧ (tokens.takeWhile continues).map form = operands
        ∧ Tracks rows (logicalLines (tokens.dropWhile continues))

theorem Reads.gone (h : Reads path (.line start) t rows) :
    Reads path (.line start) t (none :: rows) := by
  intro p spaced
  obtain ⟨tokens, hTokens, hTracks⟩ := h p spaced
  exact ⟨tokens, hTokens, hTracks.gone⟩

theorem reads_nil (hEnds : m.Ends) : Reads path m [] (m.close []) := by
  have hEmpty : ∀ p start spaced, ofTextAt path p start spaced [] = .ok [] := fun _ _ _ => by
    rw [ofTextAt]
  cases m with
  | line start =>
      intro p spaced
      refine ⟨[], hEmpty p start spaced, ?_⟩
      cases start with
      | true => exact .nil
      | false => exact .gone .nil
  | directive spaced operands =>
      obtain rfl := hEnds
      exact fun p => ⟨[], hEmpty p false spaced, rfl, .nil⟩

theorem Reads.lineEnd (hEnds : m.Ends) (h : Reads path (.line true) r rows) :
    Reads path m (.char '\n' :: r) (m.close rows) := by
  have hNext : ∀ p start spaced, ∃ tokens, ofTextAt path p start spaced (.char '\n' :: r)
    = .ok tokens
      ∧ tokens.takeWhile continues = []
      ∧ Tracks rows (logicalLines (tokens.dropWhile continues)) := by
    intro p start spaced
    obtain ⟨tokens, hTokens, hTracks⟩ := h (p.past [.char '\n']) false
    exact ⟨tokens, (ofTextAt_lineEnd r).trans hTokens,
      (takeWhile_continues (head_of_ofTextAt hTokens rfl)).1, hTracks⟩
  cases m with
  | line start =>
      intro p spaced
      obtain ⟨tokens, hTokens, -, hTracks⟩ := hNext p start spaced
      refine ⟨tokens, hTokens, ?_⟩
      cases start with
      | true => exact hTracks
      | false => exact hTracks.gone
  | directive spaced operands =>
      obtain rfl := hEnds
      intro p
      obtain ⟨tokens, hTokens, hNone, hTracks⟩ := hNext p false spaced
      exact ⟨tokens, hTokens, by rw [hNone]; rfl, hTracks⟩

/-- A line of code can also go on behind a line end. -/
theorem Reads.break (h : Reads path (.line true) r rows) (start : Bool) :
    Reads path (.line start) (.char '\n' :: r) rows := by
  intro p spaced
  obtain ⟨tokens, hTokens, hTracks⟩ := h (p.past [.char '\n']) false
  exact ⟨tokens, (ofTextAt_lineEnd r).trans hTokens, hTracks⟩

theorem Reads.blank (hFirst : first (x ++ r) = .ok (.blank, x.length))
    (h : Reads path m.afterBlank r rows) : Reads path m (x ++ r) rows := by
  cases m with
  | line start =>
      intro p spaced
      rw [ofTextAt_blank hFirst]
      exact h (p.past x) true
  | directive spaced operands =>
      intro p
      rw [ofTextAt_blank hFirst]
      exact h (p.past x)

/-- The tokens behind a token, with it in front. -/
theorem ofTextAt_token_eq_ok {p : Cursor} {spaced : Bool} {tokens : List Token}
    (hFirst : first (x ++ r) = .ok (.token kind, x.length))
    (h : ofTextAt path (p.past x) false false r = .ok tokens) :
    ofTextAt path p start spaced (x ++ r) = .ok
      (⟨kind, lexemeOf kind x, ⟨path, p.offset, (p.past x).offset, p.line, p.column⟩, start, spaced⟩
        :: tokens) := by
  rw [ofTextAt_token hFirst, h]
  rfl

theorem isPunct_hash_iff {kind : TokenKind} {x : Text} {s : Span} {start spaced : Bool} :
    (Token.mk kind (lexemeOf kind x) s start spaced).isPunct "#" = true ↔ IsHash kind x := by
  rw [isPunct, Bool.and_eq_true, beq_iff_eq, beq_iff_eq, IsHash]
  refine and_congr_right fun hKind => ?_
  rw [lexemeOf, if_pos hKind]

theorem Reads.code (hFirst : first (x ++ r) = .ok (.token kind, x.length))
    (hHash : start = true → ¬IsHash kind x) (h : Reads path (.line false) r (none :: rows)) :
    Reads path (.line start) (x ++ r) (none :: rows) := by
  intro p spaced
  obtain ⟨tokens, hTokens, hTracks⟩ := h (p.past x) false
  refine ⟨_, ofTextAt_token_eq_ok hFirst hTokens, ?_⟩
  cases start with
  | false => exact hTracks
  | true =>
      rw [List.dropWhile_cons_of_neg (by simp [continues]), logicalLines_cons]
      exact .code (Bool.eq_false_iff.mpr fun hPunct => hHash rfl (isPunct_hash_iff.mp hPunct))
        hTracks

theorem Reads.directive (hFirst : first (x ++ r) = .ok (.token kind, x.length))
    (hHash : IsHash kind x) (h : Reads path (.directive false operands) r rows) :
    Reads path (.line true) (x ++ r) (some operands :: rows) := by
  intro p spaced
  obtain ⟨tokens, hTokens, hOperands, hTracks⟩ := h (p.past x)
  refine ⟨_, ofTextAt_token_eq_ok hFirst hTokens, ?_⟩
  rw [List.dropWhile_cons_of_neg (by simp [continues]), logicalLines_cons]
  exact .kept (isPunct_hash_iff.mpr hHash) hOperands hTracks

theorem Reads.operand {spaced : Bool} (hFirst : first (x ++ r) = .ok (.token kind, x.length))
    (h : Reads path (.directive false operands) r rows) :
    Reads path (.directive spaced ((kind, lexemeOf kind x, spaced) :: operands)) (x ++ r) rows := by
  intro p
  obtain ⟨tokens, hTokens, rfl, hTracks⟩ := h (p.past x)
  exact ⟨_, ofTextAt_token_eq_ok hFirst hTokens, rfl, hTracks⟩

/-- What is passed adds lines of code. -/
theorem Reads.of_passes (hPasses : Passes start t r)
    (h : Reads path (.line false) r (none :: rows)) :
    Reads path (.line start) t (none :: rows) := by
  induction hPasses with
  | done => exact h
  | blank hFirst _ ih => exact .blank hFirst (ih h)
  | token hFirst hHash _ ih => exact .code hFirst hHash (ih h)

/-- Characters that are punctuators wherever they stand. -/
theorem first_solo {c : Char} (hc : c ∈ [';', '(', ')', '[', ']', '\x7b', '\x7d']) (r : Text) :
    first (.char c :: r) = .ok (.token .punctuator, 1) := by
  have hSolo : ∀ c ∈ [';', '(', ')', '[', ']', '\x7b', '\x7d'], isHard (.char c) = true
    ∧ isHorizontalSpace c = false
      ∧ c ≠ '\n' ∧ c ≠ '\\' ∧ c ≠ '/' ∧ c ≠ '"' ∧ c ≠ '\'' :=
    List.forall_mem_of_all (by decide +kernel)
  obtain ⟨hHard, hSpace, hLineEnd, hBackslash, hSlash, hQuote, hApostrophe⟩ := hSolo c hc
  have hHead : ∀ d ∈ (SourceChar.char c :: r).head?, isHard d = true := by
    simpa using hHard
  rw [first_eq_token_iff, startsToken_cons, tokenAt, identifierLength?_of_isHard hHead,
    numberLength?_of_isHard hHead, literal?_eq_none (by simp [hQuote, hApostrophe])]
  have hPunctuator : punctuatorLength? (.char c :: r) = some 1 := by
    simp only [List.mem_cons, List.not_mem_nil, or_false] at hc
    rcases hc with rfl | rfl | rfl | rfl | rfl | rfl | rfl <;> rfl
  rw [hPunctuator]
  simp [hSpace, hLineEnd, hBackslash, hSlash, SourceChar.satisfies]

/-- Reading a changed text gives back the directives that stay. -/
theorem Woven.reads (h : Woven m t t' rows) : Reads path m t' rows := by
  induction hLength : t.length + t'.length using Nat.strongRecOn generalizing m t t' rows with
  | _ length ih =>
      subst hLength
      -- A token that becomes part of a number leaves the rest of what was written in place of a
      -- name.
      have hToken : ∀ {m : Mode} {x r r' : Text} {kind : TokenKind} {rows : List Row},
          first (x ++ r) = .ok (.token kind, x.length) → Woven m r r' rows → m.IsInside →
          x ++ r = t → x ++ r' = t' → first (x ++ r') = .ok (.token kind, x.length)
          ∧ Reads path m r' rows
            ∨ m.isLine = true ∧ ∀ start rest, rows = none :: rest →
            Reads path (.line start) (x ++ r') rows := by
        rintro m x r r' kind rows hFirst hBehind hm rfl rfl
        have hPos := first_pos hFirst
        rcases hBehind.first_token hm hFirst with hSame
          | ⟨hLine, y, w, q, q', hText, hNumber, hPlain, hMeets, hLe, hRest⟩
        · exact .inl ⟨hSame, ih _ (by simp only [List.length_append]; omega) hBehind rfl⟩
        · refine .inr ⟨hLine, ?_⟩
          rintro start rest rfl
          have hShorter := congrArg List.length hText
          simp only [List.length_append] at hShorter
          have hReads := ih _ (by simp only [List.length_append]; omega) hRest rfl
          rw [hText]
          exact .code hNumber (fun _ hHash => nomatch hHash.1)
            (.of_passes (hPlain.passes_inside hMeets) hReads)
      cases h with
      | done hEnds => exact reads_nil hEnds
      | lineEnd hEnds h =>
          exact .lineEnd hEnds (ih _ (by simp only [List.length_cons]; omega) h rfl)
      | @blank m x r r' rows hFirst h =>
          have hSame := first_blank_append hFirst h.head.1 h.head.2
          have hPos := first_pos hFirst
          exact .blank hSame (ih _ (by simp only [List.length_append]; omega) h rfl)
      | code hFirst hHash h =>
          rcases hToken hFirst h rfl rfl rfl with ⟨hSame, hRest⟩ | ⟨-, hNumber⟩
          · exact .code hSame hHash hRest
          · exact hNumber _ _ rfl
      | @inserted start w r r' rows hPasses h =>
          have hBehind := ih _ (by simp only [List.length_append, List.length_cons]; omega) h rfl
          have hSemicolon : Passes start (.char ';' :: .char '\n' :: (w ++ r'))
              (.char '\n' :: (w ++ r')) :=
            .token (x := [.char ';']) (first_solo (by simp) _) (fun _ hHash => by cases hHash.2)
              (.done _)
          exact .of_passes hSemicolon (.break (.of_passes (hPasses r') hBehind) false)
      | @written start x v r r' rows hPlain hHead hMeets hName hWord h =>
          have hNe : v ≠ [] := by
            rintro rfl
            simp at hHead
          have hPos := List.length_pos_iff.mpr hNe
          have hRest := ih _ (by simp only [List.length_append]; omega) h rfl
          exact .of_passes (hPlain.passes hMeets hHead start) hRest
      | directive hFirst hHash h =>
          rcases hToken hFirst h trivial rfl rfl with ⟨hSame, hRest⟩ | ⟨hLine, -⟩
          · exact .directive hSame hHash hRest
          · cases hLine
      | operand hFirst h =>
          rcases hToken hFirst h trivial rfl rfl with ⟨hSame, hRest⟩ | ⟨hLine, -⟩
          · exact .operand hSame hRest
          · cases hLine
      | @removed d r r' rows hHead h =>
          have hPos : 0 < d.length := List.length_pos_iff.mpr (by rintro rfl; simp at hHead)
          exact .gone (ih _ (by simp only [List.length_append]; omega) h rfl)
      | @replaced d w r r' rows hHead hPasses h =>
          have hPos : 0 < d.length := List.length_pos_iff.mpr (by rintro rfl; simp at hHead)
          exact .of_passes (hPasses r') (ih _ (by simp only [List.length_append]; omega) h rfl)

end Piece

end Demacro
