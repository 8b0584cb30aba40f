import Demacro.Proofs.Lexing.Lookahead

/-!
How far the piece at the front of a text looks ahead. A token stays as it is when something behind
it gives way to a text that cannot go on with it, and a piece without tokens as long as a line that
ends behind it still does.
-/

namespace Demacro.Piece

variable {x a u s s' t : Text} {kind : TokenKind} {n m : Nat}

theorem le_of_wordToken (h : wordToken t n = .ok (kind, m)) : n ≤ m := by
  unfold wordToken at h
  dsimp only at h
  repeat' split at h
  all_goals cases h
  all_goals omega

theorem wordToken_append (h : wordToken (x ++ (u ++ s)) n = .ok (kind, x.length))
    (hn : n ≤ x.length) (hQuote : ∀ c ∈ s'.head?, c ≠ .char '"')
    (hLiteral : literal? (u ++ s) = none → literal? (u ++ s') = none) :
    wordToken (x ++ (u ++ s')) n = .ok (kind, x.length) := by
  have hRest : ∀ r : Text, (x ++ r).drop n = x.drop n ++ r :=
    fun r => List.drop_append_of_le_length hn
  have hTake : ∀ r : Text, (x ++ r).take n = x.take n := fun r => List.take_append_of_le_length hn
  unfold wordToken at h ⊢
  simp only [hRest, hTake] at h ⊢
  rcases Nat.lt_or_eq_of_le hn with hLess | rfl
  · -- The word is the encoding of a literal, which holds all of its end.
    obtain ⟨d, y, hDrop⟩ :=
      List.exists_cons_of_ne_nil (List.drop_eq_nil_iff.not.mpr (Nat.not_le_of_lt hLess))
    have hLength : x.length - n = y.length + 1 := by
      rw [← List.length_drop, hDrop, List.length_cons]
    simp only [hDrop, List.cons_append, List.head?_cons, List.drop_one, List.tail_cons] at h ⊢
    split
    · rename_i hRaw
      rw [if_pos hRaw] at h
      split at h
      · rename_i k hFound
        simp only [Except.ok.injEq, Prod.mk.injEq] at h
        rw [rawLength?_append _ hFound (by omega), ← h.1, ← h.2]
      · cases h
    · rename_i hRaw
      rw [if_neg hRaw] at h
      split
      · rename_i hEncoding
        rw [if_pos hEncoding] at h
        split at h
        · rename_i k hFound
          simp only [Except.ok.injEq, Prod.mk.injEq] at h
          rw [← List.cons_append, literal?_append (a := d :: y) _ hFound
            (by rw [List.length_cons]; omega), ← h.1, ← h.2]
        · simp only [Except.ok.injEq, Prod.mk.injEq] at h
          omega
      · rename_i hEncoding
        rw [if_neg hEncoding] at h
        simp only [Except.ok.injEq, Prod.mk.injEq] at h
        omega
  · simp only [List.drop_length, List.take_length, List.nil_append] at h ⊢
    have hNoRaw :
        ¬ ((u ++ s').head? = some (.char '"') ∧ rawEncodings.any (Text.ofString · == x)) := by
      rintro ⟨hHead, hEncoding⟩
      cases u with
      | nil => exact hQuote _ hHead rfl
      | cons c u =>
          rw [if_pos ⟨hHead, hEncoding⟩] at h
          split at h
          · simp only [Except.ok.injEq, Prod.mk.injEq] at h
            omega
          · cases h
    rw [if_neg hNoRaw]
    split at h
    · split at h
      · simp only [Except.ok.injEq, Prod.mk.injEq] at h
        omega
      · cases h
    split
    · rename_i hEncoding
      rw [if_pos hEncoding] at h
      split at h
      · rename_i k hFound
        have hPos := literal?_pos hFound
        simp only [Except.ok.injEq, Prod.mk.injEq] at h
        omega
      · rename_i hNone
        rw [hLiteral hNone]
        exact h
    · rename_i hEncoding
      rwa [if_neg hEncoding] at h

theorem identifierLength?_eq_none (h : identifierLength? (a ++ s) = none) (hNe : a ≠ []) :
    identifierLength? (a ++ s') = none := by
  obtain ⟨c, a, rfl⟩ := List.exists_cons_of_ne_nil hNe
  cases c with
  | byte b => rfl
  | char c =>
      simp only [List.cons_append, identifierLength?] at h ⊢
      split at h
      · cases h
      · rename_i hFirst
        rw [if_neg hFirst]

/-- The token at the front stays as it is when something behind it gives way to what cannot join it,
or becomes a number that goes on where the change is. -/
theorem tokenAt_append (h : tokenAt (x ++ (u ++ s)) = .ok (kind, x.length)) (hNe : x ≠ [])
    (hWord : ∀ c ∈ s'.head?, isWord c = true → ∃ d ∈ s.head?, isWord d = true)
    (hPunctuator : punctuatorLength? (x ++ u ++ s') = punctuatorLength? (x ++ u))
    (hQuote : ∀ c ∈ s'.head?, c ≠ .char '"')
    (hLiteral : literal? (u ++ s) = none → literal? (u ++ s') = none)
    (hStray : literal? (x ++ (u ++ s)) = none → literal? (x ++ (u ++ s')) = none) :
    tokenAt (x ++ (u ++ s')) = .ok (kind, x.length)
      ∨ ∃ n, tokenAt (x ++ (u ++ s')) = .ok (.number, n) ∧ (x ++ u).length < n := by
  have hNeAll : x ++ u ≠ [] := by
    simp [hNe]
  rw [← List.append_assoc] at h ⊢
  unfold tokenAt at h ⊢
  split at h
  · rename_i n hIdentifier
    have hn : n ≤ x.length := le_of_wordToken h
    rw [identifierLength?_append hIdentifier (by rw [List.length_append]; omega) hWord]
    dsimp only
    rw [List.append_assoc] at h ⊢
    exact .inl (wordToken_append h hn hQuote hLiteral)
  · rename_i hIdentifier
    have hNumber := numberLength?_append (s := s) s' hNeAll
    rw [identifierLength?_eq_none hIdentifier hNeAll]
    dsimp only
    split at h
    · rename_i n hn
      cases h
      rcases hNumber (by rw [hn]; simp) with hSame | ⟨m, hm, hLonger⟩
      · rw [hSame, hn]
        exact .inl rfl
      · rw [hm]
        exact .inr ⟨m, rfl, hLonger⟩
    · rename_i hn
      rcases hNumber (by rw [hn]; simp) with hSame | ⟨m, hm, hLonger⟩
      · rw [hSame, hn]
        dsimp only
        rw [List.append_assoc] at h ⊢
        left
        split at h
        · rename_i found hFound
          cases h
          rw [literal?_append _ hFound (Nat.le_refl _)]
        · rename_i hNone
          rw [hStray hNone]
          dsimp only
          rw [← List.append_assoc] at h ⊢
          have hShort : ∀ n ∈ punctuatorLength? (x ++ u ++ s), n ≤ (x ++ u).length := by
            intro n hn
            rw [Option.mem_def] at hn
            rw [hn] at h
            cases h
            rw [List.length_append]
            omega
          rw [hPunctuator, ← punctuatorLength?_of_le hShort]
          exact h
      · rw [hm]
        exact .inr ⟨m, rfl, hLonger⟩

/-- Whether a token is at the front of a text, and not a line end or a piece without tokens. -/
def startsToken : Text → Bool
  | .char '\\' :: .char '\n' :: _ => false
  | .char '\\' :: .char '\r' :: .char '\n' :: _ => false
  | .char '\n' :: _ => false
  | .char '/' :: .char '/' :: _ => false
  | .char '/' :: .char '*' :: _ => false
  | t => !t.head?.any (·.satisfies isHorizontalSpace)

theorem first_eq_token_iff :
    first t = .ok (.token kind, n) ↔ startsToken t = true ∧ tokenAt t = .ok (kind, n) := by
  unfold first startsToken
  split
  case h_5 => split <;> simp
  case h_6 =>
    split
    · rename_i hSpace
      simp [hSpace]
    · rename_i hSpace
      rw [Except.map_eq_ok_iff]
      simp [hSpace]
  all_goals simp

/-- A character that goes on with no token, and starts no comment and no line end, whatever is in
front of it. -/
def isLoose (c : SourceChar) : Bool :=
  !isInner c && !c.satisfies fun c => ['"', '\'', '/', '\r'].contains c

/-- What may take the place of `s` behind `a`: nothing in it joins what is in front of it, and it
starts with a line end only if `s` does or a statement ends there. -/
structure Fits (a s s' : Text) : Prop where
  word : ∀ c ∈ s'.head?, isWord c = true → ∃ d ∈ s.head?, isWord d = true
  loose : ∀ c ∈ s'.head?, isLoose c = true
  lineEnd : s'.head? = some (.char '\n') → s.head? = some (.char '\n')
    ∨ a.getLast? = some (.char ';')

theorem startsToken_cons {c : SourceChar} : startsToken (c :: t) = true ↔
    c ≠ .char '\n' ∧ c.satisfies isHorizontalSpace = false
      ∧ (c = .char '\\' → t.head? ≠ some (.char '\n')
        ∧ (t.head? = some (.char '\r') → (t.drop 1).head? ≠ some (.char '\n')))
      ∧ (c = .char '/' → t.head? ≠ some (.char '/') ∧ t.head? ≠ some (.char '*')) := by
  unfold startsToken
  split
  case h_6 hSplice hLongSplice hLineEnd hComment hBlock =>
    match t with
    | [] => simp_all
    | [d] =>
        replace hSplice := hSplice []
        replace hComment := hComment []
        replace hBlock := hBlock []
        simp_all
    | d :: e :: r =>
        replace hLongSplice := hLongSplice r
        simp_all
  all_goals
    rename_i h
    cases h
    simp

theorem Fits.startsToken (h : Fits a s s') (hNe : a ≠ []) (hStarts : startsToken (a ++ s) = true) :
    Piece.startsToken (a ++ s') = true := by
  obtain ⟨c, a, rfl⟩ := List.exists_cons_of_ne_nil hNe
  rw [List.cons_append, startsToken_cons] at hStarts ⊢
  obtain ⟨hLineEnd, hSpace, hSplice, hComment⟩ := hStarts
  have hLoose : ∀ d, isLoose d = false → s'.head? ≠ some d := fun d hd hHead => by
    have := h.loose d hHead
    rw [hd] at this
    cases this
  have hNoLineEnd : ∀ d, (c :: a).getLast? = some d → d ≠ .char ';' → s.head? ≠ some (.char '\n') →
      s'.head? ≠ some (.char '\n') := fun d hLast hd hs hHead => by
    rcases h.lineEnd hHead with hSource | hStatement
    · exact hs hSource
    · exact hd (Option.some.inj (hLast.symm.trans hStatement))
  refine ⟨hLineEnd, hSpace, fun hc => ?_, fun hc => ?_⟩
  · subst hc
    obtain ⟨hShort, hLong⟩ := hSplice rfl
    match a with
    | [] => exact ⟨hNoLineEnd _ rfl (by decide) hShort, fun hHead => absurd hHead
        (hLoose _ (by decide +kernel))⟩
    | [d] =>
        refine ⟨hShort, fun hHead => ?_⟩
        obtain rfl := Option.some.inj hHead
        exact hNoLineEnd _ rfl (by decide) (hLong rfl)
    | d :: e :: r => exact ⟨hShort, hLong⟩
  · cases a with
    | nil => exact ⟨hLoose _ (by decide +kernel), hLoose _ (by decide +kernel)⟩
    | cons d a => exact hComment hc

/-- The token at the front stays as it is when something behind it gives way to what cannot join it,
or becomes a number that goes on where the change is. -/
theorem first_token_append (h : first (x ++ (u ++ s)) = .ok (.token kind, x.length)) (hNe : x ≠ [])
    (hFits : Fits (x ++ u) s s') (hLiteral : literal? (u ++ s) = none → literal? (u ++ s') = none)
    (hStray : literal? (x ++ (u ++ s)) = none → literal? (x ++ (u ++ s')) = none) :
    first (x ++ (u ++ s')) = .ok (.token kind, x.length)
      ∨ ∃ n, first (x ++ (u ++ s')) = .ok (.token .number, n) ∧ (x ++ u).length < n := by
  obtain ⟨hStarts, hToken⟩ := first_eq_token_iff.mp h
  rw [← List.append_assoc] at hStarts
  have hStarts' := hFits.startsToken (by simp [hNe]) hStarts
  rw [List.append_assoc] at hStarts'
  have hInner : ∀ c ∈ s'.head?, isInner c = false := fun c hc => by
    simpa using And.left (by simpa [isLoose] using hFits.loose c hc)
  have hQuote : ∀ c ∈ s'.head?, c ≠ .char '"' := fun c hc hEq => by
    have hLoose := hFits.loose c hc
    rw [hEq] at hLoose
    cases hLoose
  have hPunctuator := punctuatorLength?_of_isInner (a := x ++ u) (by simp [hNe]) hInner
  rcases tokenAt_append hToken hNe hFits.word hPunctuator hQuote hLiteral hStray with hSame
    | ⟨n, hNumber, hLonger⟩
  · exact .inl (first_eq_token_iff.mpr ⟨hStarts', hSame⟩)
  · exact .inr ⟨n, first_eq_token_iff.mpr ⟨hStarts', hNumber⟩, hLonger⟩

/-- What is in front of a character of a comment, as far as it can make a line end part of the
comment. -/
inductive SpliceState where
  | plain
  | backslash
  | backslashReturn
deriving DecidableEq

/-- The state behind one more character. -/
def SpliceState.next (state : SpliceState) (c : SourceChar) : SpliceState :=
  if c = .char '\\' then .backslash
  else if c = .char '\r' ∧ state = .backslash then .backslashReturn else .plain

/-- The length of a comment to the end of its line, read one character at a time. -/
def commentLength (state : SpliceState) : Text → Nat
  | [] => 0
  | c :: t => if c = .char '\n' ∧ state = .plain then 0 else commentLength (state.next c) t + 1

theorem commentLength_eq_plain {state : SpliceState} {t : Text}
    (hShort : t.head? ≠ some (.char '\n'))
    (hLong : state = .backslash → t.head? = some (.char '\r') →
      (t.drop 1).head? ≠ some (.char '\n')) :
    commentLength state t = commentLength .plain t := by
  induction t generalizing state with
  | nil => rfl
  | cons c t ih =>
      have hc : c ≠ .char '\n' := fun hc => hShort (hc ▸ rfl)
      simp only [commentLength, hc, false_and, if_false, Nat.add_right_cancel_iff]
      by_cases hReturn : c = .char '\r' ∧ state = .backslash
      · obtain ⟨rfl, rfl⟩ := hReturn
        exact ih (hLong rfl rfl) nofun
      · rw [SpliceState.next, if_neg hReturn, SpliceState.next, if_neg (c := c = .char '\r' ∧ _)
          (by simp)]

theorem lineCommentLength_eq_commentLength (t : Text) :
    lineCommentLength t = commentLength .plain t := by
  fun_induction lineCommentLength t with
  | case1 => rfl
  | case2 => rfl
  | case3 t ih => simp [commentLength, SpliceState.next, ih]
  | case4 t ih => simp [commentLength, SpliceState.next, ih]
  | case5 c t hLineEnd hSplice hLongSplice ih =>
      rw [commentLength, if_neg fun hc => hLineEnd hc.1, ih]
      by_cases hBackslash : c = .char '\\'
      · subst hBackslash
        have hShort : t.head? ≠ some (.char '\n') := fun hHead => by
          obtain ⟨r, rfl⟩ := List.head?_eq_some_iff.mp hHead
          exact hSplice r rfl rfl
        have hLong : t.head? = some (.char '\r') → (t.drop 1).head? ≠ some (.char '\n') :=
            fun hHead hNext => by
          obtain ⟨r, rfl⟩ := List.head?_eq_some_iff.mp hHead
          obtain ⟨q, rfl⟩ := List.head?_eq_some_iff.mp hNext
          exact hLongSplice q rfl rfl
        exact congrArg (· + 1) (commentLength_eq_plain hShort fun _ => hLong).symm
      · simp [SpliceState.next, hBackslash]

/-- A comment that ends where the text goes on ends at a line end. -/
theorem commentLength_append {a s : Text} {state : SpliceState}
    (h : commentLength state (a ++ s) = a.length) :
    s = [] ∨ s.head? = some (.char '\n') ∧ ∀ r, commentLength state (a ++ .char '\n' :: r)
    = a.length := by
  induction a generalizing state with
  | nil =>
      cases s with
      | nil => exact .inl rfl
      | cons c s =>
          rw [List.nil_append, commentLength] at h
          split_ifs at h with hEnd
          exact .inr ⟨by rw [hEnd.1]; rfl, fun r => by simp [commentLength, hEnd.2]⟩
  | cons c a ih =>
      simp only [List.cons_append, commentLength, List.length_cons] at h ⊢
      split_ifs at h ⊢ with hEnd
      rcases ih (Nat.succ.inj h) with hNil | ⟨hHead, hSame⟩
      · exact .inl hNil
      · exact .inr ⟨hHead, fun r => congrArg (· + 1) (hSame r)⟩

/-- A blank character is a piece. -/
theorem first_horizontalSpace {c : SourceChar} (h : c.satisfies isHorizontalSpace = true)
    (t : Text) :
    first (c :: t) = .ok (.blank, 1) := by
  cases c with
  | byte b => cases h
  | char c =>
      simp only [SourceChar.satisfies, isHorizontalSpace, Bool.or_eq_true, beq_iff_eq] at h
      rcases h with ((((rfl | rfl) | rfl) | rfl) | rfl) | rfl <;> rfl

/-- A piece without tokens stays as it is when what stands behind it changes, as long as a line that
ends there still does. -/
theorem first_blank_append (h : first (a ++ s) = .ok (.blank, a.length)) (hEnd : s = [] → s' = [])
    (hLineEnd : s.head? = some (.char '\n') → s'.head? = some (.char '\n')) :
    first (a ++ s') = .ok (.blank, a.length) := by
  have hFront : ∀ {b r : Text}, a ++ s = b ++ r → a.length = b.length → a = b :=
      fun hText hLength =>
    List.append_inj_left hText hLength
  generalize hText : a ++ s = t at h
  unfold first at h
  split at h
  · rename_i r
    simp only [Except.ok.injEq, Prod.mk.injEq, true_and] at h
    rw [hFront (b := [.char '\\', .char '\n']) hText h.symm]
    rfl
  · rename_i r
    simp only [Except.ok.injEq, Prod.mk.injEq, true_and] at h
    rw [hFront (b := [.char '\\', .char '\r', .char '\n']) hText h.symm]
    rfl
  · cases h
  · rename_i r
    simp only [Except.ok.injEq, Prod.mk.injEq, true_and] at h
    match a with
    | [] | [_] => simp at h
    | c :: d :: b =>
        simp only [List.cons_append, List.cons.injEq] at hText
        obtain ⟨rfl, rfl, rfl⟩ := hText
        have hSame : lineCommentLength (b ++ s') = b.length := by
          rw [List.length_cons, List.length_cons, lineCommentLength_eq_commentLength] at h
          rw [lineCommentLength_eq_commentLength]
          have hLength := Nat.add_right_cancel h
          rcases commentLength_append hLength with rfl | ⟨hHead, hSame⟩
          · rw [hEnd rfl]
            exact hLength
          · obtain ⟨r, rfl⟩ := List.head?_eq_some_iff.mp (hLineEnd hHead)
            exact hSame r
        simp only [List.cons_append, first, hSame, List.length_cons]
  · rename_i r
    split at h
    · rename_i n hFound
      simp only [Except.ok.injEq, Prod.mk.injEq, true_and] at h
      match a with
      | [] | [_] => simp at h
      | c :: d :: b =>
          simp only [List.cons_append, List.cons.injEq] at hText
          obtain ⟨rfl, rfl, rfl⟩ := hText
          have hInside : n + (Text.ofString "*/").length ≤ b.length := by
            simp only [List.length_cons] at h
            have hTwo : (Text.ofString "*/").length = 2 := rfl
            omega
          simp only [List.cons_append, first, Text.find?_append s' hFound hInside, h]
    · cases h
  · split at h
    · rename_i hSpace
      simp only [Except.ok.injEq, Prod.mk.injEq, true_and] at h
      match a with
      | [] => simp at h
      | [c] => exact first_horizontalSpace (by simpa [← hText] using hSpace) s'
      | _ :: _ :: _ => simp at h
    · obtain ⟨found, -, hEq⟩ := Except.map_eq_ok_iff.mp h
      cases hEq

/-- No token of several characters ends with a character that joins nothing. -/
theorem tokenAt_ne_of_isHard {c : SourceChar} {b q : Text} (hNe : b ≠ []) (hHard : isHard c = true)
    (hInner : isInner c = false) : tokenAt (b ++ c :: q) ≠ .ok (kind, b.length + 1) := by
  intro h
  have hEnd : (b ++ c :: q)[b.length]? = some c := by
    simp
  have hQuote : c ≠ .char '"' ∧ c ≠ .char '\'' := by
    constructor <;>
    · rintro rfl
      exact absurd hHard (by decide +kernel)
  have hPlain : isWord c = false := by
    cases c with
    | byte b => rfl
    | char c => simp_all [isHard, isWord, SourceChar.satisfies]
  have hWord := identifierLength?_le (t := c :: q) hNe (by simpa using hPlain)
  have hNumber := numberLength?_le (t := c :: q) hNe (by simpa using hHard)
  have hPunctuator := punctuatorLength?_le (t := c :: q) hNe (by simpa using hInner)
  generalize b ++ c :: q = t at *
  unfold tokenAt at h
  split at h
  · rename_i n hn
    have hShort := hWord n hn
    unfold wordToken at h
    dsimp only at h
    split at h
    · split at h
      · rename_i k hRaw
        simp only [Except.ok.injEq, Prod.mk.injEq] at h
        obtain ⟨m, rfl, hLast⟩ := getElem?_of_rawLength? hRaw
        rw [List.getElem?_drop, List.getElem?_drop, show n + (1 + m) = b.length by
          omega, hEnd] at hLast
        exact hQuote.1 (Option.some.inj hLast)
      · cases h
    split at h
    · split at h
      · rename_i k hLiteral
        simp only [Except.ok.injEq, Prod.mk.injEq] at h
        obtain ⟨m, rfl, hLast⟩ := getElem?_of_literal? hLiteral
        rw [List.getElem?_drop, show n + m = b.length by omega] at hLast
        exact (hLast c hEnd).elim hQuote.1 hQuote.2
      · simp only [Except.ok.injEq, Prod.mk.injEq] at h
        omega
    · simp only [Except.ok.injEq, Prod.mk.injEq] at h
      omega
  split at h
  · rename_i n hn
    have hShort := hNumber n hn
    simp only [Except.ok.injEq, Prod.mk.injEq] at h
    omega
  split at h
  · rename_i found hLiteral
    simp only [Except.ok.injEq] at h
    rw [h] at hLiteral
    obtain ⟨m, hm, hLast⟩ := getElem?_of_literal? hLiteral
    rw [← Nat.succ.inj hm] at hLast
    exact (hLast c hEnd).elim hQuote.1 hQuote.2
  split at h
  · rename_i n hn
    have hShort := hPunctuator n hn
    simp only [Except.ok.injEq, Prod.mk.injEq] at h
    omega
  · simp only [Except.ok.injEq, Prod.mk.injEq] at h
    exact hNe (List.length_eq_zero_iff.mp (by omega))

theorem getLast?_of_commentLength {state : SpliceState} {r : Text}
    (h : commentLength state (a ++ .char '\n' :: r) = a.length) :
    a.getLast? ≠ some (.char '\\') := by
  induction a generalizing state with
  | nil => nofun
  | cons c a ih =>
      simp only [List.cons_append, commentLength, List.length_cons] at h
      split_ifs at h
      cases a with
      | nil =>
          rintro hLast
          obtain rfl := Option.some.inj hLast
          simp [commentLength, SpliceState.next] at h
      | cons d a =>
          rw [List.getLast?_cons_cons]
          exact ih (Nat.succ.inj h)

/-- A piece that ends in front of a line end does not end with a backslash, which would take the
line end with it. -/
theorem getLast?_ne_backslash {piece : Piece} {r : Text}
    (h : first (a ++ .char '\n' :: r) = .ok (piece, a.length)) :
    a.getLast? ≠ some (.char '\\') := by
  intro hLast
  obtain ⟨b, rfl⟩ := List.getLast?_eq_some_iff.mp hLast
  rw [List.append_assoc, List.length_append, List.length_singleton] at h
  cases b with
  | nil => cases h
  | cons c b =>
      generalize hText : c :: b ++ ([.char '\\'] ++ .char '\n' :: r) = t at h
      unfold first at h
      split at h
      · rename_i q
        simp only [Except.ok.injEq, Prod.mk.injEq, List.length_cons] at h
        obtain rfl := List.length_eq_zero_iff.mp (show b.length = 0 by omega)
        cases hText
      · rename_i q
        simp only [Except.ok.injEq, Prod.mk.injEq, List.length_cons] at h
        obtain ⟨d, rfl⟩ := List.length_eq_one_iff.mp (show b.length = 1 by omega)
        cases hText
      · cases h
      · rename_i q
        simp only [Except.ok.injEq, Prod.mk.injEq] at h
        cases b with
        | nil => cases hText
        | cons d b =>
            obtain rfl : b ++ ([.char '\\'] ++ .char '\n' :: r) = q := by
              simpa using (List.cons.inj (List.cons.inj hText).2).2
            rw [lineCommentLength_eq_commentLength, ← List.append_assoc, List.length_cons,
              List.length_cons] at h
            have hComment : commentLength .plain (b ++ [SourceChar.char '\\'] ++ .char '\n' :: r)
                = (b ++ [SourceChar.char '\\']).length := by
              rw [List.length_append, List.length_singleton]
              omega
            exact getLast?_of_commentLength hComment (by simp)
      · rename_i q
        split at h
        · rename_i n hFound
          simp only [Except.ok.injEq, Prod.mk.injEq] at h
          cases b with
          | nil => cases hText
          | cons d b =>
              obtain rfl : b ++ ([.char '\\'] ++ .char '\n' :: r) = q := by
                simpa using (List.cons.inj (List.cons.inj hText).2).2
              obtain ⟨z, hz⟩ := prefix_of_find? hFound
              have hSlash :
                  (b ++ ([.char '\\'] ++ .char '\n' :: r))[n + 1]? = some (.char '/') := by
                rw [← List.getElem?_drop, ← hz]
                rfl
              rw [List.length_cons, List.length_cons] at h
              rw [show n + 1 = b.length by
                omega, List.getElem?_append_right (Nat.le_refl _), Nat.sub_self] at hSlash
              cases hSlash
        · cases h
      · split at h
        · simp at h
        · obtain ⟨⟨kind, n⟩, hToken, hEq⟩ := Except.map_eq_ok_iff.mp h
          cases hEq
          exact tokenAt_ne_of_isHard (List.cons_ne_nil c b) (by decide +kernel) (by decide)
            (hText ▸ hToken)

end Demacro.Piece
