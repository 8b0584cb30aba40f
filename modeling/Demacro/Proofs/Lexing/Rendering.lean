import Demacro.Proofs.Lexing.Echo

/-!
Reading a rendered line again. Rendering writes a space for whatever stands between two tokens, and
the primary spelling for a punctuator that has two. The main result is that the tokens of a line are
read back from what they are rendered as, if no two hash marks are joined by it.
-/

namespace Demacro

namespace Token

/-- What can be told of a token without its place: its class and its lexeme. -/
def content (t : Token) : TokenKind × Text :=
  (t.kind, t.lexeme)

/-- A punctuator of hash marks. -/
def isHashes (t : Token) : Bool :=
  t.isPunctIn ["#", "##"]

/-- Tokens that can be rendered: every character is part of a known token, and punctuators of hash
marks are apart. -/
structure IsRenderable (ts : List Token) : Prop where
  known : ∀ t ∈ ts, t.kind ≠ .other
  apart : ts.IsChain fun a b => a.isHashes = true → b.isHashes = true → b.spaced = true

theorem isRenderable_iff {ts : List Token} : IsRenderable ts ↔ (∀ t ∈ ts, t.kind ≠ .other)
    ∧ ts.IsChain fun a b => (!a.isHashes || !b.isHashes || b.spaced) = true := by
  have hApart : ∀ a b : Token, (!a.isHashes || !b.isHashes || b.spaced) = true ↔
      (a.isHashes = true → b.isHashes = true → b.spaced = true) := by
    intro a b
    cases a.isHashes <;> cases b.isHashes <;> simp
  simp only [hApart]
  exact ⟨fun h => ⟨h.known, h.apart⟩, fun h => ⟨h.1, h.2⟩⟩

instance (ts : List Token) : Decidable (IsRenderable ts) :=
  decidable_of_iff _ isRenderable_iff.symm

theorem isHashes_iff {t : Token} : t.isHashes = true ↔
    t.kind = .punctuator ∧ (t.lexeme = Text.ofString "#" ∨ t.lexeme = Text.ofString "##") := by
  simp [isHashes, isPunctIn, isPunct, ← and_or_left]

end Token

namespace Piece

open Token

variable {path : String} {p : Cursor} {start spaced : Bool} {c : SourceChar}
  {x u s s' t r a w : Text} {kind : TokenKind} {tok : Token} {tokens ts rest : List Token}

/-- A hash mark goes on with nothing but a hash mark. -/
theorem punctuatorLength?_hash (hNe : a ≠ []) (hHash : a ≠ Text.ofString "#") :
    punctuatorLength? (a ++ .char '#' :: w) = punctuatorLength? a := by
  have hAll : ∀ p ∈ punctuators, ∀ k < 5, ((Text.ofString p).take k).getLast? = some (.char '#') →
      (Text.ofString p).take k = Text.ofString "#" ∨ (Text.ofString p).take k
      = Text.ofString "##" := by
    decide +kernel
  have hShort : ∀ p ∈ punctuators, (Text.ofString p).length < 5 := by
    decide +kernel
  rw [punctuatorLength?, punctuatorLength?, List.find?_congr]
  intro p hp
  refine isPrefixOf_append_of_not fun d hd hPrefix => ?_
  obtain rfl := Option.some.inj hd
  have hTake := List.prefix_iff_eq_take.mp hPrefix
  have hLength := Nat.lt_of_le_of_lt hPrefix.length_le (hShort p hp)
  have hMarks := hAll p hp _ hLength (by rw [← hTake]; simp)
  rw [← hTake] at hMarks
  rcases hMarks with hOne | hTwo
  · exact hNe (List.append_inj_left' (show a ++ [.char '#'] = [] ++ [.char '#'] from hOne) rfl)
  · exact hHash (List.append_inj_left' (show a ++ [.char '#'] = Text.ofString "#"
      ++ [.char '#'] from hTwo) rfl)

theorem startsToken_hash (hNe : a ≠ []) (h : startsToken (a ++ s) = true) :
    startsToken (a ++ .char '#' :: w) = true := by
  obtain ⟨c, a, rfl⟩ := List.exists_cons_of_ne_nil hNe
  rw [List.cons_append, startsToken_cons] at h ⊢
  obtain ⟨hLineEnd, hSpace, hSplice, hComment⟩ := h
  refine ⟨hLineEnd, hSpace, fun hc => ?_, fun hc => ?_⟩
  · match a with
    | [] => simp
    | [d] => exact ⟨(hSplice hc).1, by simp⟩
    | d :: e :: a => exact hSplice hc
  · cases a with
    | nil => simp
    | cons d a => exact hComment hc

/-- A token that is no hash mark stays as it is when what is behind it gives way to one. -/
theorem first_of_hash (h : first (x ++ (u ++ s)) = .ok (.token kind, x.length))
    (hHash : x ++ u ≠ Text.ofString "#")
    (hLiteral : literal? (u ++ s) = none → literal? (u ++ .char '#' :: w) = none)
    (hStray : literal? (x ++ (u ++ s)) = none → literal? (x ++ (u ++ .char '#' :: w)) = none) :
    first (x ++ (u ++ .char '#' :: w)) = .ok (.token kind, x.length) := by
  have hNe := ne_nil_of_first h
  have hNeAll : x ++ u ≠ [] := by
    simp [hNe]
  have hHard : ∀ d ∈ (SourceChar.char '#' :: w).head?, isHard d = true := by
    intro d hd
    obtain rfl := Option.some.inj hd
    decide +kernel
  have hWord : ∀ d ∈ (SourceChar.char '#' :: w).head?, isWord d = true →
      ∃ e ∈ s.head?, isWord e = true := by
    intro d hd hWord
    rw [isWord_eq_false_of_isHard (hHard d hd)] at hWord
    cases hWord
  obtain ⟨hStarts, hToken⟩ := first_eq_token_iff.mp h
  rw [← List.append_assoc] at hStarts
  have hStarts' := startsToken_hash (w := w) hNeAll hStarts
  rw [List.append_assoc] at hStarts'
  rcases tokenAt_append hToken hNe hWord (punctuatorLength?_hash hNeAll hHash)
      (by simp) hLiteral hStray with
    hSame | ⟨n, hNumber, hLonger⟩
  · exact first_eq_token_iff.mpr ⟨hStarts', hSame⟩
  · have hShort := numberLength?_le hNeAll hHard n
    rw [List.append_assoc] at hShort
    have hFirst := first_eq_token_iff.mpr ⟨hStarts', hNumber⟩
    exact absurd (hShort (numberLength?_of_first hFirst)) (Nat.not_le_of_lt hLonger)

/-- A token stays as it is when what is behind it gives way to a bound, or to a hash mark that it is
not. -/
theorem first_of_end (h : first (x ++ (u ++ s)) = .ok (.token kind, x.length))
    (hEnd : ∀ c ∈ s'.head?, IsBound c ∨ c = .char '#' ∧ x ++ u ≠ Text.ofString "#")
    (hLiteral : literal? (u ++ s) = none → literal? (u ++ s') = none)
    (hStray : literal? (x ++ (u ++ s)) = none → literal? (x ++ (u ++ s')) = none) :
    first (x ++ (u ++ s')) = .ok (.token kind, x.length) := by
  cases s' with
  | nil => exact first_of_isBound h (by simp) hLiteral hStray
  | cons c w =>
      rcases hEnd c rfl with hBound | ⟨rfl, hHash⟩
      · exact first_of_isBound h (by simpa using hBound) hLiteral hStray
      · exact first_of_hash h hHash hLiteral hStray

/-- Hash marks are punctuators wherever they stand. -/
theorem first_hash (t : Text) :
    first (.char '#' :: t) = .ok (.token .punctuator, if t.head? = some (.char '#') then 2
        else 1) := by
  have hHard : ∀ d ∈ (SourceChar.char '#' :: t).head?, isHard d = true := by
    intro d hd
    obtain rfl := Option.some.inj hd
    decide +kernel
  have hPunctuator : punctuatorLength? (.char '#' :: t) = some (if t.head? = some (.char '#') then 2
      else 1) := by
    cases t with
    | nil => rfl
    | cons d t =>
        by_cases hd : d = .char '#'
        · rw [hd]
          rfl
        · have hPasting : (SourceChar.char '#' == d) = false := by
            rw [beq_eq_false_iff_ne]
            exact Ne.symm hd
          simp [hd, punctuatorLength?, punctuators, Text.ofString, List.isPrefixOf, hPasting]
          rfl
  rw [first_eq_token_iff, startsToken_cons, tokenAt, identifierLength?_of_isHard hHard,
    numberLength?_of_isHard hHard, literal?_eq_none (by simp), hPunctuator]
  simp [SourceChar.satisfies, isHorizontalSpace]

/-- The token stands at the front of `x ++ r` and is written as `x` there. -/
structure Heads (tok : Token) (x r : Text) : Prop where
  piece : first (x ++ r) = .ok (.token tok.kind, x.length)
  spelling : tok.lexeme = lexemeOf tok.kind x

/-- Only punctuators of hash marks start with a hash mark. -/
theorem Heads.isHashes (h : Heads tok x r) (hHead : tok.lexeme.head? = some (.char '#')) :
    tok.isHashes = true := by
  have hDigraphs : ∀ d ∈ digraphs, (Text.ofString d.2).head? = some (.char '#') →
      Text.ofString d.2 = Text.ofString "#" ∨ Text.ofString d.2 = Text.ofString "##" := by
    decide
  have hMarks : x.head? = some (.char '#') →
      tok.kind = .punctuator ∧ (x = Text.ofString "#" ∨ x = Text.ofString "##") := by
    intro hx
    obtain ⟨y, rfl⟩ := List.head?_eq_some_iff.mp hx
    have hFirst := h.piece.symm.trans (first_hash (y ++ r))
    simp only [Except.ok.injEq, Prod.mk.injEq, Piece.token.injEq, List.length_cons] at hFirst
    refine ⟨hFirst.1, ?_⟩
    cases y with
    | nil => exact .inl rfl
    | cons d y =>
        have hLength := hFirst.2
        split at hLength
        · rename_i hSecond
          obtain rfl := Option.some.inj hSecond
          cases List.length_eq_zero_iff.mp (Nat.succ.inj (Nat.succ.inj hLength))
          exact .inr rfl
        · cases hLength
  rw [isHashes_iff]
  rw [h.spelling] at hHead ⊢
  by_cases hKind : tok.kind = .punctuator
  · rw [lexemeOf, if_pos hKind, primarySpelling] at hHead ⊢
    refine ⟨hKind, ?_⟩
    split at hHead
    · rename_i d hFound
      exact hDigraphs d (List.mem_of_find?_eq_some hFound) hHead
    · exact (hMarks hHead).2
  · rw [lexemeOf, if_neg hKind] at hHead
    exact absurd (hMarks hHead).1 hKind

/-- No known token is a quotation mark at which no literal starts. -/
theorem Heads.ne_quote (h : Heads tok x r) (hKnown : tok.kind ≠ .other)
    (hNone : literal? (x ++ r) = none) : ∀ c ∈ (x ++ r).head?, c ≠ .char '"' ∧ c ≠ .char '\'' := by
  intro c hc
  obtain ⟨t, ht⟩ := List.head?_eq_some_iff.mp hc
  have hFirst := h.piece
  rw [ht] at hFirst hNone
  by_contra hQuote
  have hOther := hFirst.symm.trans (first_quote (by tauto) hNone)
  simp only [Except.ok.injEq, Prod.mk.injEq, Piece.token.injEq] at hOther
  exact hKnown hOther.1

theorem Heads.lexeme_ne_nil (h : Heads tok x r) : tok.lexeme ≠ [] := by
  have hDigraphs : ∀ d ∈ digraphs, Text.ofString d.2 ≠ [] := by
    decide
  have hNe := ne_nil_of_first h.piece
  rw [h.spelling, lexemeOf, primarySpelling]
  split
  · split
    · rename_i d hFound
      exact hDigraphs d (List.mem_of_find?_eq_some hFound)
    · exact hNe
  · exact hNe

/-- A token is found again behind what stands in front of it. What stands on its line in front of it
leaves a mark on it. -/
theorem exists_heads (h : Lexed path p start spaced t (tok :: rest)) :
    ∃ b x r q, t = b ++ (x ++ r) ∧ Heads tok x r ∧ Lexed path q false false r rest
      ∧ (tok.atLineStart = false → b = [] ∨ tok.spaced = true)
      ∧ (tok.atLineStart = false → spaced = true → tok.spaced = true) := by
  generalize hAll : tok :: rest = tokens at h
  induction h with
  | done => cases hAll
  | @lineEnd p start spaced r tokens h ih =>
      obtain ⟨b, x, r, q, rfl, hHeads, hRest, -, -⟩ := ih hAll
      subst hAll
      have hStart := head_of_ofTextAt h.ofTextAt_eq_ok rfl tok rfl
      refine ⟨.char '\n' :: b, x, r, q, rfl, hHeads, hRest, ?_, ?_⟩ <;>
      · intro hInside
        rw [hStart] at hInside
        cases hInside
  | @blank p start spaced a r tokens hFirst h ih =>
      obtain ⟨b, x, r, q, rfl, hHeads, hRest, -, hSpaced⟩ := ih hAll
      refine ⟨a ++ b, x, r, q, by simp, hHeads, hRest, fun hInside => ?_, fun hInside _ => ?_⟩
      · exact .inr (hSpaced hInside rfl)
      · exact hSpaced hInside rfl
  | @token p start spaced x r kind tokens hFirst h ih =>
      obtain ⟨rfl, rfl⟩ := List.cons.inj hAll
      exact ⟨[], x, r, _, rfl, ⟨hFirst, rfl⟩, h, fun _ => .inl rfl, fun _ hSpaced => hSpaced⟩

/-- The text is read as tokens of these classes and lexemes, wherever it stands. -/
def Rereads (t : Text) (ts : List Token) : Prop :=
  ∀ path p start spaced, ∃ tokens, Lexed path p start spaced t tokens
    ∧ tokens.map content = ts.map content

theorem Rereads.nil : Rereads [] [] :=
  fun _ _ _ _ => ⟨[], .done, rfl⟩

theorem Rereads.blank (hFirst : first (x ++ r) = .ok (.blank, x.length)) (h : Rereads r ts) :
    Rereads (x ++ r) ts := by
  intro path p start spaced
  obtain ⟨tokens, hLexed, hContent⟩ := h path (p.past x) start true
  exact ⟨tokens, .blank hFirst hLexed, hContent⟩

theorem Rereads.token (hFirst : first (x ++ r) = .ok (.token tok.kind, x.length))
    (hLexeme : tok.lexeme = lexemeOf tok.kind x) (h : Rereads r ts) :
    Rereads (x ++ r) (tok :: ts) := by
  intro path p start spaced
  obtain ⟨tokens, hLexed, hContent⟩ := h path (p.past x) false false
  refine ⟨_, .token hFirst hLexed, ?_⟩
  rw [List.map_cons, List.map_cons, hContent, content, content, hLexeme]

/-- What is read and what is rendered have a beginning in common. Where they part, the rendered text
has a character that ends every token, or a hash mark. -/
def Parallel (t t' : Text) : Prop :=
  ∃ u s s', t = u ++ s ∧ t' = u ++ s' ∧ ∀ c ∈ s'.head?, IsBound c ∨ c = .char '#'

/-- A token that is rendered in another spelling is read back. -/
theorem rereads_of_written
    (hFirst : first (tok.lexeme ++ w) = .ok (.token tok.kind, tok.lexeme.length))
    (hLexeme : tok.lexeme = lexemeOf tok.kind tok.lexeme)
    (hHead : ∃ c ∈ tok.lexeme.head?, IsBound c ∨ c = .char '#') (hBehind : Rereads w ts) :
    Rereads (tok.lexeme ++ w) (tok :: ts) ∧ Parallel t (tok.lexeme ++ w) := by
  obtain ⟨c, hc, hEnd⟩ := hHead
  have hFirstCharacter : (tok.lexeme ++ w).head? = some c := by
    rw [List.head?_append, hc]
    rfl
  refine ⟨.token hFirst hLexeme hBehind, [], _, _, rfl, rfl, fun d hd => ?_⟩
  rwa [Option.some.inj (hd.symm.trans hFirstCharacter)]

theorem rereads_of_isHashes (hHashes : tok.isHashes = true) (hApart : w.head? ≠ some (.char '#'))
    (hBehind : Rereads w ts) :
    Rereads (tok.lexeme ++ w) (tok :: ts) ∧ Parallel t (tok.lexeme ++ w) := by
  obtain ⟨hKind, hLexeme⟩ := isHashes_iff.mp hHashes
  have hHead : tok.lexeme.head? = some (.char '#') := by
    rcases hLexeme with hOne | hTwo
    · rw [hOne]
      rfl
    · rw [hTwo]
      rfl
  refine rereads_of_written ?_ ?_ ⟨_, hHead, .inr rfl⟩ hBehind
  · rw [hKind]
    rcases hLexeme with hOne | hTwo
    · rw [hOne]
      refine (first_hash w).trans ?_
      rw [if_neg hApart]
      rfl
    · rw [hTwo]
      exact first_hash (.char '#' :: w)
  · rw [hKind]
    rcases hLexeme with hOne | hTwo
    · rw [hOne]
      decide
    · rw [hTwo]
      decide

theorem rereads_of_bracket {b : Char} (hKind : tok.kind = .punctuator)
    (hb : b ∈ ['[', ']', '\x7b', '\x7d']) (hLexeme : tok.lexeme = [.char b])
    (hBehind : Rereads w ts) :
    Rereads (tok.lexeme ++ w) (tok :: ts) ∧ Parallel t (tok.lexeme ++ w) := by
  have hSolo : ∀ b ∈ ['[', ']', '\x7b', '\x7d'], b ∈ [';', '(', ')', '[', ']', '\x7b', '\x7d'] :=
    List.forall_mem_of_all (by decide)
  have hPrimary : ∀ b ∈ ['[', ']', '\x7b', '\x7d'], lexemeOf .punctuator [.char b] = [.char b] :=
    List.forall_mem_of_all (by decide +kernel)
  refine rereads_of_written ?_ ?_
    ⟨_, by rw [hLexeme]; rfl, .inl (isBound_of_mem (List.mem_cons_of_mem _ (hSolo b hb)))⟩ hBehind
  · rw [hKind, hLexeme]
    exact first_solo (hSolo b hb) w
  · rw [hKind, hLexeme, hPrimary b hb]

/-- A token that is rendered as it is written is read back. -/
theorem Heads.rereads_of_spelling (hHeads : Heads tok x r) (hSame : tok.lexeme = x)
    (hKnown : tok.kind ≠ .other) (hHashes : ¬ tok.isHashes = true) (hBehind : Rereads w ts)
    (hParallel : Parallel r w) (hLiteral : literal? r = none → literal? w = none) :
    Rereads (tok.lexeme ++ w) (tok :: ts) ∧ Parallel (x ++ r) (tok.lexeme ++ w) := by
  obtain ⟨u, s, s', rfl, rfl, hEnd⟩ := hParallel
  have hFirst := hHeads.piece
  have hNe := ne_nil_of_first hFirst
  have hNoMark : x ++ u ≠ Text.ofString "#" := by
    intro hMark
    refine hHashes (hHeads.isHashes ?_)
    rw [hSame, ← List.head?_append_of_ne_nil _ hNe, hMark]
    rfl
  have hStray : literal? (x ++ (u ++ s)) = none → literal? (x ++ (u ++ s')) = none := by
    intro hNone
    refine literal?_eq_none fun c hc => hHeads.ne_quote hKnown hNone c ?_
    rwa [List.head?_append_of_ne_nil _ hNe] at hc ⊢
  have hPiece : first (x ++ (u ++ s')) = .ok (.token tok.kind, x.length) :=
    first_of_end hFirst (fun c hc => (hEnd c hc).imp_right fun hMark => ⟨hMark, hNoMark⟩)
      hLiteral hStray
  rw [hSame]
  exact ⟨.token hPiece hHeads.spelling hBehind, x ++ u, s, s', by simp, by simp, hEnd⟩

/-- A token is read back if what is rendered behind it is. -/
theorem Heads.rereads (hHeads : Heads tok x r) (hKnown : tok.kind ≠ .other) (hBehind : Rereads w ts)
    (hParallel : Parallel r w) (hLiteral : literal? r = none → literal? w = none)
    (hApart : tok.isHashes = true → w.head? ≠ some (.char '#')) :
    Rereads (tok.lexeme ++ w) (tok :: ts) ∧ Parallel (x ++ r) (tok.lexeme ++ w) := by
  by_cases hHashes : tok.isHashes = true
  · exact rereads_of_isHashes hHashes (hApart hHashes) hBehind
  by_cases hKind : tok.kind = .punctuator
  · have hHash : ¬ IsHash tok.kind x := fun hHash =>
      hHashes (isHashes_iff.mpr
        ⟨hKind, .inl (by rw [hHeads.spelling, lexemeOf, if_pos hKind, hHash.2])⟩)
    have hPasting : tok.kind = .punctuator → primarySpelling x ≠ Text.ofString "##" :=
        fun _ hSpelling =>
      hHashes (isHashes_iff.mpr
        ⟨hKind, .inr (by rw [hHeads.spelling, lexemeOf, if_pos hKind, hSpelling])⟩)
    rcases lexemeOf_eq hHash hPasting with hSame | ⟨b, hb, hBracket⟩
    · exact hHeads.rereads_of_spelling (hHeads.spelling.trans hSame) hKnown hHashes hBehind
        hParallel hLiteral
    · exact rereads_of_bracket hKind hb (hHeads.spelling.trans hBracket) hBehind
  · have hSame : tok.lexeme = x := hHeads.spelling.trans (if_neg hKind)
    exact hHeads.rereads_of_spelling hSame hKnown hHashes hBehind hParallel hLiteral

/-- Where a known token is read, no literal is rendered that is not read. -/
theorem Parallel.literal?_eq_none (h : Parallel (x ++ r) w) (hHeads : Heads tok x r)
    (hKnown : tok.kind ≠ .other) (hNone : literal? (x ++ r) = none) : literal? w = none := by
  have hQuote := hHeads.ne_quote hKnown hNone
  obtain ⟨u, s, s', hText, rfl, hEnd⟩ := h
  refine Piece.literal?_eq_none fun c hc => ?_
  cases u with
  | nil =>
      rcases hEnd c hc with hBound | rfl
      · exact hBound.ne_quote
      · decide
  | cons d u => exact hQuote c (by rw [hText]; exact hc)

/-- The tokens of a line are read back from what they are rendered as. -/
theorem rereads_render (hHeads : Heads tok x r) (hLexed : Lexed path p false false r (ts ++ rest))
    (hLine : ∀ u ∈ ts, u.atLineStart = false) (hRenderable : IsRenderable (tok :: ts)) :
    Rereads (render (tok :: ts)) (tok :: ts) ∧ Parallel (x ++ r) (render (tok :: ts)) := by
  have hKnown := hRenderable.known tok List.mem_cons_self
  rw [render_cons]
  induction ts generalizing tok x r p with
  | nil => exact hHeads.rereads hKnown .nil ⟨[], r, [], rfl, rfl,
      by simp⟩ (fun _ => rfl) fun _ => by simp [trail]
  | cons next ts ih =>
      obtain ⟨b, y, r', q, rfl, hNext, hBehind, hBlank, -⟩ := exists_heads hLexed
      obtain ⟨hTogether, hApart⟩ := List.isChain_cons_cons.mp hRenderable.apart
      have hKnown' : ∀ u ∈ next :: ts, u.kind ≠ .other :=
        fun u hu => hRenderable.known u (List.mem_cons_of_mem _ hu)
      have hNextKnown := hKnown' next List.mem_cons_self
      obtain ⟨hRereads, hParallel⟩ := ih hNext hBehind
        (fun u hu => hLine u (List.mem_cons_of_mem _ hu)) ⟨hKnown', hApart⟩ hNextKnown
      rw [trail_cons, render_cons]
      cases hSpaced : next.spaced with
      | true =>
          rw [if_pos rfl]
          refine hHeads.rereads hKnown (.blank (first_space _) hRereads) ⟨[], _, _, rfl, rfl,
            fun c hc => .inl ?_⟩ (fun _ => rfl) fun _ => by simp
          obtain rfl := Option.some.inj hc
          exact isBound_of_mem (by simp)
      | false =>
          obtain rfl := (hBlank (hLine next List.mem_cons_self)).resolve_right (by simp [hSpaced])
          rw [if_neg Bool.false_ne_true]
          refine hHeads.rereads hKnown hRereads hParallel
            (hParallel.literal?_eq_none hNext hNextKnown) fun hHashes hHead => ?_
          have hNextHead : next.lexeme.head? = some (.char '#') := by
            rwa [List.nil_append, List.head?_append_of_ne_nil _ hNext.lexeme_ne_nil] at hHead
          rw [hTogether hHashes (hNext.isHashes hNextHead)] at hSpaced
          cases hSpaced

end Piece

namespace Token

open Piece

variable {path : String} {p : Cursor} {start spaced : Bool} {t : Text}
  {tokens line xs ys ts : List Token}

theorem Lexed.exists_suffix (h : Lexed path p start spaced t (xs ++ ys)) :
    ∃ q start' spaced' r, Lexed path q start' spaced' r ys := by
  cases xs with
  | nil => exact ⟨p, start, spaced, t, h⟩
  | cons x xs =>
      obtain ⟨d, r, -, hLexed, -⟩ := h.exists_behind
      exact ⟨_, false, false, r, hLexed⟩

/-- The end of a logical line is read back from what it is rendered as: as tokens of the same
classes and with the same lexemes. -/
theorem ofText_render (h : ofText path t = .ok tokens) (hLine : line ∈ logicalLines tokens)
    (hSuffix : ts <:+ line) (hRenderable : IsRenderable ts) (path' : String) :
    ∃ tokens', ofText path' (render ts) = .ok tokens' ∧ tokens'.map content = ts.map content := by
  obtain ⟨before, first, others, after, rfl, rfl, hContinues⟩ := exists_of_mem_logicalLines hLine
  obtain ⟨front, hFront⟩ := hSuffix
  cases ts with
  | nil => exact ⟨[], by rw [render, ofText, ofTextAt], rfl⟩
  | cons tok ts =>
      have hTokens : before ++ first :: (others ++ after) = (before ++ front) ++ tok
          :: (ts ++ after) := by
        rw [← List.cons_append, ← hFront]
        simp
      have hInside : ∀ u ∈ ts, u.atLineStart = false := by
        intro u hu
        apply hContinues
        cases front with
        | nil =>
            obtain ⟨-, rfl⟩ := List.cons.inj hFront
            exact hu
        | cons x front =>
            obtain ⟨-, rfl⟩ := List.cons.inj hFront
            simp [hu]
      rw [hTokens] at h
      obtain ⟨q, start, spaced, r, hLexed⟩ := (lexed_of_ofTextAt h).exists_suffix
      obtain ⟨b, x, r', q', rfl, hHeads, hBehind, -⟩ := exists_heads hLexed
      obtain ⟨tokens', hLexed', hContent⟩ :=
        (rereads_render hHeads hBehind hInside hRenderable).1 path' .start true false
      exact ⟨tokens', hLexed'.ofTextAt_eq_ok, hContent⟩

/-- A replacement list with digraphs, a comment, a line splice and literals. -/
theorem ofText_render_replacement :
    ∃ tokens, ofText "f.cpp" "#define A(x) <:x:>/**/+ %:\\\n%:%:+1.5e+3 L'a'\n" = .ok tokens
      ∧ ∃ line ∈ logicalLines tokens, render (line.drop 6) = Text.ofString "[x] + # ##+1.5e+3 L'a'"
      ∧ ∃ tokens', ofText "g.cpp" (render (line.drop 6)) = .ok tokens'
      ∧ tokens'.map content = (line.drop 6).map content := by
  refine Except.exists_of_passes (fun tokens => (logicalLines tokens).any fun line =>
    render (line.drop 6) == Text.ofString "[x] + # ##+1.5e+3 L'a'"
      && decide (IsRenderable (line.drop 6)))
    (by decide +kernel) fun tokens hTokens hTest => ?_
  obtain ⟨line, hLine, hTest⟩ := List.any_eq_true.mp hTest
  rw [Bool.and_eq_true, beq_iff_eq, decide_eq_true_iff] at hTest
  exact ⟨line, hLine, hTest.1, ofText_render hTokens hLine (List.drop_suffix 6 line) hTest.2
    "g.cpp"⟩

end Token

end Demacro
