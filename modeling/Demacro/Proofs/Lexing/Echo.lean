import Demacro.Proofs.Lexing.Derivation
import Demacro.Proofs.Lexing.Recovery

/-!
Reading what tokens of a line are written as. The text of a replacement keeps the spelling of its
tokens but for digraphs and white space, so it is passed wherever it is written, as long as no
quotation mark in it stands alone.
-/

namespace Demacro

/-- A quotation mark that starts no literal. -/
def Token.IsStray (t : Token) : Prop :=
  t.kind = .other ∧ (t.lexeme = [.char '"'] ∨ t.lexeme = [.char '\''])

/-- A token that can be written elsewhere: it joins nothing and starts no literal there. -/
structure Token.IsMovable (t : Token) : Prop where
  stray : ¬t.IsStray
  hash : t.isPunct "#" = false
  pasting : t.isPunct "##" = false

namespace Piece

open Token

variable {path : String} {p : Cursor} {start spaced : Bool} {c : SourceChar} {x u s s' t r : Text}
  {kind : TokenKind} {tok : Token} {tokens ts rest : List Token}

/-- A character at which every token in front of it ends. -/
def IsBound (c : SourceChar) : Prop :=
  isHard c = true ∧ isLoose c = true ∧ c ≠ .char '\n'

theorem isBound_of_mem {c : Char} (h : c ∈ [' ', ';', '(', ')', '[', ']', '\x7b', '\x7d']) :
    IsBound (.char c) := by
  have hAll : ∀ c ∈ [' ', ';', '(', ')', '[', ']', '\x7b', '\x7d'], isHard (.char c) = true
    ∧ isLoose (.char c) = true
      ∧ c ≠ '\n' :=
    List.forall_mem_of_all (by decide +kernel)
  obtain ⟨hHard, hLoose, hLineEnd⟩ := hAll c h
  exact ⟨hHard, hLoose, by simpa using hLineEnd⟩

theorem IsBound.ne_quote (h : IsBound c) : c ≠ .char '"' ∧ c ≠ .char '\'' := by
  constructor <;>
  · rintro rfl
    exact absurd h.2.1 (by decide)

/-- A token stays as it is when what is behind it gives way at a bound. -/
theorem first_of_isBound (h : first (x ++ (u ++ s)) = .ok (.token kind, x.length))
    (hBound : ∀ c ∈ s'.head?, IsBound c)
    (hLiteral : literal? (u ++ s) = none → literal? (u ++ s') = none)
    (hStray : literal? (x ++ (u ++ s)) = none → literal? (x ++ (u ++ s')) = none) :
    first (x ++ (u ++ s')) = .ok (.token kind, x.length) := by
  have hNe := ne_nil_of_first h
  have hFits : Fits (x ++ u) s s' := by
    refine ⟨fun c hc hWord => ?_, fun c hc => (hBound c hc).2.1, fun hLineEnd => ?_⟩
    · rw [isWord_eq_false_of_isHard (hBound c hc).1] at hWord
      cases hWord
    · exact absurd rfl (hBound _ hLineEnd).2.2
  rcases first_token_append h hNe hFits hLiteral hStray with hSame | ⟨n, hNumber, hLonger⟩
  · exact hSame
  · have hShort := numberLength?_le (a := x ++ u) (by simp [hNe]) fun c hc => (hBound c hc).1
    rw [List.append_assoc] at hShort
    exact absurd (hShort n (numberLength?_of_first hNumber)) (Nat.not_le_of_lt hLonger)

theorem punctuatorLength?_quote (hQuote : c = .char '"' ∨ c = .char '\'') (t : Text) :
    punctuatorLength? (c :: t) = none := by
  have hHeads : ∀ p ∈ punctuators, ∃ d ∈ (Text.ofString p).head?, d ≠ .char '"'
      ∧ d ≠ .char '\'' := by
    decide +kernel
  rw [punctuatorLength?, Option.map_eq_none_iff, List.find?_eq_none]
  intro p hp hPrefix
  obtain ⟨d, hd, hOther⟩ := hHeads p hp
  obtain ⟨q, hq⟩ := List.head?_eq_some_iff.mp hd
  obtain ⟨z, hz⟩ := List.isPrefixOf_iff_prefix.mp hPrefix
  rw [hq] at hz
  obtain ⟨rfl, -⟩ := List.cons.inj hz
  exact hQuote.elim hOther.1 hOther.2

/-- A quotation mark at which no literal starts is a token of its own. -/
theorem first_quote (hQuote : c = .char '"' ∨ c = .char '\'') (h : literal? (c :: t) = none) :
    first (c :: t) = .ok (.token .other, 1) := by
  have hToken : tokenAt (c :: t) = .ok (.other, 1) := by
    have hNoWord : Unicode.isWord '"' = false ∧ Unicode.isWord '\'' = false := by
      decide +kernel
    have hWord : identifierLength? (c :: t) = none := by
      rcases hQuote with rfl | rfl <;> rw [identifierLength?, if_neg (by simp [hNoWord])]
    have hNumber : numberLength? (c :: t) = none := by
      rcases hQuote with rfl | rfl <;> rfl
    rw [tokenAt, hWord, hNumber, h, punctuatorLength?_quote hQuote]
  refine first_eq_token_iff.mpr ⟨startsToken_cons.mpr ?_, hToken⟩
  rcases hQuote with rfl | rfl <;> simp [SourceChar.satisfies, isHorizontalSpace]

/-- The first token of a text in front of which a quotation mark stands alone is the mark. -/
theorem isStray_of_lexed (h : Lexed path p start spaced (c :: t) (tok :: tokens))
    (hQuote : c = .char '"' ∨ c = .char '\'') (hNone : literal? (c :: t) = none) : tok.IsStray := by
  have hFirst := first_quote hQuote hNone
  have hTokens := h.ofTextAt_eq_ok
  rw [← List.singleton_append] at hTokens hFirst
  rw [ofTextAt_token hFirst] at hTokens
  obtain ⟨others, -, hTokens⟩ := Except.bind_eq_ok_iff.mp hTokens
  cases hTokens
  exact ⟨rfl, by rcases hQuote with rfl | rfl <;> simp [lexemeOf]⟩

/-- What the tokens behind the first one of a line are written as. -/
def trail (ts : List Token) : Text :=
  ts.flatMap fun u => (if u.spaced then [.char ' '] else []) ++ u.lexeme

theorem render_cons (tok : Token) (ts : List Token) : render (tok :: ts) = tok.lexeme ++ trail ts :=
    rfl

theorem trail_cons (tok : Token) (ts : List Token) :
    trail (tok :: ts) = (if tok.spaced then [.char ' '] else []) ++ render (tok :: ts) := by
  rw [trail, List.flatMap_cons, List.append_assoc]
  rfl

theorem first_space (t : Text) : first (.char ' ' :: t) = .ok (.blank, 1) := rfl

/-- A token that is no hash mark is written as it is read, or as a bracket. -/
theorem lexemeOf_eq (hHash : ¬IsHash kind x)
    (hPasting : kind = .punctuator → primarySpelling x ≠ Text.ofString "##") :
    lexemeOf kind x = x ∨ ∃ c ∈ ['[', ']', '\x7b', '\x7d'], lexemeOf kind x = [.char c] := by
  unfold lexemeOf
  split
  · rename_i hKind
    have hOther := hPasting hKind
    have hNoHash := fun hSpelling => hHash ⟨hKind, hSpelling⟩
    unfold primarySpelling at hOther hNoHash ⊢
    split
    · rename_i d hFound
      simp only [hFound] at hOther hNoHash
      have hDigraphs : ∀ d ∈ digraphs, Text.ofString d.2 = Text.ofString "#"
        ∨ Text.ofString d.2 = Text.ofString "##"
          ∨ Text.ofString d.2 ∈ ['[', ']', '\x7b', '\x7d'].map fun c => [SourceChar.char c] := by
        decide
      have hBracket :=
        ((hDigraphs d (List.mem_of_find?_eq_some hFound)).resolve_left hNoHash).resolve_left hOther
      obtain ⟨c, hc, hEq⟩ := List.mem_map.mp hBracket
      exact .inr ⟨c, hc, hEq.symm⟩
    · exact .inl rfl
  · exact .inl rfl

/-- Where tokens of a line are written, the text of them is passed. Up to a change of spelling it is
what stands at the tokens. -/
theorem echo (hLexed : Lexed path p start spaced t (tok :: ts ++ rest))
    (hLine : ∀ u ∈ tok :: ts, u.atLineStart = false) (hMovable : ∀ u ∈ tok :: ts, u.IsMovable)
    (hBound : ∀ c ∈ r.head?, IsBound c) :
    Passes false (render (tok :: ts) ++ r) r ∧ (spaced = true → tok.spaced = true)
      ∧ (tok.spaced = false → ∃ u s s', t = u ++ s ∧ render (tok :: ts) ++ r = u ++ s'
        ∧ ∀ c ∈ s'.head?, IsBound c) := by
  generalize hAll : tok :: ts ++ rest = tokens at hLexed
  induction hLexed generalizing tok ts with
  | done => cases hAll
  | lineEnd h _ =>
      subst hAll
      have hStart := head_of_ofTextAt h.ofTextAt_eq_ok rfl tok rfl
      rw [hLine tok List.mem_cons_self] at hStart
      cases hStart
  | blank hFirst h ih =>
      obtain ⟨hPasses, hSpaced, -⟩ := ih hLine hMovable hAll
      refine ⟨hPasses, fun _ => hSpaced rfl, fun hAdjacent => ?_⟩
      rw [hSpaced rfl] at hAdjacent
      cases hAdjacent
  | @token p start spaced x t kind tokens hFirst h ih =>
      obtain ⟨rfl, rfl⟩ := List.cons.inj hAll
      obtain rfl : start = false := hLine _ List.mem_cons_self
      have hHere := hMovable _ List.mem_cons_self
      -- What stands behind the token and what is written behind it have a beginning in common.
      have hBehind : Passes false (trail ts ++ r) r ∧ ∃ u s s', t = u ++ s ∧ trail ts ++ r = u ++ s'
          ∧ (∀ c ∈ s'.head?, IsBound c) ∧ (u = [] ∨ ts ≠ []) := by
        cases ts with
        | nil => exact ⟨.done r, [], t, r, rfl, rfl, hBound, .inl rfl⟩
        | cons next ts =>
            obtain ⟨hPasses, -, hCommon⟩ := ih (fun u hu => hLine u (List.mem_cons_of_mem _ hu))
              (fun u hu => hMovable u (List.mem_cons_of_mem _ hu)) rfl
            rw [trail_cons]
            cases hSpaced : next.spaced with
            | true =>
                have hBlank : Passes false ([.char ' '] ++ (render (next :: ts) ++ r)) r :=
                  .blank (first_space _) hPasses
                refine ⟨by simpa using hBlank, [], t, _, rfl, rfl, fun c hc => ?_, .inl rfl⟩
                obtain rfl := Option.some.inj hc
                exact isBound_of_mem (by simp)
            | false =>
                obtain ⟨u, s, s', hText, hWritten, hEnd⟩ := hCommon hSpaced
                exact ⟨hPasses, u, s, s', hText, hWritten, hEnd, .inr (List.cons_ne_nil _ _)⟩
      obtain ⟨hPasses, u, s, s', rfl, hWritten, hEnd, hEmpty⟩ := hBehind
      have hLiteral : literal? (u ++ s) = none → literal? (u ++ s') = none := by
        intro hNone
        refine literal?_eq_none fun c hc => ?_
        cases u with
        | nil => exact (hEnd c hc).ne_quote
        | cons d u =>
            obtain rfl := Option.some.inj hc
            obtain ⟨next, ts, rfl⟩ :=
              List.exists_cons_of_ne_nil (hEmpty.resolve_left (List.cons_ne_nil _ _))
            by_contra hQuote
            exact (hMovable next (by simp)).stray (isStray_of_lexed h (by tauto) hNone)
      have hTokens : Lexed path _ false spaced _ _ := .token hFirst h
      obtain ⟨c, y, rfl⟩ := exists_head_of_first hFirst
      have hStray : literal? (c :: y ++ (u ++ s)) = none →
          literal? (c :: y ++ (u ++ s')) = none := by
        intro hNone
        refine literal?_eq_none fun d hd => ?_
        obtain rfl := Option.some.inj hd
        by_contra hQuote
        exact hHere.stray (isStray_of_lexed hTokens (by tauto) hNone)
      have hSame := first_of_isBound hFirst hEnd hLiteral hStray
      have hHash : ¬IsHash kind (c :: y) := fun hHash =>
        Bool.eq_false_iff.mp hHere.hash (isPunct_hash_iff.mpr hHash)
      have hPasting : kind = .punctuator → primarySpelling (c :: y) ≠ Text.ofString "##" := by
        rintro rfl hPasting
        refine Bool.eq_false_iff.mp hHere.pasting ?_
        simp [isPunct, lexemeOf, hPasting]
      rw [render_cons, List.append_assoc]
      rcases lexemeOf_eq hHash hPasting with hSpelling | ⟨b, hb, hBracket⟩
      · dsimp only
        rw [hSpelling, hWritten]
        refine ⟨.token hSame (fun hStart => absurd hStart Bool.false_ne_true) (hWritten ▸ hPasses),
          id, fun _ => ?_⟩
        exact ⟨c :: y ++ u, s, s', by simp, by simp, hEnd⟩
      · have hSolo : ∀ b ∈ ['[', ']', '\x7b', '\x7d'], b ∈ [';', '(', ')', '[', ']', '\x7b',
            '\x7d'] :=
          List.forall_mem_of_all (by decide)
        have hPassed : Passes false ([.char b] ++ (trail ts ++ r)) r :=
          .token (first_solo (hSolo b hb) _) (fun hStart => absurd hStart Bool.false_ne_true)
            hPasses
        dsimp only
        rw [hBracket]
        refine ⟨hPassed, id, fun _ => ⟨[], _, _, rfl, rfl, fun d hd => ?_⟩⟩
        obtain rfl := Option.some.inj hd
        exact isBound_of_mem (List.mem_cons_of_mem _ (hSolo b hb))

/-- The text of tokens of a line is passed in front of a bound. -/
theorem Passes.of_render (hLexed : Lexed path p start spaced t (ts ++ rest))
    (hLine : ∀ u ∈ ts, u.atLineStart = false) (hMovable : ∀ u ∈ ts, u.IsMovable)
    (hBound : ∀ c ∈ r.head?, IsBound c) : Passes false (render ts ++ r) r := by
  cases ts with
  | nil => exact .done r
  | cons tok ts => exact (echo hLexed hLine hMovable hBound).1

end Piece

end Demacro
