import Demacro.Proofs.Lexing.Pieces
import Mathlib.Data.List.Chain

/-!
Texts that are read to their end, whatever stands behind them. Reading goes piece by piece, so a
text is passed as soon as no piece of it goes on with what is behind.
-/

namespace Demacro

namespace Piece

variable {x r s t v : Text} {kind : TokenKind} {n : Nat}

/-- The lexeme of a token with the given spelling. -/
def lexemeOf (kind : TokenKind) (x : Text) : Text :=
  if kind = .punctuator then primarySpelling x else x

/-- The token that starts a directive. -/
def IsHash (kind : TokenKind) (x : Text) : Prop :=
  kind = .punctuator ∧ primarySpelling x = Text.ofString "#"

theorem eq_of_primarySpelling_eq_hash (h : primarySpelling x = Text.ofString "#") :
    x = Text.ofString "#" ∨ x = Text.ofString "%:" := by
  unfold primarySpelling at h
  split at h
  · rename_i d hFound
    have hSpelling : Text.ofString d.1 = x := by
      simpa using List.find?_some hFound
    have hDigraphs : ∀ d ∈ digraphs, Text.ofString d.2 = Text.ofString "#" → d.1 = "%:" := by
      decide
    rw [← hSpelling, hDigraphs d (List.mem_of_find?_eq_some hFound) h]
    exact .inr rfl
  · exact .inl h

theorem first_pos {piece : Piece} (h : first t = .ok (piece, n)) : 0 < n := by
  unfold first at h
  repeat' split at h
  all_goals try cases h
  all_goals try exact Nat.succ_pos _
  obtain ⟨⟨_, _⟩, hToken, hEq⟩ := Except.map_eq_ok_iff.mp h
  cases hEq
  exact tokenAt_pos hToken

theorem ne_nil_of_first {piece : Piece} (h : first (x ++ r) = .ok (piece, x.length)) : x ≠ [] :=
  List.length_pos_iff.mp (first_pos h)

end Piece

namespace Token

variable {path : String} {p : Cursor} {start spaced : Bool} {x r s t : Text} {kind : TokenKind}

open Piece

theorem ofTextAt_blank (h : first (x ++ r) = .ok (.blank, x.length)) :
    ofTextAt path p start spaced (x ++ r) = ofTextAt path (p.past x) start true r := by
  obtain ⟨c, x, rfl⟩ := List.exists_cons_of_ne_nil (ne_nil_of_first h)
  rw [List.cons_append, ofTextAt, ← List.cons_append, h]
  simp

theorem ofTextAt_lineEnd (r : Text) : ofTextAt path p start spaced (.char '\n' :: r)
    = ofTextAt path (p.past [.char '\n']) true false r := by
  rw [ofTextAt]
  rfl

theorem ofTextAt_token (h : first (x ++ r) = .ok (.token kind, x.length)) :
    ofTextAt path p start spaced (x ++ r) = (do
      let tokens ← ofTextAt path (p.past x) false false r
      return ⟨kind, lexemeOf kind x, ⟨path, p.offset, (p.past x).offset, p.line, p.column⟩, start,
        spaced⟩ :: tokens) := by
  obtain ⟨c, x, rfl⟩ := List.exists_cons_of_ne_nil (ne_nil_of_first h)
  rw [List.cons_append, ofTextAt, ← List.cons_append, h]
  simp [lexemeOf]

end Token

namespace Piece

variable {x a r s t v : Text} {kind : TokenKind} {n : Nat} {start : Bool}

/-- Reading the text `t` comes to its end `r` behind a token, with no line end in between. If a line
starts with it, the line is no directive. -/
inductive Passes : Bool → Text → Text → Prop where
  | done (r : Text) : Passes false r r
  | blank {start : Bool} {x r s : Text} (h : first (x ++ r) = .ok (.blank, x.length))
      (hRest : Passes start r s) : Passes start (x ++ r) s
  | token {start : Bool} {x r s : Text} {kind : TokenKind}
      (h : first (x ++ r) = .ok (.token kind, x.length))
      (hHash : start = true → ¬IsHash kind x) (hRest : Passes false r s) : Passes start (x ++ r) s

theorem Passes.trans (h : Passes start t s) (h' : Passes false s r) : Passes start t r := by
  induction h with
  | done r => exact h'
  | blank hFirst _ ih => exact .blank hFirst (ih h')
  | token hFirst hHash _ ih => exact .token hFirst hHash (ih h')

/-- A text without quotes, line ends and comments. -/
structure IsPlain (v : Text) : Prop where
  plain : ∀ c ∈ v, c.satisfies (['"', '\'', '\n'].contains ·) = false
  noComment : v.IsChain fun c d => ¬(c = .char '/' ∧ (d = .char '/' ∨ d = .char '*'))

/-- No piece of the text `v` goes on with `r` behind it. -/
structure Meets (v r : Text) : Prop where
  last : ∀ a ∈ v.getLast?, a.satisfies (['/', '\\', '\r'].contains ·) = false
  inner : ∀ b ∈ r.head?, isInner b = false
  hard : ∀ b ∈ r.head?, isHard b = true ∨ v.getLast? = some (.char ':') ∧ isWord b = true

theorem isWord_eq_false_of_isHard {c : SourceChar} (h : isHard c = true) : isWord c = false := by
  cases c with
  | byte b => rfl
  | char c =>
      by_contra hWord
      simp_all [isHard, isWord, SourceChar.satisfies]

theorem ne_of_isWord {c : SourceChar} (h : isWord c = true) (d : Char)
    (hd : Unicode.isWord d = false) : c ≠ .char d := by
  rintro rfl
  rw [isWord, SourceChar.satisfies, hd] at h
  cases h

theorem literal?_eq_none (h : ∀ c ∈ t.head?, c ≠ .char '"' ∧ c ≠ .char '\'') :
    literal? t = none := by
  unfold literal?
  split
  · rename_i c t
    have hHead := h _ rfl
    rw [if_neg (by simp_all)]
  · rfl

theorem IsPlain.append_left (h : IsPlain (a ++ v)) : IsPlain v :=
  ⟨fun c hc => h.plain c (List.mem_append_right a hc), h.noComment.right_of_append⟩

theorem Meets.append_left (h : Meets (a ++ v) r) (hNe : v ≠ []) : Meets v r := by
  have hLast : (a ++ v).getLast? = v.getLast? := by
    rw [List.getLast?_append_of_ne_nil _ hNe]
  exact ⟨hLast ▸ h.last, h.inner, hLast ▸ h.hard⟩

/-- The last place in a text, or in front of its last character, that no word and no number goes
past. -/
theorem Meets.exists_hard (h : Meets v r) :
    ∃ a t, v ++ r = a ++ t ∧ a.length ≤ v.length ∧ ∀ c ∈ t.head?, isHard c = true := by
  by_cases hHard : ∀ b ∈ r.head?, isHard b = true
  · exact ⟨v, r, rfl, Nat.le_refl _, hHard⟩
  · simp only [not_forall] at hHard
    obtain ⟨b, hb, hSoft⟩ := hHard
    obtain ⟨w, rfl⟩ := List.getLast?_eq_some_iff.mp ((h.hard b hb).resolve_left hSoft).1
    refine ⟨w, .char ':' :: r, by simp, by simp, fun c hc => ?_⟩
    obtain rfl := Option.some.inj hc
    decide +kernel

theorem identifierLength?_of_isHard (h : ∀ c ∈ t.head?, isHard c = true) :
    identifierLength? t = none := by
  unfold identifierLength?
  split
  · rename_i c t
    have hWord := isWord_eq_false_of_isHard (h _ rfl)
    rw [if_neg (by simp_all [isWord, SourceChar.satisfies])]
  · rfl

theorem numberLength?_of_isHard (h : ∀ c ∈ t.head?, isHard c = true) : numberLength? t = none := by
  cases t with
  | nil => rfl
  | cons c t =>
      have hHard := h c rfl
      have hPoint : c ≠ .char '.' := by
        rintro rfl
        exact absurd hHard (by decide +kernel)
      have hDigit : ¬isAsciiDigit c = true := fun hDigit => by
        rw [isHard_of_isAsciiDigit hDigit] at hHard
        cases hHard
      rw [numberLength?_cons, if_neg hDigit, if_neg fun hNext => hPoint hNext.1]

theorem Meets.identifierLength?_le (h : Meets v r) :
    ∀ n ∈ identifierLength? (v ++ r), n ≤ v.length := by
  obtain ⟨a, t, hText, hLe, hHard⟩ := h.exists_hard
  rw [hText]
  intro n hn
  by_cases hNe : a = []
  · rw [hNe, List.nil_append, identifierLength?_of_isHard hHard] at hn
    cases hn
  · exact Nat.le_trans
      (Piece.identifierLength?_le hNe (fun c hc => isWord_eq_false_of_isHard (hHard c hc)) n hn) hLe

theorem Meets.numberLength?_le (h : Meets v r) : ∀ n ∈ numberLength? (v ++ r), n ≤ v.length := by
  obtain ⟨a, t, hText, hLe, hHard⟩ := h.exists_hard
  rw [hText]
  intro n hn
  by_cases hNe : a = []
  · rw [hNe, List.nil_append, numberLength?_of_isHard hHard] at hn
    cases hn
  · exact Nat.le_trans (Piece.numberLength?_le hNe hHard n hn) hLe

theorem wordToken_of_head (h : ∀ c ∈ (t.drop n).head?, c ≠ .char '"' ∧ c ≠ .char '\'') :
    wordToken t n = .ok (.identifier, n) := by
  unfold wordToken
  dsimp only
  rw [if_neg fun hRaw => (h _ hRaw.1).1 rfl]
  split
  · rw [literal?_eq_none h]
  · rfl

/-- A character that no literal starts with. -/
theorem Meets.ne_quote (h : Meets v r) : ∀ c ∈ r.head?, c ≠ .char '"' ∧ c ≠ .char '\'' := by
  intro c hc
  rcases h.hard c hc with hHard | ⟨-, hWord⟩
  · refine ⟨?_, ?_⟩ <;> rintro rfl <;> exact absurd hHard (by decide +kernel)
  · exact ⟨ne_of_isWord hWord _ (by decide +kernel), ne_of_isWord hWord _ (by decide +kernel)⟩

theorem IsPlain.ne_quote (h : IsPlain v) (hMeets : Meets v r) (hn : n ≤ v.length) :
    ∀ c ∈ ((v ++ r).drop n).head?, c ≠ .char '"' ∧ c ≠ .char '\'' := by
  intro c hc
  rw [List.drop_append_of_le_length hn] at hc
  cases hDrop : v.drop n with
  | nil =>
      rw [hDrop] at hc
      exact hMeets.ne_quote c hc
  | cons d w =>
      rw [hDrop] at hc
      obtain rfl := Option.some.inj hc
      have hPlain := h.plain d (List.mem_of_mem_drop (hDrop ▸ List.mem_cons_self))
      constructor <;> rintro rfl <;> cases hPlain

/-- The token at the front of a text without quotes is part of it, if no word, number or punctuator
is longer. -/
theorem exists_tokenAt (hNe : v ≠ [])
    (hQuote : ∀ n ≤ v.length, ∀ c ∈ ((v ++ r).drop n).head?, c ≠ .char '"' ∧ c ≠ .char '\'')
    (hWord : ∀ n ∈ identifierLength? (v ++ r), n ≤ v.length)
    (hNumber : ∀ n ∈ numberLength? (v ++ r), n ≤ v.length)
    (hPunctuator : ∀ n ∈ punctuatorLength? (v ++ r), n ≤ v.length) :
    ∃ kind n, tokenAt (v ++ r) = .ok (kind, n) ∧ n ≤ v.length := by
  unfold tokenAt
  split
  · rename_i n hn
    exact ⟨_, n, wordToken_of_head (hQuote n (hWord n hn)), hWord n hn⟩
  split
  · rename_i n hn
    exact ⟨_, n, rfl, hNumber n hn⟩
  have hHead := hQuote 0 (Nat.zero_le _)
  rw [List.drop_zero] at hHead
  rw [literal?_eq_none hHead]
  dsimp only
  split
  · rename_i n hn
    exact ⟨_, n, rfl, hPunctuator n hn⟩
  · exact ⟨_, 1, rfl, List.length_pos_iff.mpr hNe⟩

theorem IsPlain.startsToken (h : IsPlain v) (hMeets : Meets v r) (hNe : v ≠ [])
    (hSpace : ∀ c ∈ v.head?, c.satisfies isHorizontalSpace = false) :
    Piece.startsToken (v ++ r) = true := by
  have hLineEnd : ∀ c ∈ v, c ≠ .char '\n' := by
    rintro c hc rfl
    cases h.plain _ hc
  obtain ⟨c, v, rfl⟩ := List.exists_cons_of_ne_nil hNe
  rw [List.cons_append, startsToken_cons]
  refine ⟨hLineEnd c List.mem_cons_self, hSpace c rfl, ?_, ?_⟩
  · rintro rfl
    match v with
    | [] => cases hMeets.last _ rfl
    | [d] =>
        refine ⟨fun hd => hLineEnd d (by simp) (Option.some.inj hd), fun hd => ?_⟩
        obtain rfl := Option.some.inj hd
        cases hMeets.last _ rfl
    | d :: e :: v =>
        exact ⟨fun hd => hLineEnd d (by simp) (Option.some.inj hd),
          fun _ he => hLineEnd e (by simp) (Option.some.inj he)⟩
  · rintro rfl
    cases v with
    | nil => cases hMeets.last _ rfl
    | cons d v =>
        have hComment := (List.isChain_cons_cons.mp h.noComment).1
        exact ⟨fun hd => hComment ⟨rfl, .inl (Option.some.inj hd)⟩,
          fun hd => hComment ⟨rfl, .inr (Option.some.inj hd)⟩⟩

/-- The piece at the front of a text without quotes is part of it. -/
theorem IsPlain.exists_first (h : IsPlain v) (hMeets : Meets v r) (hNe : v ≠ []) :
    ∃ x w piece, v = x ++ w ∧ first (x ++ (w ++ r)) = .ok (piece, x.length) ∧ IsPlain w
    ∧ (w ≠ [] → Meets w r)
      ∧ (piece = .blank ∧ (∃ c ∈ v.head?, c.satisfies isHorizontalSpace = true)
        ∨ ∃ kind, piece = .token kind) := by
  have hFound : ∃ piece n, first (v ++ r) = .ok (piece, n) ∧ n ≤ v.length
      ∧ (piece = .blank ∧ (∃ c ∈ v.head?, c.satisfies isHorizontalSpace = true)
        ∨ ∃ kind, piece = .token kind) := by
    by_cases hSpace : ∀ c ∈ v.head?, c.satisfies isHorizontalSpace = false
    · obtain ⟨kind, n, hToken, hLe⟩ := exists_tokenAt hNe (fun n => h.ne_quote hMeets)
        hMeets.identifierLength?_le hMeets.numberLength?_le (punctuatorLength?_le hNe hMeets.inner)
      exact ⟨_, n, first_eq_token_iff.mpr ⟨h.startsToken hMeets hNe hSpace, hToken⟩, hLe,
        .inr ⟨kind, rfl⟩⟩
    · simp only [not_forall, Bool.not_eq_false] at hSpace
      obtain ⟨c, hc, hSpace⟩ := hSpace
      obtain ⟨v, rfl⟩ := List.head?_eq_some_iff.mp hc
      exact ⟨.blank, 1, first_horizontalSpace hSpace (v ++ r), by simp, .inl ⟨rfl, c, rfl, hSpace⟩⟩
  obtain ⟨piece, n, hFirst, hLe, hPiece⟩ := hFound
  have hParts := List.take_append_drop n v
  refine ⟨v.take n, v.drop n, piece, hParts.symm, ?_, ?_, fun hRest => ?_, hPiece⟩
  · rwa [← List.append_assoc, hParts, List.length_take_of_le hLe]
  · exact (hParts.symm ▸ h).append_left
  · exact (hParts.symm ▸ hMeets).append_left hRest

/-- A text without quotes is passed where nothing joins its end. -/
theorem IsPlain.passes_inside (h : IsPlain v) (hMeets : v ≠ [] → Meets v r) :
    Passes false (v ++ r) r := by
  induction hLength : v.length using Nat.strongRecOn generalizing v with
  | _ length ih =>
      subst hLength
      by_cases hNe : v = []
      · rw [hNe]
        exact .done r
      · obtain ⟨x, w, piece, rfl, hFirst, hPlain, hRest, hPiece⟩ := h.exists_first (hMeets hNe) hNe
        have hPos := List.length_pos_iff.mpr (ne_nil_of_first hFirst)
        have hPasses := ih w.length (by rw [List.length_append]; omega) hPlain hRest rfl
        rw [List.append_assoc]
        rcases hPiece with ⟨rfl, -⟩ | ⟨kind, rfl⟩
        · exact .blank hFirst hPasses
        · exact .token hFirst (fun hStart => absurd hStart Bool.false_ne_true) hPasses

/-- A text without quotes that starts with a word is passed as the start of a line of code. -/
theorem IsPlain.passes (h : IsPlain v) (hMeets : Meets v r) (hHead : ∃ c ∈ v.head?, isWord c = true)
    (start : Bool) : Passes start (v ++ r) r := by
  obtain ⟨c, hc, hWord⟩ := hHead
  have hNe : v ≠ [] := by
    rintro rfl
    cases hc
  obtain ⟨x, w, piece, rfl, hFirst, hPlain, hRest, hPiece⟩ := h.exists_first hMeets hNe
  have hHead : x.head? = some c := by
    rwa [List.head?_append_of_ne_nil _ (ne_nil_of_first hFirst)] at hc
  rw [List.append_assoc]
  rcases hPiece with ⟨-, d, hd, hSpace⟩ | ⟨kind, rfl⟩
  · obtain rfl := Option.some.inj (hc.symm.trans hd)
    cases c with
    | byte b => cases hWord
    | char c =>
        simp only [SourceChar.satisfies, isHorizontalSpace, Bool.or_eq_true, beq_iff_eq] at hSpace
        rcases hSpace with ((((rfl | rfl) | rfl) | rfl) | rfl) | rfl
          <;> exact absurd hWord (by decide +kernel)
  · refine .token hFirst (fun _ hHash => ?_) (hPlain.passes_inside hRest)
    rcases eq_of_primarySpelling_eq_hash hHash.2 with rfl | rfl <;>
      · obtain rfl := Option.some.inj hHead
        exact absurd hWord (by decide +kernel)

end Piece

end Demacro
