import Demacro.Proofs.Lexing.Blanks
import Demacro.Proofs.Lexing.Positions

/-!
Texts that are read to the end. Without a quotation mark a text is made of comments and of
characters outside of them, and a comment that is not closed is all that can stop the lexer.
-/

namespace Demacro

/-- The text has no quotation mark, so no literal. -/
def Text.IsQuoteFree (t : Text) : Prop :=
  ∀ c ∈ t, c ≠ .char '"' ∧ c ≠ .char '\''

instance (t : Text) : Decidable t.IsQuoteFree :=
  inferInstanceAs (Decidable (∀ c ∈ t, c ≠ .char '"' ∧ c ≠ .char '\''))

theorem Text.IsQuoteFree.right {a b : Text} (h : Text.IsQuoteFree (a ++ b)) : b.IsQuoteFree :=
  fun c hc => h c (List.mem_append_right a hc)

namespace Piece

/-- A comment starts with the character when the text stands behind it. -/
def OpensComment (c : SourceChar) (t : Text) : Prop :=
  c = .char '/' ∧ (t.head? = some (.char '/') ∨ t.head? = some (.char '*'))

/-- The comments of a text are closed. -/
inductive Closed : Text → Prop where
  | done : Closed []
  | lineComment {t : Text} (h : Closed (t.drop (lineCommentLength t))) :
      Closed (.char '/' :: .char '/' :: t)
  | blockComment {t : Text} {n : Nat} (hFound : Text.find? (Text.ofString "*/") t = some n)
      (h : Closed (t.drop (n + 2))) : Closed (.char '/' :: .char '*' :: t)
  | step {c : SourceChar} {t : Text} (hOpens : ¬ OpensComment c t) (h : Closed t) : Closed (c :: t)

variable {a x r t : Text} {c : SourceChar} {kind : TokenKind} {piece : Piece} {fault : Fault}
  {n : Nat}

theorem closed_cons (hOpens : ¬ OpensComment c t) : Closed (c :: t) ↔ Closed t := by
  refine ⟨fun h => ?_, .step hOpens⟩
  cases h with
  | lineComment => exact absurd ⟨rfl, .inl rfl⟩ hOpens
  | blockComment => exact absurd ⟨rfl, .inr rfl⟩ hOpens
  | step _ h => exact h

theorem closed_lineComment :
    Closed (.char '/' :: .char '/' :: t) ↔ Closed (t.drop (lineCommentLength t)) := by
  refine ⟨fun h => ?_, .lineComment⟩
  cases h with
  | lineComment h => exact h
  | step hOpens => exact absurd ⟨rfl, .inl rfl⟩ hOpens

theorem closed_blockComment : Closed (.char '/' :: .char '*' :: t) ↔
    ∃ n, Text.find? (Text.ofString "*/") t = some n ∧ Closed (t.drop (n + 2)) := by
  refine ⟨fun h => ?_, fun ⟨n, hFound, h⟩ => .blockComment hFound h⟩
  cases h with
  | blockComment hFound h => exact ⟨_, hFound, h⟩
  | step hOpens => exact absurd ⟨rfl, .inr rfl⟩ hOpens

/-- What has no slash opens no comment. -/
theorem closed_append_of_not_mem (h : .char '/' ∉ a) : Closed (a ++ t) ↔ Closed t := by
  induction a with
  | nil => exact Iff.rfl
  | cons c a ih =>
      obtain ⟨hSlash, h⟩ := not_or.mp (List.mem_cons.not.mp h)
      rw [List.cons_append, closed_cons fun hOpens => hSlash hOpens.1.symm, ih h]

/-- Without a quotation mark a token ends in front of a character that goes on with nothing. -/
theorem exists_token (hPlain : Text.IsQuoteFree (a ++ t)) (hNe : a ≠ [])
    (hEnd : ∀ c ∈ t.head?, isHard c = true ∧ isInner c = false)
    (hStarts : startsToken (a ++ t) = true) :
    ∃ x y kind, a = x ++ y ∧ first (x ++ (y ++ t)) = .ok (.token kind, x.length) := by
  obtain ⟨kind, n, hToken, hLe⟩ := exists_tokenAt hNe
    (fun n _ c hc => hPlain c (List.mem_of_mem_drop (List.mem_of_mem_head? hc)))
    (identifierLength?_le hNe fun c hc => isWord_eq_false_of_isHard (hEnd c hc).1)
    (numberLength?_le hNe fun c hc => (hEnd c hc).1)
    (punctuatorLength?_le hNe fun c hc => (hEnd c hc).2)
  have hFirst := first_eq_token_iff.mpr ⟨hStarts, hToken⟩
  refine ⟨a.take n, a.drop n, kind, (List.take_append_drop n a).symm, ?_⟩
  rw [← List.append_assoc, List.take_append_drop, List.length_take_of_le hLe, hFirst]

/-- Without a quotation mark a token has no slash behind its first character. -/
theorem slash_not_mem (hPlain : Text.IsQuoteFree (c :: x ++ r))
    (h : first (c :: x ++ r) = .ok (.token kind, (c :: x).length)) : .char '/' ∉ x := by
  intro hSlash
  obtain ⟨y, z, rfl⟩ := List.append_of_mem hSlash
  have hText : c :: (y ++ .char '/' :: z) ++ r = c :: y ++ .char '/' :: (z ++ r) := by
    simp
  rw [hText] at h hPlain
  have hEnd : ∀ d ∈ (SourceChar.char '/' :: (z ++ r)).head?, isHard d = true
      ∧ isInner d = false := by
    intro d hd
    obtain rfl := Option.some.inj hd
    decide +kernel
  obtain ⟨u, v, kind', hFront, hFirst⟩ :=
    exists_token hPlain (List.cons_ne_nil c y) hEnd (first_eq_token_iff.mp h).1
  rw [← List.append_assoc, ← hFront, h, Except.ok.injEq, Prod.mk.injEq] at hFirst
  have hLength := congrArg List.length hFront
  simp only [List.length_cons, List.length_append] at hLength hFirst
  omega

/-- A piece without tokens is a comment that is closed, or it has no slash. -/
theorem closed_append_of_blank (h : first (x ++ r) = .ok (.blank, x.length)) :
    Closed (x ++ r) ↔ Closed r := by
  obtain ⟨b, rfl, hPiece, hStands⟩ := Blank.exists_of_first h
  have hStands := hStands []
  cases b with
  | space c =>
      refine closed_append_of_not_mem fun hSlash => ?_
      rw [Blank.text, List.mem_singleton, SourceChar.char.injEq] at hSlash
      rw [Blank.Stands, ← hSlash] at hStands
      exact absurd hStands (by decide)
  | splice carriage => exact closed_append_of_not_mem (by cases carriage <;> decide)
  | lineComment body =>
      have hLength := (commentLength_iff (w := [])).mpr hStands
      rw [List.foldl_nil, ← lineCommentLength_eq_commentLength] at hLength
      show Closed (.char '/' :: .char '/' :: (body ++ r)) ↔ Closed r
      rw [closed_lineComment, hLength, List.drop_left]
  | blockComment body =>
      have hFound := (find?_closing_iff (r := r)).mpr hStands
      have hDrop : (body ++ Text.ofString "*/" ++ r).drop (body.length + 2) = r :=
        List.drop_left' (List.length_append.trans rfl)
      show Closed (.char '/' :: .char '*' :: (body ++ Text.ofString "*/" ++ r)) ↔ Closed r
      rw [closed_blockComment, hFound]
      simp only [Option.some.injEq, exists_eq_left', hDrop]
  | lineEnd => cases hPiece

/-- The comments of a text are closed exactly if those behind its first piece are. -/
theorem closed_append (hPlain : Text.IsQuoteFree (x ++ r))
    (h : first (x ++ r) = .ok (piece, x.length)) : Closed (x ++ r) ↔ Closed r := by
  cases piece with
  | lineEnd =>
      obtain ⟨hOne, q, hText⟩ := eq_cons_of_lineEnd h
      obtain ⟨c, rfl⟩ := List.length_eq_one_iff.mp hOne
      obtain ⟨rfl, rfl⟩ := List.cons.inj hText
      exact closed_append_of_not_mem (by decide)
  | blank => exact closed_append_of_blank h
  | token kind =>
      obtain ⟨c, x, rfl⟩ := List.exists_cons_of_ne_nil (ne_nil_of_first h)
      have hStarts := (first_eq_token_iff.mp h).1
      rw [List.cons_append, startsToken_cons] at hStarts
      have hOpens : ¬ OpensComment c (x ++ r) := fun ⟨hSlash, hNext⟩ =>
        hNext.elim (hStarts.2.2.2 hSlash).1 (hStarts.2.2.2 hSlash).2
      rw [List.cons_append, closed_cons hOpens, closed_append_of_not_mem (slash_not_mem hPlain h)]

/-- Reading stops nowhere in front of a comment that is closed. -/
theorem first_ne_error (hPlain : t.IsQuoteFree) (h : Closed t) : first t ≠ .error fault := by
  intro hFault
  cases unclosed_of_first hFault with
  | @comment rest hOpen =>
      obtain ⟨n, hFound, -⟩ := (closed_blockComment (t := rest)).mp h
      rw [Text.find?_eq_none_iff.mpr hOpen] at hFound
      cases hFound
  | rawString hWord hOpen => exact (hPlain (.char '"') (by simp)).1 rfl

end Piece

namespace Token

open Piece

variable {path : String} {p : Cursor} {start spaced : Bool} {t : Text} {tokens : List Token}

theorem Lexed.closed (h : Lexed path p start spaced t tokens) (hPlain : t.IsQuoteFree) :
    Closed t := by
  induction h with
  | done => exact .done
  | @lineEnd p start spaced r tokens h ih =>
      exact (closed_append_of_not_mem (a := [.char '\n']) (by decide)).mpr
        (ih (hPlain.right (a := [_])))
  | blank hFirst h ih => exact (closed_append_of_blank hFirst).mpr (ih hPlain.right)
  | token hFirst h ih => exact (closed_append hPlain hFirst).mpr (ih hPlain.right)

/-- A text without quotation marks whose comments are closed is read to the end. -/
theorem exists_ofTextAt_of_closed (hPlain : t.IsQuoteFree) (h : Closed t) :
    ∃ tokens, ofTextAt path p start spaced t = .ok tokens := by
  induction hLength : t.length using Nat.strongRecOn generalizing t p start spaced with
  | _ length ih =>
      subst hLength
      by_cases hNe : t = []
      · exact ⟨[], by rw [hNe, ofTextAt]⟩
      rcases exists_piece hNe with ⟨fault, hFault⟩ | ⟨x, r, piece, rfl, hFirst⟩
      · exact absurd hFault (first_ne_error hPlain h)
      have hShorter : r.length < (x ++ r).length := by
        rw [List.length_append]
        have hPos := first_pos hFirst
        omega
      have hClosed := (closed_append hPlain hFirst).mp h
      have hRead : ∀ p start spaced, ∃ tokens, ofTextAt path p start spaced r = .ok tokens :=
          fun _ _ _ =>
        ih r.length hShorter hPlain.right hClosed rfl
      cases piece with
      | lineEnd =>
          obtain ⟨hOne, q, hText⟩ := eq_cons_of_lineEnd hFirst
          obtain ⟨c, rfl⟩ := List.length_eq_one_iff.mp hOne
          obtain ⟨rfl, rfl⟩ := List.cons.inj hText
          rw [List.singleton_append, ofTextAt_lineEnd]
          exact hRead _ _ _
      | blank =>
          rw [ofTextAt_blank hFirst]
          exact hRead _ _ _
      | token kind =>
          obtain ⟨tokens, hTokens⟩ := hRead (p.past x) false false
          rw [ofTextAt_token hFirst, hTokens]
          exact ⟨_, rfl⟩

theorem exists_ofText_iff (path : String) (hPlain : t.IsQuoteFree) :
    (∃ tokens, ofText path t = .ok tokens) ↔ Closed t :=
  ⟨fun ⟨_, h⟩ => (lexed_of_ofTextAt h).closed hPlain, exists_ofTextAt_of_closed hPlain⟩

end Token

end Demacro
