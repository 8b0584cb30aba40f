import Demacro.Proofs.Lexing.Passing

/-!
Tokens of a text as a derivation: one rule for each kind of piece. Behind every token the rest of
the text is read as a text of its own.
-/

namespace Demacro

namespace Piece

variable {t : Text} {kind : TokenKind} {n : Nat}

theorem literal?_le (h : literal? t = some (kind, n)) : n ≤ t.length := by
  unfold literal? at h
  split at h
  · split at h
    · obtain ⟨k, hBody, hEq⟩ := Option.map_eq_some_iff.mp h
      cases hEq
      rw [quotedLength?_eq_bodyLength?] at hBody
      obtain ⟨m, rfl, hLast⟩ := getElem?_of_bodyLength? hBody
      obtain ⟨hInside, -⟩ := List.getElem?_eq_some_iff.mp hLast
      rw [List.length_cons]
      omega
    · cases h
  · cases h

theorem wordToken_le {k : Nat} (hn : n ≤ t.length) (h : wordToken t n = .ok (kind, k)) :
    k ≤ t.length := by
  unfold wordToken at h
  dsimp only at h
  split at h
  · split at h
    · rename_i m hRaw
      cases h
      obtain ⟨i, rfl, hLast⟩ := getElem?_of_rawLength? hRaw
      rw [List.getElem?_drop, List.getElem?_drop] at hLast
      obtain ⟨hInside, -⟩ := List.getElem?_eq_some_iff.mp hLast
      omega
    · cases h
  split at h
  · split at h
    · rename_i m hLiteral
      cases h
      have hInside := literal?_le hLiteral
      rw [List.length_drop] at hInside
      omega
    · cases h
      exact hn
  · cases h
    exact hn

theorem tokenAt_le (hNe : t ≠ []) (h : tokenAt t = .ok (kind, n)) : n ≤ t.length := by
  have hWord := identifierLength?_le (t := []) hNe (by simp)
  have hNumber := numberLength?_le (t := []) hNe (by simp)
  have hPunctuator := punctuatorLength?_le (t := []) hNe (by simp)
  rw [List.append_nil] at hWord hNumber hPunctuator
  unfold tokenAt at h
  split at h
  · rename_i k hk
    exact wordToken_le (hWord k hk) h
  split at h
  · rename_i k hk
    cases h
    exact hNumber _ hk
  split at h
  · rename_i found hFound
    cases h
    exact literal?_le hFound
  split at h
  · rename_i k hk
    cases h
    exact hPunctuator _ hk
  · cases h
    exact List.length_pos_iff.mpr hNe

theorem lineCommentLength_le (t : Text) : lineCommentLength t ≤ t.length := by
  induction t using lineCommentLength.induct <;> simp_all [lineCommentLength]

/-- A piece is part of its text. -/
theorem first_le {piece : Piece} (h : first t = .ok (piece, n)) (hNe : t ≠ []) : n ≤ t.length := by
  have hText := hNe
  unfold first at h
  split at h
  · cases h
    simp
  · cases h
    simp
  · cases h
    simp
  · rename_i r
    cases h
    have hComment := lineCommentLength_le r
    simp only [List.length_cons]
    omega
  · rename_i r
    split at h
    · rename_i k hFound
      cases h
      have hInside := (prefix_of_find? hFound).length_le
      have hTwo : (Text.ofString "*/").length = 2 := rfl
      rw [List.length_drop, hTwo] at hInside
      simp only [List.length_cons]
      omega
    · cases h
  · split at h
    · cases h
      exact List.length_pos_iff.mpr hText
    · obtain ⟨⟨kind, k⟩, hToken, hEq⟩ := Except.map_eq_ok_iff.mp h
      cases hEq
      exact tokenAt_le hText hToken

theorem eq_cons_of_lineEnd (h : first t = .ok (.lineEnd, n)) :
    n = 1 ∧ ∃ r, t = .char '\n' :: r := by
  unfold first at h
  split at h
  all_goals try cases h
  · exact ⟨rfl, _, rfl⟩
  · split at h <;> cases h
  · split at h
    · cases h
    · obtain ⟨found, -, hEq⟩ := Except.map_eq_ok_iff.mp h
      cases hEq

end Piece

namespace Token

open Piece

/-- Reading a text from a place on gives the tokens. -/
inductive Lexed (path : String) : Cursor → Bool → Bool → Text → List Token → Prop where
  | done {p : Cursor} {start spaced : Bool} : Lexed path p start spaced [] []
  | lineEnd {p : Cursor} {start spaced : Bool} {r : Text} {tokens : List Token}
      (h : Lexed path (p.past [.char '\n']) true false r tokens) :
      Lexed path p start spaced (.char '\n' :: r) tokens
  | blank {p : Cursor} {start spaced : Bool} {x r : Text} {tokens : List Token}
      (hFirst : first (x ++ r) = .ok (.blank, x.length))
      (h : Lexed path (p.past x) start true r tokens) : Lexed path p start spaced (x ++ r) tokens
  | token {p : Cursor} {start spaced : Bool} {x r : Text} {kind : TokenKind} {tokens : List Token}
      (hFirst : first (x ++ r) = .ok (.token kind, x.length))
      (h : Lexed path (p.past x) false false r tokens) : Lexed path p start spaced (x ++ r)
        (⟨kind, lexemeOf kind x, ⟨path, p.offset, (p.past x).offset, p.line, p.column⟩, start,
          spaced⟩ :: tokens)

variable {path : String} {p : Cursor} {start spaced : Bool} {t : Text} {tokens : List Token}

theorem lexed_of_ofTextAt (h : ofTextAt path p start spaced t = .ok tokens) :
    Lexed path p start spaced t tokens := by
  induction hLength : t.length using Nat.strongRecOn generalizing t p start spaced tokens with
  | _ length ih =>
      subst hLength
      cases t with
      | nil =>
          rw [ofTextAt] at h
          cases h
          exact .done
      | cons c t =>
          cases hFirst : first (c :: t) with
          | error fault =>
              rw [ofTextAt, hFirst] at h
              cases h
          | ok found =>
              obtain ⟨piece, n⟩ := found
              have hLe := first_le hFirst (List.cons_ne_nil c t)
              have hPos := first_pos hFirst
              have hParts : (c :: t).take n ++ (c :: t).drop n = c :: t :=
                List.take_append_drop n (c :: t)
              have hTake : ((c :: t).take n).length = n := List.length_take_of_le hLe
              generalize (c :: t).take n = x at hParts hTake
              generalize (c :: t).drop n = r at hParts
              rw [← hParts] at hFirst h ih ⊢
              subst hTake
              have hShorter : r.length < (x ++ r).length := by
                rw [List.length_append]
                omega
              cases piece with
              | lineEnd =>
                  obtain ⟨hOne, q, hText⟩ := eq_cons_of_lineEnd hFirst
                  obtain ⟨d, rfl⟩ := List.length_eq_one_iff.mp hOne
                  obtain ⟨rfl, rfl⟩ := List.cons.inj hText
                  rw [List.singleton_append, ofTextAt_lineEnd] at h
                  exact .lineEnd (ih _ hShorter h rfl)
              | blank =>
                  rw [ofTextAt_blank hFirst] at h
                  exact .blank hFirst (ih _ hShorter h rfl)
              | token kind =>
                  rw [ofTextAt_token hFirst] at h
                  obtain ⟨others, hOthers, h⟩ := Except.bind_eq_ok_iff.mp h
                  cases h
                  exact .token hFirst (ih _ hShorter hOthers rfl)

theorem Lexed.ofTextAt_eq_ok (h : Lexed path p start spaced t tokens) :
    ofTextAt path p start spaced t = .ok tokens := by
  induction h with
  | done => rw [ofTextAt]
  | lineEnd _ ih => rw [ofTextAt_lineEnd, ih]
  | blank hFirst _ ih => rw [ofTextAt_blank hFirst, ih]
  | token hFirst _ ih =>
      rw [ofTextAt_token hFirst, ih]
      rfl

/-- Tokens are part of their text. -/
theorem Lexed.stop_le (h : Lexed path p start spaced t tokens) :
    ∀ x ∈ tokens, x.span.stop ≤ p.offset + t.length := by
  induction h with
  | done => simp
  | lineEnd _ ih =>
      intro x hx
      have hStop := ih x hx
      simp only [Cursor.offset_past, List.length_cons, List.length_nil] at hStop ⊢
      omega
  | blank _ _ ih =>
      intro x hx
      have hStop := ih x hx
      simp only [Cursor.offset_past, List.length_append] at hStop ⊢
      omega
  | token _ _ ih =>
      simp only [List.forall_mem_cons, Cursor.offset_past, List.length_append] at ih ⊢
      refine ⟨by omega, fun x hx => ?_⟩
      have hStop := ih x hx
      omega

theorem past_append (p : Cursor) (x y : Text) : p.past (x ++ y) = (p.past x).past y :=
  List.foldl_append

/-- Behind the last of some tokens the rest is read as a text of its own. -/
theorem Lexed.exists_behind {xs ys : List Token} {x : Token}
    (h : Lexed path p start spaced t (x :: xs ++ ys)) :
    ∃ d r, t = d ++ r ∧ Lexed path (p.past d) false false r ys
      ∧ (p.past d).offset = (xs.getLastD x).span.stop ∧ d ≠ [] := by
  generalize hAll : x :: xs ++ ys = all at h
  -- What is in front of a piece goes in front of the text.
  have hLater : ∀ {p q : Cursor} {a r : Text} {x : Token} {xs : List Token}, q = p.past a →
      (∃ d r', r = d ++ r' ∧ Lexed path (q.past d) false false r' ys
        ∧ (q.past d).offset = (xs.getLastD x).span.stop ∧ d ≠ []) →
      ∃ d r', a ++ r = d ++ r' ∧ Lexed path (p.past d) false false r' ys
        ∧ (p.past d).offset = (xs.getLastD x).span.stop ∧ d ≠ [] := by
    rintro p _ a _ x xs rfl ⟨d, r', rfl, hLexed, hOffset, hNe⟩
    exact ⟨a ++ d, r',
      by simp, past_append p a d ▸ hLexed, past_append p a d ▸ hOffset, by simp [hNe]⟩
  induction h generalizing x xs with
  | done => cases hAll
  | lineEnd _ ih => exact hLater (a := [.char '\n']) rfl (ih hAll)
  | blank _ _ ih => exact hLater rfl (ih hAll)
  | @token p start spaced a r kind tokens hFirst h ih =>
      obtain ⟨rfl, rfl⟩ := List.cons.inj hAll
      cases xs with
      | nil => exact ⟨a, r, rfl, h, rfl, ne_nil_of_first hFirst⟩
      | cons next xs =>
          rw [List.getLastD_cons]
          exact hLater rfl (ih rfl)

end Token

end Demacro
