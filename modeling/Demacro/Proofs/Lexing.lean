import Demacro.Proofs.Success
import Demacro.Token.Lexer

/-!
The places of the tokens of a text. Each token holds a character, so no two start at the same place,
and the logical lines hold all of them in order.
-/

namespace Demacro

namespace Piece

variable {t : Text} {kind : TokenKind} {n : Nat}

theorem identifierLength?_pos (h : identifierLength? t = some n) : 0 < n := by
  unfold identifierLength? at h
  split at h
  · split at h
    · cases h
      exact Nat.succ_pos _
    · cases h
  · cases h

theorem wordToken_pos {k : Nat} (hn : 0 < n) (h : wordToken t n = .ok (kind, k)) : 0 < k := by
  unfold wordToken at h
  dsimp only at h
  repeat' split at h
  all_goals cases h
  all_goals omega

theorem numberLength?_pos (h : numberLength? t = some n) : 0 < n := by
  unfold numberLength? at h
  repeat' split at h
  all_goals cases h
  all_goals exact Nat.succ_pos _

theorem literal?_pos (h : literal? t = some (kind, n)) : 0 < n := by
  unfold literal? at h
  split at h
  · split at h
    · obtain ⟨k, -, hEq⟩ := Option.map_eq_some_iff.mp h
      cases hEq
      exact Nat.succ_pos _
    · cases h
  · cases h

theorem punctuatorLength?_pos (h : punctuatorLength? t = some n) : 0 < n := by
  have hPunctuators : ∀ p ∈ punctuators, 0 < p.length := by
    decide
  obtain ⟨p, hp, rfl⟩ := Option.map_eq_some_iff.mp h
  exact hPunctuators p (List.mem_of_find?_eq_some hp)

theorem tokenAt_pos (h : tokenAt t = .ok (kind, n)) : 0 < n := by
  unfold tokenAt at h
  split at h
  · rename_i hWord
    exact wordToken_pos (identifierLength?_pos hWord) h
  split at h
  · rename_i hNumber
    cases h
    exact numberLength?_pos hNumber
  split at h
  · rename_i hLiteral
    cases h
    exact literal?_pos hLiteral
  split at h
  · rename_i hPunctuator
    cases h
    exact punctuatorLength?_pos hPunctuator
  · cases h
    exact Nat.one_pos

/-- A token holds a character. -/
theorem first_token_pos (h : first t = .ok (.token kind, n)) : 0 < n := by
  unfold first at h
  repeat' split at h
  all_goals try cases h
  obtain ⟨⟨_, _⟩, hToken, hEq⟩ := Except.map_eq_ok_iff.mp h
  cases hEq
  exact tokenAt_pos hToken

theorem literal?_ne_identifier (h : literal? t = some (kind, n)) : kind ≠ .identifier := by
  unfold literal? at h
  split at h
  · split at h
    · obtain ⟨_, -, hEq⟩ := Option.map_eq_some_iff.mp h
      rw [Prod.mk.injEq] at hEq
      rw [← hEq.1, literalKind]
      split <;> decide
    · cases h
  · cases h

theorem wordToken_eq_identifier {k : Nat} (h : wordToken t n = .ok (.identifier, k)) : k = n := by
  unfold wordToken at h
  dsimp only at h
  split at h
  · split at h <;> cases h
  split at h
  · split at h
    · rename_i hLiteral
      cases h
      exact absurd rfl (literal?_ne_identifier hLiteral)
    · cases h
      rfl
  · cases h
    rfl

/-- An identifier is all of the word at the front. -/
theorem identifierLength?_of_first (h : first t = .ok (.token .identifier, n)) :
    identifierLength? t = some n := by
  unfold first at h
  repeat' split at h
  all_goals try cases h
  obtain ⟨⟨kind, k⟩, hToken, hEq⟩ := Except.map_eq_ok_iff.mp h
  cases hEq
  unfold tokenAt at hToken
  split at hToken
  · rename_i hWord
    rw [hWord, wordToken_eq_identifier hToken]
  split at hToken
  · cases hToken
  split at hToken
  · rename_i hLiteral
    cases hToken
    exact absurd rfl (literal?_ne_identifier hLiteral)
  split at hToken <;> cases hToken

/-- A word is made of word characters. -/
theorem isWord_of_identifierLength? (h : identifierLength? t = some n) :
    ∀ c ∈ t.take n, c.satisfies Unicode.isWord = true := by
  unfold identifierLength? at h
  split at h
  · rename_i c t
    split at h
    · rename_i hFirst
      cases h
      intro d hd
      rw [List.take_succ_cons] at hd
      rcases List.mem_cons.mp hd with rfl | hd
      · rw [Bool.and_eq_true] at hFirst
        exact hFirst.1
      · have hTake : t.take (t.takeWhile (·.satisfies Unicode.isWord)).length =
            t.takeWhile (·.satisfies Unicode.isWord) :=
          List.prefix_iff_eq_take.mp (List.takeWhile_prefix _) |>.symm
        rw [hTake] at hd
        exact List.all_eq_true.mp List.all_takeWhile d hd
    · cases h
  · cases h

end Piece

theorem Cursor.offset_past (p : Cursor) (t : Text) : (p.past t).offset = p.offset + t.length := by
  induction t generalizing p with
  | nil => rfl
  | cons c t ih =>
      have hStep : (p.step c).offset = p.offset + 1 := by
        unfold Cursor.step
        split <;> rfl
      rw [Cursor.past, List.foldl_cons, ← Cursor.past, ih, hStep, List.length_cons]
      omega

namespace Token

variable {path : String} {p : Cursor} {atLineStart spaced : Bool} {t : Text} {tokens : List Token}

/-- The tokens are those of the file, and each starts behind the one in front of it. -/
theorem pairwise_of_ofTextAt (h : ofTextAt path p atLineStart spaced t = .ok tokens) :
    (∀ x ∈ tokens, x.span.path = path ∧ p.offset ≤ x.span.start)
      ∧ tokens.Pairwise (·.span.start < ·.span.start) := by
  -- The tokens behind a piece start behind it.
  have hBehind : ∀ {q : Cursor} {text : Text} {tokens : List Token},
      (∀ x ∈ tokens, x.span.path = path ∧ (q.past text).offset ≤ x.span.start) →
      ∀ x ∈ tokens, x.span.path = path ∧ q.offset + text.length ≤ x.span.start := by
    intro q text tokens hPlaces x hx
    rw [← Cursor.offset_past]
    exact hPlaces x hx
  fun_induction ofTextAt path p atLineStart spaced t generalizing tokens with
  | case1 =>
      cases h
      exact ⟨fun _ hx => (nomatch hx), .nil⟩
  | case2 => cases h
  | case3 p atLineStart spaced c t n text rest next hFirst
  | case4 p atLineStart spaced c t n text rest next hFirst =>
      rename_i ih
      obtain ⟨hPlaces, hOrder⟩ := ih h
      refine ⟨fun x hx => ?_, hOrder⟩
      obtain ⟨hPath, hStart⟩ := hBehind hPlaces x hx
      exact ⟨hPath, by omega⟩
  | case5 p atLineStart spaced c t n text rest next kind lexeme hFirst =>
      rename_i ih
      obtain ⟨others, hOthers, h⟩ := Except.bind_eq_ok_iff.mp h
      cases h
      obtain ⟨hPlaces, hOrder⟩ := ih hOthers
      have hLength : 0 < text.length := by
        have hPos := Piece.first_token_pos hFirst
        simp only [text, List.length_take, List.length_cons]
        omega
      refine ⟨fun x hx => ?_, .cons (fun x hx => ?_) hOrder⟩
      · rcases List.mem_cons.mp hx with rfl | hx
        · exact ⟨rfl, Nat.le_refl _⟩
        · obtain ⟨hPath, hStart⟩ := hBehind hPlaces x hx
          exact ⟨hPath, by omega⟩
      · obtain ⟨-, hStart⟩ := hBehind hPlaces x hx
        dsimp only
        omega

/-- An identifier is spelled with word characters. -/
theorem isWord_of_mem_lexeme (h : ofTextAt path p atLineStart spaced t = .ok tokens) {x : Token}
    (hx : x ∈ tokens) (hIdentifier : x.isIdentifier = true) :
    ∀ c ∈ x.lexeme, c.satisfies Unicode.isWord = true := by
  fun_induction ofTextAt path p atLineStart spaced t generalizing tokens with
  | case1 =>
      cases h
      cases hx
  | case2 => cases h
  | case3 | case4 =>
      rename_i ih
      exact ih h hx
  | case5 p atLineStart spaced c t n text rest next kind lexeme hFirst =>
      rename_i ih
      obtain ⟨others, hOthers, h⟩ := Except.bind_eq_ok_iff.mp h
      cases h
      rcases List.mem_cons.mp hx with rfl | hx
      · obtain rfl : kind = .identifier := eq_of_beq hIdentifier
        exact Piece.isWord_of_identifierLength? (Piece.identifierLength?_of_first hFirst)
      · exact ih hOthers hx

theorem flatten_logicalLines (tokens : List Token) : (logicalLines tokens).flatten = tokens := by
  induction tokens with
  | nil => rfl
  | cons t ts ih =>
      unfold logicalLines
      split
      · rename_i hLines
        rw [hLines] at ih
        split <;> simpa using ih
      · simpa using ih

theorem mem_of_mem_logicalLines {line : List Token} (hLine : line ∈ logicalLines tokens) {x : Token}
    (hx : x ∈ line) : x ∈ tokens := by
  rw [← flatten_logicalLines tokens]
  exact List.mem_flatten_of_mem hLine hx

end Token

namespace Directive

/-- What stands behind the keyword of a directive is part of its line. -/
theorem mem_of_mem_split {first t : Token} {rest : List Token}
    (h : t ∈ (split (first :: rest)).2) : t ∈ rest := by
  unfold split at h
  split at h
  · rename_i next others hRest
    obtain rfl : rest = next :: others := hRest
    split at h
    · exact List.mem_cons_of_mem _ h
    · exact h
  · cases h

end Directive

end Demacro
