import Demacro.Proofs.Lexing.Derivation
import Mathlib.Data.Nat.Find

/-!
Lines and columns. They are counted on while a text is read piece by piece, and pieces that are
skipped may have line ends in them. The main result is that every token, and every construct that is
not closed, stands in the line and in the column that the text in front of it gives.
-/

namespace Demacro

namespace Text

/-- The number of the line of a character: one more than the line ends in front of it. -/
def lineNumber (t : Text) (n : Nat) : Nat :=
  (t.take n).count (.char '\n') + 1

/-- Where the line of a character starts: behind the last line end in front of it, or with the
text. -/
def lineStart (t : Text) (n : Nat) : Nat :=
  Nat.findGreatest (fun k => 0 < k ∧ t[k - 1]? = some (.char '\n')) n

/-- A character stands in a line and in a column. -/
structure StandsAt (t : Text) (n line column : Nat) : Prop where
  line_eq : line = t.lineNumber n
  column_eq : column = n - t.lineStart n + 1

theorem find?_eq_none_iff {needle t : Text} : find? needle t = none ↔ ¬ needle <:+: t := by
  induction t with
  | nil => simp [find?]
  | cons c t ih =>
      rw [find?, List.infix_cons_iff, not_or, ← ih]
      split
      · simp_all
      · simp_all

end Text

namespace Cursor

variable {p : Cursor} {front back : Text} {c : SourceChar}

theorem past_concat : p.past (front ++ [c]) = (p.past front).step c :=
  List.foldl_concat step p c front

theorem line_past_start : (start.past front).line = front.count (.char '\n') + 1 := by
  induction front using List.reverseRecOn with
  | nil => rfl
  | append_singleton front c ih =>
      rw [past_concat, step, List.count_append]
      split
      · rename_i hEnd
        rw [ih, hEnd, List.count_singleton_self]
      · rename_i hOther
        rw [ih, List.count_singleton, if_neg (by simpa using hOther)]

theorem lineStart_past_start :
    (start.past front).lineStart = Text.lineStart (front ++ back) front.length := by
  induction front using List.reverseRecOn generalizing back with
  | nil => rfl
  | append_singleton front c ih =>
      have hPrior : (start.past front).lineStart = Text.lineStart (front ++ c :: back)
        front.length := ih
      have hCharacter : (front ++ c :: back)[front.length]? = some c := by
        simp
      rw [past_concat, step, List.append_assoc, List.singleton_append, List.length_append,
        List.length_singleton,
        Text.lineStart, Nat.findGreatest_succ, Nat.add_sub_cancel, hCharacter, offset_past]
      split
      · rename_i hEnd
        rw [if_pos ⟨Nat.succ_pos _, by rw [hEnd]⟩]
        exact Nat.zero_add _ ▸ rfl
      · rename_i hOther
        rw [if_neg fun hEnd => hOther (Option.some.inj hEnd.2)]
        exact hPrior

theorem offset_past_start : (start.past front).offset = front.length := by
  rw [offset_past]
  exact Nat.zero_add _

/-- Where reading is counts as the place behind the text that was read. -/
theorem standsAt_past_start :
    Text.StandsAt (front ++ back) front.length (start.past front).line
      (start.past front).column := by
  constructor
  · rw [line_past_start, Text.lineNumber, List.take_left]
  · rw [column, offset_past_start, lineStart_past_start]

end Cursor

namespace Piece

/-- Reading the text `t` piece by piece goes over `front` and comes to `back`. -/
inductive Reaches (t : Text) : Text → Text → Prop where
  | start : Reaches t [] t
  | next (h : Reaches t front (x ++ back)) (hFirst : first (x ++ back) = .ok (piece, x.length)) :
      Reaches t (front ++ x) back

/-- A raw string is closed: behind the quote stand a delimiter, a body in parentheses, the delimiter
again and a quote. -/
def ClosesRaw (rest : Text) : Prop :=
  ∃ delimiter body behind, delimiter.length ≤ 16 ∧ (∀ c ∈ delimiter, isRawDelimiter c = true)
    ∧ rest = delimiter ++ .char '(' :: (body ++ (.char ')' :: delimiter ++ [.char '"']) ++ behind)

/-- The text starts with a construct that is not closed: a comment, or a raw string with its
encoding. -/
inductive Unclosed : Fault → Text → Prop where
  | comment (hOpen : ¬ Text.ofString "*/" <:+: rest) :
      Unclosed .unterminatedComment (Text.ofString "/*" ++ rest)
  | rawString (hWord : word ∈ rawEncodings) (hOpen : ¬ ClosesRaw rest) :
      Unclosed .unterminatedRawString (Text.ofString word ++ .char '"' :: rest)

variable {t front back rest : Text} {fault : Fault}

theorem Reaches.eq_append (h : Reaches t front back) : t = front ++ back := by
  induction h with
  | start => rfl
  | next h hFirst ih => rw [ih, List.append_assoc]

/-- A text has a piece at its front, or something there is not closed. -/
theorem exists_piece (hNe : t ≠ []) : (∃ fault, first t = .error fault)
    ∨ ∃ x r piece, t = x ++ r ∧ first (x ++ r) = .ok (piece, x.length) := by
  cases hFirst : first t with
  | error fault => exact .inl ⟨fault, rfl⟩
  | ok found =>
      obtain ⟨piece, n⟩ := found
      have hParts := List.take_append_drop n t
      refine .inr ⟨t.take n, t.drop n, piece, hParts.symm, ?_⟩
      rw [hParts, List.length_take_of_le (first_le hFirst hNe), hFirst]

theorem not_closesRaw (h : rawLength? rest = none) : ¬ ClosesRaw rest := by
  rintro ⟨delimiter, body, behind, hSixteen, hAll, hRest⟩
  have hOther : ∀ c ∈ delimiter, (c != .char '(') = true := by
    intro c hc
    rw [bne_iff_ne]
    rintro rfl
    exact absurd (hAll _ hc) (by decide)
  have hTake : rest.takeWhile (· != .char '(') = delimiter := by
    rw [hRest, List.takeWhile_append_of_pos hOther, List.takeWhile_cons_of_neg (by simp),
      List.append_nil]
  have hDrop : rest.drop (delimiter.length + 1) = body ++ (.char ')' :: delimiter ++ [.char '"'])
      ++ behind := by
    rw [hRest, List.append_cons]
    exact List.drop_left' (by simp)
  have hInside : delimiter.length < rest.length := by
    rw [hRest, List.length_append, List.length_cons]
    omega
  unfold rawLength? at h
  simp only [hTake, hDrop] at h
  rw [if_pos ⟨hInside, hSixteen, List.all_eq_true.mpr hAll⟩, Option.map_eq_none_iff,
    Text.find?_eq_none_iff] at h
  exact h ⟨body, behind, rfl⟩

theorem unclosed_of_wordToken {n : Nat} (h : wordToken t n = .error fault) : Unclosed fault t := by
  unfold wordToken at h
  dsimp only at h
  split at h
  · rename_i hRaw
    obtain ⟨hQuote, hWord⟩ := hRaw
    split at h
    · cases h
    · rename_i hNone
      cases h
      obtain ⟨word, hMem, hSpelling⟩ := List.any_eq_true.mp hWord
      obtain ⟨rest, hRest⟩ := List.head?_eq_some_iff.mp hQuote
      rw [hRest, List.drop_succ_cons, List.drop_zero] at hNone
      rw [← List.take_append_drop n t, hRest, ← beq_iff_eq.mp hSpelling]
      exact .rawString hMem (not_closesRaw hNone)
  · split at h
    · split at h <;> cases h
    · cases h

/-- Reading stops only at something that is not closed. -/
theorem unclosed_of_first (h : first t = .error fault) : Unclosed fault t := by
  unfold first at h
  split at h
  · cases h
  · cases h
  · cases h
  · cases h
  · rename_i rest
    split at h
    · cases h
    · rename_i hNone
      cases h
      exact .comment (Text.find?_eq_none_iff.mp hNone)
  · split at h
    · cases h
    · have hToken := Except.map_eq_error_iff.mp h
      unfold tokenAt at hToken
      split at hToken
      · exact unclosed_of_wordToken hToken
      · repeat' split at hToken
        all_goals cases hToken

end Piece

namespace Token

open Piece

variable {path : String} {p : Cursor} {start spaced : Bool} {t front back : Text}
  {tokens : List Token} {e : ParseError}

/-- A token starts where reading came to. -/
theorem Lexed.exists_reaches (h : Lexed path p start spaced back tokens)
    (hp : p = Cursor.start.past front) (hReaches : Reaches t front back) :
    ∀ x ∈ tokens, ∃ front' back', Reaches t front' back' ∧ x.span.start = front'.length
      ∧ x.span.line = (Cursor.start.past front').line
      ∧ x.span.column = (Cursor.start.past front').column := by
  induction h generalizing front with
  | done => simp
  | @lineEnd p start spaced r tokens h ih =>
      have hFirst : first ([.char '\n'] ++ r) = .ok (.lineEnd, 1) := rfl
      exact ih (by rw [past_append, hp]) (.next (x := [.char '\n']) hReaches hFirst)
  | blank hFirst h ih => exact ih (by rw [past_append, hp]) (.next hReaches hFirst)
  | @token p start spaced x r kind tokens hFirst h ih =>
      rw [List.forall_mem_cons]
      refine ⟨⟨front, _, hReaches, ?_, ?_, ?_⟩, ih (by rw [past_append, hp])
        (.next hReaches hFirst)⟩
      · rw [hp, Cursor.offset_past_start]
      · rw [hp]
      · rw [hp]

/-- A fault is found where reading came to. -/
theorem exists_reaches_of_error (hReaches : Reaches t front back)
    (h : ofTextAt path (Cursor.start.past front) start spaced back = .error e) :
    e.path = path ∧ ∃ front' back', Reaches t front' back' ∧ first back' = .error e.fault
      ∧ e.line = (Cursor.start.past front').line
      ∧ e.column = (Cursor.start.past front').column := by
  induction hLength : back.length using Nat.strongRecOn generalizing front back start spaced with
  | _ length ih =>
      subst hLength
      by_cases hNe : back = []
      · rw [hNe, ofTextAt] at h
        cases h
      rcases exists_piece hNe with ⟨fault, hFault⟩ | ⟨x, r, piece, rfl, hFirst⟩
      · obtain ⟨c, back, rfl⟩ := List.exists_cons_of_ne_nil hNe
        rw [ofTextAt, hFault] at h
        cases h
        exact ⟨rfl, front, _, hReaches, hFault, rfl, rfl⟩
      have hShorter : r.length < (x ++ r).length := by
        rw [List.length_append]
        have hPos := first_pos hFirst
        omega
      have hNext : Reaches t (front ++ x) r := .next hReaches hFirst
      cases piece with
      | lineEnd =>
          obtain ⟨hOne, q, hText⟩ := eq_cons_of_lineEnd hFirst
          obtain ⟨c, rfl⟩ := List.length_eq_one_iff.mp hOne
          obtain ⟨rfl, rfl⟩ := List.cons.inj hText
          rw [List.singleton_append, ofTextAt_lineEnd, ← past_append] at h
          exact ih _ hShorter hNext h rfl
      | blank =>
          rw [ofTextAt_blank hFirst, ← past_append] at h
          exact ih _ hShorter hNext h rfl
      | token kind =>
          rw [ofTextAt_token hFirst, ← past_append] at h
          rcases Except.bind_eq_error_iff.mp h with h | ⟨others, -, h⟩
          · exact ih _ hShorter hNext h rfl
          · cases h

/-- Tokens and faults stand in the lines and columns in which they start. -/
theorem standsAt_of_ofText (path : String) (t : Text) :
    match ofText path t with
    | .ok tokens => ∀ x ∈ tokens, t.StandsAt x.span.start x.span.line x.span.column
    | .error e => e.path = path ∧ ∃ front back, Reaches t front back ∧ Unclosed e.fault back
      ∧ t.StandsAt front.length e.line e.column := by
  split
  · rename_i tokens h
    intro x hx
    obtain ⟨front, back, hReaches, hStart, hLine, hColumn⟩ :=
      Lexed.exists_reaches (lexed_of_ofTextAt h) rfl (Reaches.start (t := t)) x hx
    rw [hReaches.eq_append, hStart, hLine, hColumn]
    exact Cursor.standsAt_past_start
  · rename_i e h
    obtain ⟨hPath, front, back, hReaches, hFault, hLine, hColumn⟩ :=
      exists_reaches_of_error (Reaches.start (t := t)) h
    refine ⟨hPath, front, back, hReaches, unclosed_of_first hFault, ?_⟩
    rw [hReaches.eq_append, hLine, hColumn]
    exact Cursor.standsAt_past_start

/-- Tokens behind a comment of two lines and behind a line splice. -/
theorem standsAt_behindLineEnds :
    ∃ tokens, ofText "f.cpp" "/*\n*/ a\\\n b" = .ok tokens
      ∧ tokens.map (fun x => (x.span.start, x.span.line, x.span.column)) = [(6, 2, 4), (10, 3, 2)]
      ∧ ∀ x ∈ tokens, Text.StandsAt "/*\n*/ a\\\n b" x.span.start x.span.line x.span.column := by
  refine Except.exists_of_passes
    (fun tokens => tokens.map (fun x => (x.span.start, x.span.line, x.span.column))
    == [(6, 2, 4), (10, 3, 2)]) (by decide +kernel) fun tokens hTokens hTest => ?_
  have hPlaces := standsAt_of_ofText "f.cpp" "/*\n*/ a\\\n b"
  rw [hTokens] at hPlaces
  exact ⟨beq_iff_eq.mp hTest, hPlaces⟩

end Token

end Demacro
