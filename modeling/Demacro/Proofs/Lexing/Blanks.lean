import Demacro.Proofs.Lexing.Derivation

/-!
What may stand between two tokens: white space, line splices, comments and line ends. The lexer
takes exactly these for pieces without tokens, and a text is made of them in one way at most.
-/

namespace Demacro

/-- A line end behind the text is spliced: the text ends with a backslash, or with one and a
carriage return. -/
def Text.Splices (t : Text) : Prop :=
  ∃ u, t = u ++ [.char '\\'] ∨ t = u ++ [.char '\\', .char '\r']

theorem Text.not_splices_nil : ¬ Text.Splices [] := by
  rintro ⟨u, h | h⟩ <;> simp at h

theorem Text.splices_concat {t : Text} {c : SourceChar} :
    Text.Splices (t ++ [c]) ↔ c = .char '\\' ∨ c = .char '\r' ∧ t.getLast? = some (.char '\\') := by
  constructor
  · rintro ⟨u, h | h⟩
    · exact .inl (List.append_inj_right' h rfl |> List.singleton_inj.mp)
    · rw [show u ++ [SourceChar.char '\\', .char '\r'] = (u ++ [.char '\\']) ++ [.char '\r'] by
        simp] at h
      obtain ⟨rfl, hLast⟩ := List.append_inj' h rfl
      exact .inr ⟨List.singleton_inj.mp hLast, by simp⟩
  · rintro (rfl | ⟨rfl, hLast⟩)
    · exact ⟨t, .inl rfl⟩
    · obtain ⟨u, rfl⟩ := List.getLast?_eq_some_iff.mp hLast
      exact ⟨u, .inr (by simp)⟩

/-- What may stand between two tokens. -/
inductive Blank where
  | space (c : Char)
  /-- A backslash and a line end, with or without a carriage return between them. -/
  | splice (carriage : Bool)
  | lineComment (body : Text)
  | blockComment (body : Text)
  | lineEnd
deriving DecidableEq

namespace Blank

/-- The source text. -/
def text : Blank → Text
  | space c => [.char c]
  | splice carriage =>
      if carriage then [.char '\\', .char '\r', .char '\n'] else [.char '\\', .char '\n']
  | lineComment body => .char '/' :: .char '/' :: body
  | blockComment body => .char '/' :: .char '*' :: (body ++ Text.ofString "*/")
  | lineEnd => [.char '\n']

/-- Between `front` and `back` the text means what its name says. A comment to the end of its line
goes on over spliced line ends and up to the first one that is not spliced, the other kind of
comment up to the first mark that closes it. -/
def Stands (front back : Text) : Blank → Prop
  | space c => Piece.isHorizontalSpace c = true
  | splice _ => True
  | lineComment body => (∀ u v : Text, body = u ++ .char '\n' :: v → u.Splices)
      ∧ (back = [] ∨ back.head? = some (.char '\n') ∧ ¬ body.Splices)
  | blockComment body =>
      Text.find? (Text.ofString "*/") (body ++ Text.ofString "*/") = some body.length
  | lineEnd => ¬ front.Splices

/-- The piece of which the text is made. -/
def piece : Blank → Piece
  | lineEnd => .lineEnd
  | _ => .blank

variable {front back : Text} {b : Blank}

theorem text_ne_nil (b : Blank) : b.text ≠ [] := by
  cases b with
  | splice carriage => cases carriage <;> simp [text]
  | _ => simp [text]

end Blank

namespace Piece

variable {front w a r x : Text}

theorem foldl_next (w : Text) :
    (w.foldl SpliceState.next .plain = .backslash ↔ w.getLast? = some (.char '\\'))
    ∧ (w.foldl SpliceState.next .plain = .plain ↔ ¬ w.Splices) := by
  induction w using List.reverseRecOn with
  | nil => simp [Text.not_splices_nil]
  | append_singleton w c ih =>
      rw [List.foldl_append, List.foldl_cons, List.foldl_nil, List.getLast?_concat,
        Text.splices_concat, ← ih.1]
      unfold SpliceState.next
      split_ifs with hBackslash hReturn
      · simp [hBackslash]
      · simp [hReturn]
      · simp_all

/-- How far a comment to the end of its line goes, behind the part of it in `w`. -/
theorem commentLength_iff : commentLength (w.foldl SpliceState.next .plain) (a ++ r) = a.length
    ↔ (∀ u v : Text, a = u ++ .char '\n' :: v → (w ++ u).Splices)
      ∧ (r = [] ∨ r.head? = some (.char '\n') ∧ ¬ (w ++ a).Splices) := by
  induction a generalizing w with
  | nil =>
      cases r with
      | nil => simp [commentLength]
      | cons c r =>
          rw [List.nil_append, commentLength, List.append_nil]
          split_ifs with hEnd
          · simp [hEnd.1, (foldl_next w).2.mp hEnd.2]
          · rw [(foldl_next w).2] at hEnd
            simpa using hEnd
  | cons c a ih =>
      have ih := ih (w := w ++ [c])
      rw [List.foldl_append, List.foldl_cons, List.foldl_nil] at ih
      rw [List.cons_append, commentLength]
      split_ifs with hEnd
      all_goals rw [(foldl_next w).2] at hEnd
      · refine iff_of_false (by simp) fun hSpliced => ?_
        obtain ⟨rfl, hNot⟩ := hEnd
        exact hNot (by simpa using hSpliced.1 [] a rfl)
      · rw [List.length_cons, Nat.add_right_cancel_iff, ih, List.append_assoc,
          List.singleton_append]
        refine and_congr_left fun _ => ⟨fun hSpliced u v hText => ?_, fun hSpliced u v hText => ?_⟩
        · cases u with
          | nil =>
              obtain ⟨rfl, rfl⟩ := List.cons.inj hText
              rw [List.append_nil]
              by_contra hNot
              exact hEnd ⟨rfl, hNot⟩
          | cons d u =>
              obtain ⟨rfl, rfl⟩ := List.cons.inj hText
              simpa using hSpliced u v rfl
        · simpa using hSpliced (c :: u) v (by rw [hText, List.cons_append])

theorem find?_closing_iff :
    Text.find? (Text.ofString "*/") (a ++ Text.ofString "*/" ++ r) = some a.length
    ↔ Text.find? (Text.ofString "*/") (a ++ Text.ofString "*/") = some a.length := by
  have hRoom : a.length + (Text.ofString "*/").length ≤ (a ++ Text.ofString "*/").length := by
    rw [List.length_append]
  constructor
  · intro h
    have hCut := Text.find?_append [] h hRoom
    rwa [List.append_nil] at hCut
  · intro h
    rw [← List.append_nil (a ++ Text.ofString "*/")] at h
    exact Text.find?_append r h hRoom

end Piece

namespace Blank

open Piece

variable {front back x : Text} {b : Blank}

/-- Where its text means what its name says, a blank is a piece. -/
theorem Stands.first (h : b.Stands front back) :
    first (b.text ++ back) = .ok (b.piece, b.text.length) := by
  cases b with
  | space c => exact first_horizontalSpace (c := .char c) h back
  | splice carriage => cases carriage <;> rfl
  | lineEnd => rfl
  | lineComment body =>
      have hLength := (commentLength_iff (w := [])).mpr h
      rw [List.foldl_nil, ← lineCommentLength_eq_commentLength] at hLength
      simp [text, piece, Piece.first, hLength]
  | blockComment body =>
      have hFound := (find?_closing_iff (r := back)).mpr h
      simp only [text, List.cons_append, Piece.first, hFound, List.length_cons, List.length_append]
      rfl

private theorem exists_behind_two {c d : SourceChar} {q : Text} (hText : x ++ back = c :: d :: q)
    (h : 2 ≤ x.length) : ∃ y, x = c :: d :: y ∧ q = y ++ back := by
  obtain ⟨c', x, rfl⟩ := List.exists_cons_of_ne_nil (l := x) (by rintro rfl; simp at h)
  obtain ⟨d', x, rfl⟩ := List.exists_cons_of_ne_nil (l := x) (by rintro rfl; simp at h)
  simp only [List.cons_append, List.cons.injEq] at hText
  obtain ⟨rfl, rfl, rfl⟩ := hText
  exact ⟨x, rfl, rfl⟩

/-- A piece without tokens is a blank. -/
theorem exists_of_first (h : first (x ++ back) = .ok (.blank, x.length)) :
    ∃ b : Blank, b.text = x ∧ b.piece = .blank ∧ ∀ front, b.Stands front back := by
  have hFront : ∀ {y r : Text}, x ++ back = y ++ r → y.length = x.length → y = x :=
      fun hText hLength =>
    (List.append_inj_left hText hLength.symm).symm
  generalize hText : x ++ back = t at h
  unfold Piece.first at h
  split at h
  · simp only [Except.ok.injEq, Prod.mk.injEq, true_and] at h
    exact ⟨.splice false, hFront (y := [.char '\\', .char '\n']) hText h, rfl, fun _ => trivial⟩
  · simp only [Except.ok.injEq, Prod.mk.injEq, true_and] at h
    exact ⟨.splice true, hFront (y := [.char '\\', .char '\r', .char '\n']) hText h, rfl,
      fun _ => trivial⟩
  · cases h
  · rename_i q
    simp only [Except.ok.injEq, Prod.mk.injEq, true_and] at h
    obtain ⟨body, rfl, rfl⟩ : ∃ body, x = .char '/' :: .char '/' :: body ∧ q = body ++ back :=
      exists_behind_two hText (by omega)
    have hLength : commentLength .plain (body ++ back) = body.length := by
      rw [← lineCommentLength_eq_commentLength]
      simpa using h
    exact ⟨.lineComment body, rfl, rfl, fun _ => (commentLength_iff (w := [])).mp hLength⟩
  · rename_i q
    split at h
    · rename_i n hFound
      simp only [Except.ok.injEq, Prod.mk.injEq, true_and] at h
      obtain ⟨inside, rfl, rfl⟩ : ∃ inside, x = .char '/' :: .char '*' :: inside
          ∧ q = inside ++ back :=
        exists_behind_two hText (by omega)
      obtain ⟨body, rfl, hBody⟩ : ∃ body, inside = body ++ Text.ofString "*/"
          ∧ body.length = n := by
        have hClosing := prefix_of_find? hFound
        rw [List.length_cons, List.length_cons] at h
        rw [List.drop_append_of_le_length (by omega)] at hClosing
        have hSame := List.IsPrefix.eq_of_length_le
          (List.prefix_of_prefix_length_le hClosing (List.prefix_append _ _)
            (by simp [Text.ofString]; omega))
          (by simp [Text.ofString]; omega)
        exact ⟨inside.take n,
          by rw [hSame, List.take_append_drop], List.length_take_of_le (by omega)⟩
      subst hBody
      exact ⟨.blockComment body, rfl, rfl, fun _ => find?_closing_iff.mp hFound⟩
    · cases h
  · split at h
    · rename_i hSpace
      simp only [Except.ok.injEq, Prod.mk.injEq, true_and] at h
      obtain ⟨c, rfl⟩ := List.length_eq_one_iff.mp h.symm
      obtain ⟨d, rfl⟩ : ∃ d, c = .char d := by
        cases c with
        | byte b => simp [← hText, SourceChar.satisfies] at hSpace
        | char d => exact ⟨d, rfl⟩
      have hSpace : isHorizontalSpace d = true := by
        simpa [← hText, SourceChar.satisfies] using hSpace
      exact ⟨.space d, rfl, rfl, fun _ => hSpace⟩
    · obtain ⟨found, -, hEq⟩ := Except.map_eq_ok_iff.mp h
      cases hEq

theorem eq_of_text_eq {front' back' : Text} {b' : Blank} (h : b.Stands front back)
    (h' : b'.Stands front' back') (hPiece : b.piece = b'.piece) (hText : b.text = b'.text) :
    b = b' := by
  cases b <;> cases b' <;> simp_all [piece, text]
  case splice.splice carriage carriage' => cases carriage <;> cases carriage' <;> simp_all
  case space.splice carriage => cases carriage <;> simp_all
  case splice.space carriage c => cases carriage <;> simp_all
  case splice.lineComment carriage body => cases carriage <;> simp_all
  case lineComment.splice body carriage => cases carriage <;> simp_all
  case splice.blockComment carriage body => cases carriage <;> simp_all
  case blockComment.splice body carriage => cases carriage <;> simp_all

/-- The text of blanks one behind the other. -/
def row (bs : List Blank) : Text :=
  bs.flatMap text

@[simp]
theorem row_append (bs cs : List Blank) : row (bs ++ cs) = row bs ++ row cs :=
  List.flatMap_append

@[simp]
theorem row_nil : row [] = [] := rfl

@[simp]
theorem row_cons (b : Blank) (bs : List Blank) : row (b :: bs) = b.text ++ row bs :=
  List.flatMap_cons

/-- Blanks one behind the other, between `front` and `back`. -/
def Fills (front : Text) : List Blank → Text → Prop
  | [], _ => True
  | b :: bs, back => b.Stands front (row bs ++ back) ∧ Fills (front ++ b.text) bs back

theorem fills_concat {bs : List Blank} :
    Fills front (bs ++ [b]) back ↔ Fills front bs (b.text ++ back)
    ∧ b.Stands (front ++ row bs) back := by
  induction bs generalizing front with
  | nil => simp [Fills]
  | cons c bs ih => simp [Fills, ih, and_assoc]

/-- A text is made of blanks in one way at most. -/
theorem Fills.unique {bs cs : List Blank} (h : Fills front bs back) (h' : Fills front cs back)
    (hRow : row bs = row cs) : bs = cs := by
  induction bs generalizing front cs with
  | nil =>
      cases cs with
      | nil => rfl
      | cons c cs => exact absurd hRow.symm (by simp [text_ne_nil])
  | cons b bs ih =>
      cases cs with
      | nil => exact absurd hRow (by simp [text_ne_nil])
      | cons c cs =>
          have hAll : b.text ++ (row bs ++ back) = c.text ++ (row cs ++ back) := by
            rw [← List.append_assoc, ← row_cons, hRow, row_cons, List.append_assoc]
          have hFirst := h.1.first.symm.trans (hAll ▸ h'.1.first)
          simp only [Except.ok.injEq, Prod.mk.injEq] at hFirst
          obtain ⟨hText, hRest⟩ := List.append_inj hAll hFirst.2
          obtain rfl := eq_of_text_eq h.1 h'.1 hFirst.1 hText
          rw [ih h.2 h'.2 (List.append_cancel_right hRest)]

end Blank

end Demacro
