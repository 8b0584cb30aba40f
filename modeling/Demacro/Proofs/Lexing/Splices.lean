import Demacro.Proofs.Lexing.Blanks

/-!
Texts whose spliced lines are joined. A line splice is a joint between two characters of the joined
text. Comments go as far in the joined text as in the text itself, if no joint falls into a mark
that starts or ends one.
-/

namespace Demacro

namespace Text

open Piece (lineCommentLength)

/-- A line splice, with or without a carriage return. -/
def splice (carriage : Bool) : Text :=
  (Blank.splice carriage).text

/-- The text with its spliced lines joined. -/
def joined : Text → Text
  | .char '\\' :: .char '\n' :: t => joined t
  | .char '\\' :: .char '\r' :: .char '\n' :: t => joined t
  | c :: t => c :: joined t
  | [] => []

/-- Where lines are joined, each place given by the number of characters of the joined text in front
of it. -/
def joints : Text → List Nat
  | .char '\\' :: .char '\n' :: t => 0 :: joints t
  | .char '\\' :: .char '\r' :: .char '\n' :: t => 0 :: joints t
  | _ :: t => (joints t).map (· + 1)
  | [] => []

/-- The marks that start and end comments. -/
def commentMarks : List Text :=
  ["//", "/*", "*/"].map ofString

/-- A joint falls between the two characters of a mark. -/
def SplitsMark (t : Text) : Prop :=
  ∃ n ∈ t.joints, 0 < n ∧ ∃ mark ∈ commentMarks, mark <+: t.joined.drop (n - 1)

instance (t : Text) : Decidable t.SplitsMark :=
  inferInstanceAs (Decidable (∃ n ∈ t.joints, 0 < n ∧ ∃ mark ∈ commentMarks, mark <+: t.joined.drop
    (n - 1)))

/-- The text starts with a line splice. -/
def StartsSplice (t : Text) : Prop :=
  ∃ carriage, splice carriage <+: t

variable {a b t u : Text} {c d : SourceChar} {carriage : Bool}

@[simp]
theorem joined_nil : joined [] = [] := rfl

@[simp]
theorem joints_nil : joints [] = [] := rfl

@[simp]
theorem joined_splice : joined (splice carriage ++ t) = joined t := by
  cases carriage <;> rfl

@[simp]
theorem joints_splice : joints (splice carriage ++ t) = 0 :: joints t := by
  cases carriage <;> rfl

theorem startsSplice_cons : StartsSplice (c :: t) ↔ c = .char '\\' ∧
    (t.head? = some (.char '\n') ∨ t.head? = some (.char '\r')
      ∧ (t.drop 1).head? = some (.char '\n')) := by
  constructor
  · rintro ⟨carriage, r, h⟩
    cases carriage with
    | false =>
        obtain ⟨rfl, rfl⟩ := List.cons.inj h
        exact ⟨rfl, .inl rfl⟩
    | true =>
        obtain ⟨rfl, rfl⟩ := List.cons.inj h
        exact ⟨rfl, .inr ⟨rfl, rfl⟩⟩
  · rintro ⟨rfl, hShort | ⟨hReturn, hLong⟩⟩
    · obtain ⟨r, rfl⟩ := List.head?_eq_some_iff.mp hShort
      exact ⟨false, r, rfl⟩
    · obtain ⟨r, rfl⟩ := List.head?_eq_some_iff.mp hReturn
      obtain ⟨q, rfl⟩ := List.head?_eq_some_iff.mp hLong
      exact ⟨true, q, rfl⟩

theorem not_startsSplice_of_ne (h : c ≠ .char '\\') : ¬ StartsSplice (c :: t) :=
  fun hStarts => h (startsSplice_cons.mp hStarts).1

theorem startsSplice_splice (carriage : Bool) (t : Text) : StartsSplice (splice carriage ++ t) :=
  ⟨carriage, t, rfl⟩

/-- A text is empty, or it starts with a line splice or with another character. -/
@[elab_as_elim]
theorem splice_induction {P : Text → Prop} (t : Text) (nil : P [])
    (splice : ∀ carriage t, P t → P (splice carriage ++ t))
    (cons : ∀ c t, ¬ StartsSplice (c :: t) → P t → P (c :: t)) : P t := by
  fun_induction joined t with
  | case1 t ih => exact splice false t ih
  | case2 t ih => exact splice true t ih
  | case3 c t hShort hLong ih =>
      refine cons c t (fun hStarts => ?_) ih
      obtain ⟨hBackslash, hHead | ⟨hReturn, hHead⟩⟩ := startsSplice_cons.mp hStarts
      · obtain ⟨r, rfl⟩ := List.head?_eq_some_iff.mp hHead
        exact hShort r hBackslash rfl
      · obtain ⟨r, rfl⟩ := List.head?_eq_some_iff.mp hReturn
        obtain ⟨q, rfl⟩ := List.head?_eq_some_iff.mp hHead
        exact hLong q hBackslash rfl
  | case4 => exact nil

theorem joined_cons (h : ¬ StartsSplice (c :: t)) : joined (c :: t) = c :: joined t := by
  rw [joined]
  · rintro r rfl rfl
    exact h (startsSplice_splice false r)
  · rintro r rfl rfl
    exact h (startsSplice_splice true r)

theorem joints_cons (h : ¬ StartsSplice (c :: t)) : joints (c :: t) = (joints t).map (· + 1) := by
  rw [joints]
  · rintro r rfl rfl
    exact h (startsSplice_splice false r)
  · rintro r rfl rfl
    exact h (startsSplice_splice true r)

theorem StartsSplice.append (h : StartsSplice t) (u : Text) : StartsSplice (t ++ u) := by
  obtain ⟨carriage, hPrefix⟩ := h
  exact ⟨carriage, hPrefix.trans (List.prefix_append t u)⟩

theorem StartsSplice.exists_eq (h : StartsSplice t) : ∃ carriage r, t = splice carriage ++ r := by
  obtain ⟨carriage, r, rfl⟩ := h
  exact ⟨carriage, r, rfl⟩

/-- What is left after the lines are joined has no line splice left to join. -/
theorem not_startsSplice_of_joints (h : joints t = []) : ¬ StartsSplice t := by
  intro hStarts
  obtain ⟨carriage, r, rfl⟩ := hStarts.exists_eq
  rw [joints_splice] at h
  cases h

theorem joints_of_cons (h : joints (c :: t) = []) : joints t = [] := by
  rwa [joints_cons (not_startsSplice_of_joints h), List.map_eq_nil_iff] at h

theorem joints_of_append (h : joints (a ++ t) = []) : joints t = [] := by
  induction a with
  | nil => exact h
  | cons c a ih => exact ih (joints_of_cons h)

/-- A text without joints is joined already. -/
theorem joined_eq_self (h : joints t = []) : joined t = t := by
  induction t with
  | nil => rfl
  | cons c t ih => rw [joined_cons (not_startsSplice_of_joints h), ih (joints_of_cons h)]

theorem le_of_mem_joints : ∀ n ∈ joints t, n ≤ (joined t).length := by
  induction t using splice_induction with
  | nil => simp
  | splice carriage t ih => simpa using ih
  | cons c t hStarts ih =>
      rw [joined_cons hStarts, joints_cons hStarts]
      simpa using ih

theorem mem_of_mem_joined (h : c ∈ joined t) : c ∈ t := by
  induction t using splice_induction with
  | nil => exact h
  | splice carriage t ih =>
      rw [joined_splice] at h
      exact List.mem_append_right _ (ih h)
  | cons d t hStarts ih =>
      rw [joined_cons hStarts] at h
      rcases List.mem_cons.mp h with rfl | h
      · exact List.mem_cons_self
      · exact List.mem_cons_of_mem _ (ih h)

/-- The text and the joined one go the same way up to the first joint, if there is one. -/
theorem exists_common (t : Text) :
    joined t = t ∨ ∃ w carriage r, t = w ++ splice carriage ++ r ∧ joined t = w ++ joined r := by
  induction t using splice_induction with
  | nil => exact .inl rfl
  | splice carriage t ih => exact .inr ⟨[], carriage, t, rfl, joined_splice⟩
  | cons c t hStarts ih =>
      rw [joined_cons hStarts]
      rcases ih with hSame | ⟨w, carriage, r, hText, hJoined⟩
      · exact .inl (by rw [hSame])
      · exact .inr ⟨c :: w, carriage, r, by rw [hText]; rfl, by rw [hJoined]; rfl⟩

/-- No joint falls into a mark, said for each two characters one behind the other. -/
def Whole : Text → Prop
  | .char '\\' :: .char '\n' :: t => Whole t
  | .char '\\' :: .char '\r' :: .char '\n' :: t => Whole t
  | c :: t => (∀ d, [c, d] ∈ commentMarks → (joined t).head? = some d → t.head? = some d) ∧ Whole t
  | [] => True

@[simp]
theorem whole_splice : Whole (splice carriage ++ t) ↔ Whole t := by
  cases carriage <;> exact Iff.rfl

theorem whole_cons (h : ¬ StartsSplice (c :: t)) : Whole (c :: t) ↔
    (∀ d, [c, d] ∈ commentMarks → (joined t).head? = some d → t.head? = some d) ∧ Whole t := by
  rw [Whole]
  · rintro r rfl rfl
    exact h (startsSplice_splice false r)
  · rintro r rfl rfl
    exact h (startsSplice_splice true r)

theorem startsSplice_of_head?_ne (h : (joined t).head? ≠ t.head?) : StartsSplice t := by
  by_contra hStarts
  cases t with
  | nil => exact h rfl
  | cons c t => exact h (by rw [joined_cons hStarts]; rfl)

theorem whole_of_not_splitsMark (h : ¬ SplitsMark t) : Whole t := by
  induction t using splice_induction with
  | nil => trivial
  | splice carriage t ih =>
      refine whole_splice.mpr (ih fun ⟨n, hn, hSplits⟩ => h ⟨n, ?_, ?_⟩)
      · rw [joints_splice]
        exact List.mem_cons_of_mem _ hn
      · rwa [joined_splice]
  | cons c t hStarts ih =>
      rw [whole_cons hStarts]
      refine ⟨fun d hMark hHead => ?_, ih fun ⟨n, hn, hPos, mark, hMark, hPrefix⟩ => h ?_⟩
      · by_contra hOther
        obtain ⟨carriage, r, rfl⟩ := (startsSplice_of_head?_ne (by rwa [hHead, ne_comm])).exists_eq
        obtain ⟨back, hBack⟩ := List.head?_eq_some_iff.mp hHead
        refine h ⟨1, ?_, Nat.one_pos, [c, d], hMark, back, ?_⟩
        · rw [joints_cons hStarts, joints_splice]
          exact List.mem_cons_self
        · rw [joined_cons hStarts, hBack]
          rfl
      · refine ⟨n + 1, ?_, Nat.succ_pos n, mark, hMark, ?_⟩
        · rw [joints_cons hStarts]
          exact List.mem_map_of_mem hn
        · obtain ⟨k, rfl⟩ := Nat.exists_eq_succ_of_ne_zero hPos.ne'
          rwa [joined_cons hStarts]

/-- Joining lines comes to the same on both sides of a place. -/
structure Cut (a b : Text) : Prop where
  joined_eq : joined (a ++ b) = joined a ++ joined b
  joints_eq : joints (a ++ b) = joints a ++ (joints b).map (· + (joined a).length)
  whole : Whole (a ++ b) → Whole b

theorem Cut.nil (b : Text) : Cut [] b :=
  ⟨rfl, by simp, id⟩

theorem Cut.splice (h : Cut a b) : Cut (splice carriage ++ a) b := by
  constructor
  · rw [List.append_assoc, joined_splice, joined_splice, h.joined_eq]
  · rw [List.append_assoc, joints_splice, joints_splice, joined_splice, h.joints_eq,
      List.cons_append]
  · rw [List.append_assoc, whole_splice]
    exact h.whole

theorem Cut.cons (hStarts : ¬ StartsSplice (c :: (a ++ b))) (h : Cut a b) : Cut (c :: a) b := by
  have hFront : ¬ StartsSplice (c :: a) := fun hFront => hStarts (hFront.append b)
  constructor
  · rw [List.cons_append, joined_cons hStarts, joined_cons hFront, h.joined_eq, List.cons_append]
  · rw [List.cons_append, joints_cons hStarts, joints_cons hFront, joined_cons hFront, h.joints_eq,
      List.map_append, List.map_map]
    rfl
  · rw [List.cons_append, whole_cons hStarts]
    exact fun hWhole => h.whole hWhole.2

/-- What stands at the front of the joined text stands at the front of the text, or a joint falls
into it. -/
theorem exists_front {x r : Text} (h : joined t = x ++ r) :
    (∃ b, t = x ++ b ∧ joined b = r ∧ Cut x b ∧ joints x = [])
      ∨ ∃ a z carriage b, x = a ++ z ∧ z ≠ [] ∧ t = a ++ splice carriage ++ b
      ∧ a.length ∈ joints t := by
  induction x generalizing t with
  | nil => exact .inl ⟨t, rfl, h, .nil t, rfl⟩
  | cons c x ih =>
      by_cases hStarts : StartsSplice t
      · obtain ⟨carriage, b, rfl⟩ := hStarts.exists_eq
        exact .inr ⟨[], c :: x, carriage, b, rfl, List.cons_ne_nil c x, rfl, by simp⟩
      · cases t with
        | nil => cases h
        | cons d t =>
            rw [joined_cons hStarts, List.cons_append] at h
            obtain ⟨rfl, hRest⟩ := List.cons.inj h
            rw [joints_cons hStarts]
            rcases ih hRest with ⟨b, rfl, hJoined, hCut, hJoints⟩
              | ⟨a, z, carriage, b, rfl, hNe, rfl, hMem⟩
            · refine .inl ⟨b, rfl, hJoined, .cons hStarts hCut, ?_⟩
              rw [joints_cons fun hFront => hStarts (hFront.append b), hJoints, List.map_nil]
            · exact .inr ⟨d :: a, z, carriage, b, rfl, hNe, rfl, List.mem_map_of_mem hMem⟩

/-- The mark that ends a comment is found where a star has a slash behind it. -/
theorem find?_closing_cons : find? (ofString "*/") (c :: t)
    = if c = .char '*' ∧ t.head? = some (.char '/') then some 0
    else (find? (ofString "*/") t).map (· + 1) := by
  have hPrefix : (ofString "*/").isPrefixOf (c :: t) = true ↔ c = .char '*'
      ∧ t.head? = some (.char '/') := by
    rw [List.isPrefixOf_iff_prefix, show ofString "*/" = [.char '*', .char '/'] from rfl,
      List.cons_prefix_cons, eq_comm]
    cases t <;> simp [eq_comm]
  rw [find?]
  simp only [hPrefix]

theorem find?_closing_splice : find? (ofString "*/") (splice carriage ++ t)
    = (find? (ofString "*/") t).map (· + (splice carriage).length) := by
  cases carriage <;> simp [splice, Blank.text, find?_closing_cons, Function.comp_def]

theorem lineCommentLength_splice :
    lineCommentLength (splice carriage ++ t) = lineCommentLength t + (splice carriage).length := by
  cases carriage <;> rfl

theorem lineCommentLength_cons (hStarts : ¬ StartsSplice (c :: t)) (hLineEnd : c ≠ .char '\n') :
    lineCommentLength (c :: t) = lineCommentLength t + 1 := by
  rw [lineCommentLength]
  · exact hLineEnd
  · rintro r rfl rfl
    exact hStarts (startsSplice_splice false r)
  · rintro r rfl rfl
    exact hStarts (startsSplice_splice true r)

/-- A comment to the end of its line goes as far in the joined text. -/
theorem cut_lineComment (h : joints (joined t) = []) :
    Cut (t.take (lineCommentLength t)) (t.drop (lineCommentLength t))
      ∧ lineCommentLength (joined t) = (joined (t.take (lineCommentLength t))).length := by
  induction t using splice_induction with
  | nil => exact ⟨.nil [], rfl⟩
  | splice carriage t ih =>
      rw [joined_splice] at h ⊢
      obtain ⟨hCut, hLength⟩ := ih h
      rw [lineCommentLength_splice, Nat.add_comm, List.take_length_add_append,
        List.drop_length_add_append, joined_splice]
      exact ⟨hCut.splice, hLength⟩
  | cons c t hStarts ih =>
      by_cases hLineEnd : c = .char '\n'
      · subst hLineEnd
        exact ⟨.nil _, rfl⟩
      · rw [joined_cons hStarts] at h ⊢
        obtain ⟨hCut, hLength⟩ := ih (joints_of_cons h)
        rw [lineCommentLength_cons hStarts hLineEnd, List.take_succ_cons, List.drop_succ_cons,
          lineCommentLength_cons (not_startsSplice_of_joints h) hLineEnd, hLength]
        rw [← List.take_append_drop (lineCommentLength t) t] at hStarts
        exact ⟨.cons hStarts hCut, by rw [joined_cons fun hFront => hStarts (hFront.append _),
          List.length_cons]⟩

/-- A comment that is not closed is not closed in the joined text. -/
theorem find?_joined_eq_none (hWhole : Whole t) (h : find? (ofString "*/") t = none) :
    find? (ofString "*/") (joined t) = none := by
  induction t using splice_induction with
  | nil => exact h
  | splice carriage t ih =>
      rw [find?_closing_splice, Option.map_eq_none_iff] at h
      rw [joined_splice]
      exact ih (whole_splice.mp hWhole) h
  | cons c t hStarts ih =>
      obtain ⟨hHead, hWhole⟩ := (whole_cons hStarts).mp hWhole
      rw [find?_closing_cons] at h
      rw [joined_cons hStarts, find?_closing_cons]
      split_ifs at h with hMark
      rw [Option.map_eq_none_iff] at h
      rw [if_neg, ih hWhole h, Option.map_none]
      rintro ⟨rfl, hSlash⟩
      exact hMark ⟨rfl, hHead _ (by decide) hSlash⟩

/-- A comment that is closed goes as far in the joined text. -/
theorem cut_blockComment {n : Nat} (hWhole : Whole t) (h : find? (ofString "*/") t = some n) :
    Cut (t.take (n + 2)) (t.drop (n + 2))
      ∧ ∃ m, find? (ofString "*/") (joined t) = some m ∧ (joined (t.take (n + 2))).length = m
      + 2 := by
  induction t using splice_induction generalizing n with
  | nil => cases h
  | splice carriage t ih =>
      rw [find?_closing_splice] at h
      obtain ⟨k, hFound, rfl⟩ := Option.map_eq_some_iff.mp h
      obtain ⟨hCut, m, hJoined, hLength⟩ := ih (whole_splice.mp hWhole) hFound
      rw [show k + (splice carriage).length + 2 = (splice carriage).length + (k + 2) by omega,
        List.take_length_add_append, List.drop_length_add_append, joined_splice, joined_splice]
      exact ⟨hCut.splice, m, hJoined, hLength⟩
  | cons c t hStarts ih =>
      obtain ⟨hHead, hWhole⟩ := (whole_cons hStarts).mp hWhole
      rw [find?_closing_cons] at h
      rw [joined_cons hStarts, find?_closing_cons]
      split_ifs at h with hMark
      · cases h
        obtain ⟨rfl, hSlash⟩ := hMark
        obtain ⟨r, rfl⟩ := List.head?_eq_some_iff.mp hSlash
        have hNoSplice := not_startsSplice_of_ne (c := .char '/') (t := r) (by decide)
        refine ⟨.cons hStarts (.cons hNoSplice (.nil r)), 0, ?_, rfl⟩
        rw [joined_cons hNoSplice]
        rfl
      · obtain ⟨k, hFound, rfl⟩ := Option.map_eq_some_iff.mp h
        obtain ⟨hCut, m, hJoined, hLength⟩ := ih hWhole hFound
        rw [← List.take_append_drop (k + 2) t] at hStarts
        rw [show k + 1 + 2 = k + 2 + 1 from rfl, List.take_succ_cons, List.drop_succ_cons, if_neg,
          hJoined, joined_cons fun hFront => hStarts (hFront.append _), List.length_cons, hLength]
        · exact ⟨.cons hStarts hCut, m + 1, rfl, rfl⟩
        · rintro ⟨rfl, hSlash⟩
          exact hMark ⟨rfl, hHead _ (by decide) hSlash⟩

end Text

end Demacro
