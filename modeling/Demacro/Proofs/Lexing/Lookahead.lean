import Demacro.Proofs.Lexing
import Mathlib.Data.List.Find

/-!
How far the parts of the lexer look ahead. A literal holds all that it depends on. Words, numbers
and punctuators depend on what stands behind them only as far as it could go on with them.
-/

theorem List.isPrefixOf_append_iff {α : Type} [BEq α] [LawfulBEq α] {p a : List α} (s : List α)
    (h : p.length ≤ a.length) : p.isPrefixOf (a ++ s) = p.isPrefixOf a := by
  rw [Bool.eq_iff_iff, isPrefixOf_iff_prefix, isPrefixOf_iff_prefix]
  exact ⟨fun hPrefix => prefix_of_prefix_length_le hPrefix (prefix_append a s) h,
    fun hPrefix => hPrefix.trans (prefix_append a s)⟩

/-- The characters at the front that have a property, if not all in front of a place do, do not
depend on what is behind it. -/
theorem List.takeWhile_append_of_lt {α : Type} {p : α → Bool} {a s : List α} (s' : List α)
    (h : ((a ++ s).takeWhile p).length < a.length) :
    (a ++ s').takeWhile p = (a ++ s).takeWhile p := by
  rw [takeWhile_append] at h ⊢
  rw [takeWhile_append]
  split
  · rename_i hAll
    rw [if_pos hAll, length_append] at h
    omega
  · rfl

/-- The same if all of them do, provided that what is behind the place goes on like that only where
it did. -/
theorem List.takeWhile_append_of_le {α : Type} {p : α → Bool} {a s s' : List α}
    (h : ((a ++ s).takeWhile p).length ≤ a.length)
    (hEnd : ∀ c ∈ s'.head?, p c = true → ∃ d ∈ s.head?, p d = true) :
    (a ++ s').takeWhile p = (a ++ s).takeWhile p := by
  induction a with
  | nil =>
      have hNone : s.takeWhile p = [] := List.length_eq_zero_iff.mp (Nat.le_zero.mp h)
      rw [nil_append, nil_append, hNone]
      cases s' with
      | nil => rfl
      | cons c t =>
          refine takeWhile_cons_of_neg fun hc => ?_
          obtain ⟨d, hd, hp⟩ := hEnd c rfl hc
          obtain ⟨r, rfl⟩ := head?_eq_some_iff.mp hd
          rw [takeWhile_cons_of_pos hp] at hNone
          cases hNone
  | cons c a ih =>
      rw [cons_append, takeWhile_cons] at h ⊢
      rw [cons_append, takeWhile_cons]
      split
      · rename_i hc
        rw [if_pos hc] at h
        rw [ih (Nat.le_of_succ_le_succ h)]
      · rfl

/-- What holds of each member of a list can be found out by going through the list. -/
theorem List.forall_mem_of_all {α : Type} {p : α → Prop} [DecidablePred p] {l : List α}
    (h : l.all (fun a => decide (p a)) = true) : ∀ a ∈ l, p a :=
  fun a ha => of_decide_eq_true (all_eq_true.mp h a ha)

namespace Demacro

/-- What is found in front of a place does not depend on what is behind it. -/
theorem Text.find?_append {needle a s : Text} {n : Nat} (s' : Text)
    (h : find? needle (a ++ s) = some n) (hn : n + needle.length ≤ a.length) :
    find? needle (a ++ s') = some n := by
  induction a generalizing n with
  | nil =>
      obtain ⟨rfl, hNeedle⟩ : n = 0 ∧ needle.length = 0 := by
        rw [List.length_nil] at hn
        omega
      rw [List.length_eq_zero_iff.mp hNeedle]
      cases s' <;> rfl
  | cons c a ih =>
      have hLength : needle.length ≤ (c :: a).length := Nat.le_trans (Nat.le_add_left _ _) hn
      rw [List.cons_append, find?, ← List.cons_append, List.isPrefixOf_append_iff _ hLength] at h ⊢
      split
      · rename_i hPrefix
        rwa [if_pos hPrefix] at h
      · rename_i hPrefix
        rw [if_neg hPrefix] at h
        obtain ⟨m, hFound, rfl⟩ := Option.map_eq_some_iff.mp h
        rw [ih hFound (by rw [List.length_cons] at hn; omega)]
        rfl

namespace Piece

variable {x a u s s' t : Text} {kind : TokenKind} {n m : Nat} {quote : Char}

/-- The length of the rest of a literal, read one character at a time. The flag says that the
character in front was a backslash that takes the next one with it. -/
def bodyLength? (quote : Char) : Bool → Text → Option Nat
  | _, [] => none
  | true, _ :: t => (bodyLength? quote false t).map (· + 1)
  | false, c :: t =>
    if c = .char '\\' then (bodyLength? quote true t).map (· + 1)
    else if c = .char quote then some 1
    else if c = .char '\n' then none
    else (bodyLength? quote false t).map (· + 1)

theorem quotedLength?_eq_bodyLength? (quote : Char) (t : Text) :
    quotedLength? quote t = bodyLength? quote false t := by
  fun_induction quotedLength? quote t with
  | case1 => rfl
  | case2 => rfl
  | case3 c t ih => simp [bodyLength?, ih, Function.comp_def]
  | case4 c t hNil hCons hQuote =>
      have hPlain : c ≠ '\\' := by
        cases t with
        | nil => exact hNil rfl
        | cons d r => exact hCons d r rfl
      simp_all [bodyLength?]
  | case5 => simp_all [bodyLength?]
  | case6 c t hNil hCons =>
      have hPlain : c ≠ '\\' := by
        cases t with
        | nil => exact hNil rfl
        | cons d r => exact hCons d r rfl
      simp_all [bodyLength?]
  | case7 b t ih => simp [bodyLength?, ih]

/-- A literal that ends in front of a place does not depend on what is behind it. -/
theorem bodyLength?_append {escaped : Bool} (s' : Text)
    (h : bodyLength? quote escaped (a ++ s) = some n) (hn : n ≤ a.length) :
    bodyLength? quote escaped (a ++ s') = some n := by
  induction a generalizing escaped n with
  | nil =>
      obtain rfl := Nat.le_zero.mp hn
      fun_cases bodyLength? quote escaped s <;> simp_all [bodyLength?]
  | cons c a ih =>
      rw [List.length_cons] at hn
      rw [List.cons_append] at h ⊢
      have hLater : ∀ escaped, (bodyLength? quote escaped (a ++ s)).map (· + 1) = some n →
          (bodyLength? quote escaped (a ++ s')).map (· + 1) = some n := by
        intro escaped h
        obtain ⟨m, hRest, rfl⟩ := Option.map_eq_some_iff.mp h
        rw [ih hRest (Nat.le_of_succ_le_succ hn), Option.map_some]
      cases escaped with
      | true => exact hLater false h
      | false =>
          simp only [bodyLength?] at h ⊢
          split_ifs at h ⊢
          · exact hLater true h
          · exact h
          · exact hLater false h

theorem literal?_append (s' : Text) (h : literal? (a ++ s) = some (kind, n)) (hn : n ≤ a.length) :
    literal? (a ++ s') = some (kind, n) := by
  cases a with
  | nil => exact absurd (literal?_pos h) (Nat.not_lt_of_le hn)
  | cons c a =>
      cases c with
      | byte b => cases h
      | char c =>
          simp only [List.cons_append, literal?, quotedLength?_eq_bodyLength?] at h ⊢
          split
          · rename_i hQuote
            rw [if_pos hQuote] at h
            obtain ⟨m, hBody, hEq⟩ := Option.map_eq_some_iff.mp h
            cases hEq
            rw [bodyLength?_append s' hBody (Nat.le_of_succ_le_succ hn), Option.map_some]
          · rename_i hQuote
            rw [if_neg hQuote] at h
            cases h

theorem rawLength?_append (s' : Text) (h : rawLength? (a ++ s) = some n) (hn : n ≤ a.length) :
    rawLength? (a ++ s') = some n := by
  unfold rawLength? at h ⊢
  dsimp only at h ⊢
  split at h
  · rename_i hDelimiter
    obtain ⟨m, hFound, rfl⟩ := Option.map_eq_some_iff.mp h
    have hShort : ((a ++ s).takeWhile (· != .char '(')).length < a.length := by
      omega
    rw [List.takeWhile_append_of_lt s' hShort]
    generalize (a ++ s).takeWhile (· != .char '(') = delimiter at hDelimiter hFound hShort hn ⊢
    obtain ⟨-, hSixteen, hAll⟩ := hDelimiter
    rw [List.drop_append_of_le_length (by omega)] at hFound ⊢
    have hInside : m + (SourceChar.char ')' :: delimiter ++ [SourceChar.char '"']).length
        ≤ (a.drop (delimiter.length + 1)).length := by
      rw [List.length_drop]
      omega
    rw [if_pos ⟨by rw [List.length_append]; omega, hSixteen, hAll⟩,
      Text.find?_append s' hFound hInside, Option.map_some]
  · cases h

/-- A character of a word. -/
def isWord (c : SourceChar) : Bool :=
  c.satisfies Unicode.isWord

/-- A word that ends at a place or in front of it stays as it is if what comes behind the place
cannot go on with it. -/
theorem identifierLength?_append (h : identifierLength? (a ++ s) = some n) (hn : n ≤ a.length)
    (hWord : ∀ c ∈ s'.head?, isWord c = true → ∃ d ∈ s.head?, isWord d = true) :
    identifierLength? (a ++ s') = some n := by
  cases a with
  | nil => exact absurd (identifierLength?_pos h) (Nat.not_lt_of_le hn)
  | cons c a =>
      cases c with
      | byte b => cases h
      | char c =>
          simp only [List.cons_append, identifierLength?, List.length_cons] at h hn ⊢
          split
          · rename_i hFirst
            rw [if_pos hFirst, Option.some.injEq] at h
            subst h
            rw [List.takeWhile_append_of_le (Nat.le_of_succ_le_succ hn) hWord]
          · rename_i hFirst
            rw [if_neg hFirst] at h
            cases h

/-- A character that a number goes on with, whatever comes next. -/
def isNumberChar (c : SourceChar) : Bool :=
  c.satisfies fun c => isAsciiWord c || c == '.'

/-- Two characters that a number takes together: an exponent letter with a sign, or a separator with
what it separates. -/
def takesNext (c d : SourceChar) : Bool :=
  c.satisfies fun c => d.satisfies fun d =>
    (c == 'e' || c == 'E' || c == 'p' || c == 'P') && (d == '+' || d == '-') || c == '\''
      && isAsciiWord d

theorem numberTailLength_cons (c : SourceChar) (t : Text) : numberTailLength (c :: t) =
    if t.head?.any (takesNext c) then numberTailLength (t.drop 1) + 2
    else if isNumberChar c then numberTailLength t + 1 else 0 := by
  cases c with
  | byte b => cases t with
    | nil => rfl
    | cons d t => rfl
  | char c =>
      cases t with
      | nil => simp [numberTailLength, isNumberChar, SourceChar.satisfies]
      | cons d t =>
          cases d with
          | byte b => simp [numberTailLength, isNumberChar, SourceChar.satisfies, takesNext]
          | char d =>
              simp only [numberTailLength, isNumberChar, SourceChar.satisfies, takesNext,
                List.head?_cons, Option.any_some, List.drop_one, List.tail_cons]
              cases (c == 'e' || c == 'E' || c == 'p' || c == 'P') && (d == '+' || d == '-') with
              | true => rfl
              | false => rfl

/-- A number that ends at a place or in front of it stays as it is when what is behind the place
changes, or it goes on behind it. -/
theorem numberTailLength_append (s' : Text) (h : numberTailLength (a ++ s) ≤ a.length) :
    numberTailLength (a ++ s') = numberTailLength (a ++ s)
    ∨ a.length < numberTailLength (a ++ s') := by
  induction hLength : a.length using Nat.strongRecOn generalizing a with
  | _ length ih =>
      subst hLength
      cases a with
      | nil =>
          rw [List.length_nil] at h ⊢
          omega
      | cons c a =>
          rw [List.cons_append, numberTailLength_cons] at h
          rw [List.cons_append, List.cons_append, numberTailLength_cons, numberTailLength_cons c
            (a ++ s)]
          cases a with
          | nil =>
              simp only [List.nil_append, List.length_cons, List.length_nil] at h ⊢
              split_ifs at h ⊢ <;> omega
          | cons d a =>
              have hHead : ∀ s : Text, (d :: a ++ s).head? = some d := fun _ => rfl
              rw [hHead] at h ⊢
              rw [hHead]
              have hFar := ih a.length (by simp only [List.length_cons]; omega) (a := a)
              have hNear := ih (d :: a).length (by simp) (a := d :: a)
              simp only [List.length_cons, List.cons_append, List.drop_one,
                List.tail_cons] at h hNear ⊢
              split_ifs at h ⊢
              · have := hFar (by omega) rfl
                omega
              · have := hNear (by omega) trivial
                omega
              · omega

/-- A character that neither a word nor a number goes on with, and that opens no literal. -/
def isHard (c : SourceChar) : Bool :=
  !c.satisfies fun c => Unicode.isWord c || c == '.' || c == '+' || c == '-' || c == '\''
    || c == '"'

/-- A character that some punctuator has behind its first one. -/
def isInner (c : SourceChar) : Bool :=
  c.satisfies fun c => ['%', ':', '.', '=', '>', '*', '<', '+', '-', '&', '|', '#'].contains c

theorem isWord_of_isAsciiWord {c : Char} (h : isAsciiWord c = true) : Unicode.isWord c = true := by
  have hAscii : ∀ n < 128, isAsciiWord (Char.ofNat n) = true →
      Unicode.isWord (Char.ofNat n) = true := by
    decide +kernel
  have hSmall : c.toNat < 128 := by
    delta isAsciiWord Char.isAlphanum Char.isAlpha Char.isUpper Char.isLower Char.isDigit at h
    simp only [Bool.or_eq_true, Bool.and_eq_true, decide_eq_true_eq, beq_iff_eq, ge_iff_le,
      UInt32.le_iff_toNat_le, Char.toNat_val] at h
    rcases h with h | rfl
    · simp only [show 'A'.toNat = 65 from rfl, show 'Z'.toNat = 90 from rfl,
        show 'a'.toNat = 97 from rfl,
        show 'z'.toNat = 122 from rfl, show '0'.toNat = 48 from rfl,
          show '9'.toNat = 57 from rfl] at h
      omega
    · decide
  have hCode := hAscii c.toNat hSmall
  rw [Char.ofNat_toNat] at hCode
  exact hCode h

theorem takesNext_eq_false {c : SourceChar} (h : isHard c = true) (d : SourceChar) :
    takesNext c d = false := by
  by_contra hTakes
  cases c with
  | byte b => exact hTakes rfl
  | char c =>
      simp only [takesNext, SourceChar.satisfies, Bool.not_eq_false] at hTakes
      cases d with
      | byte b => cases hTakes
      | char d =>
          simp only [Bool.or_eq_true, Bool.and_eq_true, beq_iff_eq] at hTakes
          rcases hTakes with ⟨((rfl | rfl) | rfl) | rfl, -⟩ | ⟨rfl, -⟩
            <;> exact absurd h (by decide +kernel)

theorem isNumberChar_eq_false {c : SourceChar} (h : isHard c = true) : isNumberChar c = false := by
  by_contra hNumber
  cases c with
  | byte b => exact hNumber rfl
  | char c =>
      simp only [isNumberChar, SourceChar.satisfies, Bool.not_eq_false, Bool.or_eq_true,
        beq_iff_eq] at hNumber
      rcases hNumber with hWord | rfl
      · simp [isHard, SourceChar.satisfies, isWord_of_isAsciiWord hWord] at h
      · exact absurd h (by decide +kernel)

theorem takesNext_eq_false_right {d : SourceChar} (h : isHard d = true) (c : SourceChar) :
    takesNext c d = false := by
  by_contra hTakes
  cases c with
  | byte b => exact hTakes rfl
  | char c =>
      cases d with
      | byte b => exact hTakes rfl
      | char d =>
          simp only [takesNext, SourceChar.satisfies, Bool.not_eq_false, Bool.or_eq_true,
            Bool.and_eq_true, beq_iff_eq] at hTakes
          rcases hTakes with ⟨-, rfl | rfl⟩ | ⟨-, hWord⟩
          · exact absurd h (by decide +kernel)
          · exact absurd h (by decide +kernel)
          · simp [isHard, SourceChar.satisfies, isWord_of_isAsciiWord hWord] at h

/-- No number goes on with a hard character. -/
theorem numberTailLength_eq_zero {c : SourceChar} (h : isHard c = true) :
    numberTailLength (c :: t) = 0 := by
  rw [numberTailLength_cons, isNumberChar_eq_false h]
  cases t with
  | nil => rfl
  | cons d t => simp [takesNext_eq_false h d]

/-- A number ends in front of a hard character. -/
theorem numberTailLength_le (hEnd : ∀ c ∈ t.head?, isHard c = true) :
    numberTailLength (a ++ t) ≤ a.length := by
  induction hLength : a.length using Nat.strongRecOn generalizing a with
  | _ length ih =>
      subst hLength
      cases a with
      | nil =>
          cases t with
          | nil => exact Nat.le_refl 0
          | cons c t => exact Nat.le_of_eq (numberTailLength_eq_zero (hEnd c rfl))
      | cons c a =>
          rw [List.cons_append, numberTailLength_cons]
          cases a with
          | nil =>
              cases t with
              | nil => split_ifs <;> simp_all [numberTailLength]
              | cons d t =>
                  have hd := hEnd d rfl
                  simp only [List.nil_append, List.head?_cons, Option.any_some,
                    takesNext_eq_false_right hd, numberTailLength_eq_zero hd]
                  split_ifs <;> simp_all
          | cons d a =>
              have hFar := ih a.length (by simp only [List.length_cons]; omega) (a := a) rfl
              have hNear := ih (d :: a).length (by simp) (a := d :: a) rfl
              simp only [List.length_cons, List.cons_append, List.drop_one,
                List.tail_cons] at hNear ⊢
              split_ifs <;> omega

theorem isHard_of_isAsciiDigit {c : SourceChar} (h : isAsciiDigit c = true) : isHard c = false := by
  cases c with
  | byte b => cases h
  | char c =>
      have hWord : isAsciiWord c = true := by
        simp only [isAsciiDigit, SourceChar.satisfies] at h
        simp [isAsciiWord, Char.isAlphanum, h]
      simp [isHard, SourceChar.satisfies, isWord_of_isAsciiWord hWord]

theorem numberLength?_cons (c : SourceChar) (t : Text) : numberLength? (c :: t) =
    if isAsciiDigit c then some (numberTailLength t + 1)
    else if c = .char '.' ∧ t.head?.any isAsciiDigit then some (numberTailLength (t.drop 1) + 2)
    else none := by
  simp only [numberLength?]
  split
  · rfl
  split
  · simp
  · rename_i hOther
    refine (if_neg ?_).symm
    rintro ⟨rfl, hDigit⟩
    cases t with
    | nil => cases hDigit
    | cons d t => exact hOther d t rfl rfl

/-- A number that ends at a place or in front of it stays as it is when what is behind the place
changes, or it goes on behind it. A point in front of the place can also become a number with what
comes behind it. -/
theorem numberLength?_append (s' : Text) (hNe : a ≠ [])
    (h : ∀ n ∈ numberLength? (a ++ s), n ≤ a.length) :
    numberLength? (a ++ s') = numberLength? (a ++ s) ∨ ∃ n, numberLength? (a ++ s') = some n
    ∧ a.length < n := by
  obtain ⟨c, a, rfl⟩ := List.exists_cons_of_ne_nil hNe
  rw [List.cons_append, numberLength?_cons] at h
  rw [List.cons_append, List.cons_append, numberLength?_cons, numberLength?_cons c (a ++ s),
    List.length_cons]
  cases a with
  | nil =>
      simp only [List.nil_append, List.length_cons, List.length_nil] at h ⊢
      split_ifs at h ⊢
      · have := numberTailLength_append (a := []) (s := s) s' (by simpa using h)
        simp at this ⊢
        omega
      all_goals simp_all
  | cons d a =>
      have hHead : ∀ s : Text, (d :: a ++ s).head? = some d := fun _ => rfl
      rw [hHead] at h ⊢
      rw [hHead]
      have hNear := numberTailLength_append (a := d :: a) (s := s) s'
      have hFar := numberTailLength_append (a := a) (s := s) s'
      simp only [List.length_cons, List.cons_append, List.drop_one, List.tail_cons] at h hNear ⊢
      split_ifs at h ⊢
      · rcases hNear (by simpa using h) with hSame | hLonger
        · exact .inl (by rw [hSame])
        · exact .inr ⟨_, rfl, by omega⟩
      · rcases hFar (by simpa using h) with hSame | hLonger
        · exact .inl (by rw [hSame])
        · exact .inr ⟨_, rfl, by omega⟩
      · exact .inl rfl

theorem numberLength?_le (hNe : a ≠ []) (hEnd : ∀ c ∈ t.head?, isHard c = true) :
    ∀ n ∈ numberLength? (a ++ t), n ≤ a.length := by
  obtain ⟨c, a, rfl⟩ := List.exists_cons_of_ne_nil hNe
  intro n hn
  rw [List.cons_append, numberLength?_cons, Option.mem_def] at hn
  rw [List.length_cons]
  have hNear := numberTailLength_le (a := a) hEnd
  cases a with
  | nil =>
      have hNoDigit : t.head?.any isAsciiDigit = false := by
        cases t with
        | nil => rfl
        | cons d t =>
            by_contra hDigit
            have hHard := hEnd d rfl
            rw [isHard_of_isAsciiDigit (by simpa using hDigit)] at hHard
            cases hHard
      rw [List.nil_append] at hn hNear
      rw [hNoDigit] at hn
      split_ifs at hn
      · cases hn
        exact Nat.succ_le_succ hNear
      · simp_all
  | cons d a =>
      have hFar := numberTailLength_le (a := a) hEnd
      simp only [List.length_cons, List.cons_append, List.drop_one, List.tail_cons] at hn hNear ⊢
      split_ifs at hn
      · cases hn
        omega
      · cases hn
        omega

theorem isInner_of_mem_punctuators :
    ∀ p ∈ punctuators, ∀ c ∈ p.toList.drop 1, isInner (.char c) = true := by
  have hAll : (punctuators.all fun p => (p.toList.drop 1).all fun c => isInner (.char c))
      = true := by
    decide +kernel
  intro p hp
  exact List.all_eq_true.mp (List.all_eq_true.mp hAll p hp)

/-- A text that reaches behind a place has there what stands there. -/
theorem isPrefixOf_append_of_not {p : Text} (h : ∀ c ∈ s.head?, ¬ a ++ [c] <+: p) :
    p.isPrefixOf (a ++ s) = p.isPrefixOf a := by
  rcases Nat.lt_or_ge a.length p.length with hLonger | hShort
  · have hNot : ¬ p <+: a := fun hPrefix => Nat.not_lt_of_le hPrefix.length_le hLonger
    have hNot' : ¬ p <+: a ++ s := by
      intro hPrefix
      obtain ⟨z, rfl⟩ := List.prefix_of_prefix_length_le (List.prefix_append a s) hPrefix
        (Nat.le_of_lt hLonger)
      obtain ⟨d, z, rfl⟩ := List.exists_cons_of_ne_nil (l := z) (by
        rintro rfl
        simp at hLonger)
      obtain ⟨r, hr⟩ := hPrefix
      rw [List.append_assoc, List.append_cancel_left_eq] at hr
      exact h d (by simp [← hr]) ⟨z, by simp⟩
    rw [Bool.eq_false_iff.mpr (fun h => hNot (List.isPrefixOf_iff_prefix.mp h)),
      Bool.eq_false_iff.mpr (fun h => hNot' (List.isPrefixOf_iff_prefix.mp h))]
  · exact List.isPrefixOf_append_iff s hShort

/-- A punctuator that reaches behind a place has an inner character there. -/
theorem isPrefixOf_append_eq {p : String} (hp : p ∈ punctuators) (hNe : a ≠ [])
    (hInner : ∀ c ∈ s.head?, isInner c = false) :
    (Text.ofString p).isPrefixOf (a ++ s) = (Text.ofString p).isPrefixOf a := by
  apply isPrefixOf_append_of_not
  intro d hd hPrefix
  obtain ⟨z, hz⟩ := hPrefix
  have hBehind : d ∈ (Text.ofString p).drop 1 := by
    rw [← hz]
    obtain ⟨c, a, rfl⟩ := List.exists_cons_of_ne_nil hNe
    simp
  rw [Text.ofString, ← List.map_drop] at hBehind
  obtain ⟨c, hc, rfl⟩ := List.mem_map.mp hBehind
  have hFalse := hInner (.char c) hd
  rw [isInner_of_mem_punctuators p hp c hc] at hFalse
  cases hFalse

theorem punctuatorLength?_of_isInner (hNe : a ≠ []) (hInner : ∀ c ∈ s.head?, isInner c = false) :
    punctuatorLength? (a ++ s) = punctuatorLength? a := by
  rw [punctuatorLength?, punctuatorLength?, List.find?_congr fun p hp => isPrefixOf_append_eq hp
    hNe hInner]

theorem punctuatorLength?_of_le (h : ∀ n ∈ punctuatorLength? (a ++ s), n ≤ a.length) :
    punctuatorLength? (a ++ s) = punctuatorLength? a := by
  have hNot : ∀ p, (Text.ofString p).isPrefixOf (a ++ s) = false →
      (Text.ofString p).isPrefixOf a = false := by
    intro p hp
    by_contra hPrefix
    have hLonger := (List.isPrefixOf_iff_prefix.mp (by simpa using hPrefix)).trans
      (List.prefix_append a s)
    rw [List.isPrefixOf_iff_prefix.mpr hLonger] at hp
    cases hp
  unfold punctuatorLength? at h ⊢
  cases hFound : punctuators.find? fun p => (Text.ofString p).isPrefixOf (a ++ s) with
  | none =>
      have hNone : (punctuators.find? fun p => (Text.ofString p).isPrefixOf a) = none := by
        rw [List.find?_eq_none] at hFound ⊢
        intro p hp
        exact Bool.not_eq_true _ ▸ hNot p (Bool.not_eq_true _ ▸ hFound p hp)
      rw [hNone]
  | some p =>
      have hLength := h p.length (by rw [hFound]; rfl)
      obtain ⟨hPrefix, before, behind, hAll, hBefore⟩ := List.find?_eq_some_iff_append.mp hFound
      have hSome : (punctuators.find? fun p => (Text.ofString p).isPrefixOf a) = some p := by
        refine List.find?_eq_some_iff_append.mpr ⟨?_, before, behind, hAll, fun q hq => ?_⟩
        · rwa [List.isPrefixOf_append_iff s
            (by rwa [Text.ofString, List.length_map, String.length_toList])] at hPrefix
        · simpa using hNot q (by simpa using hBefore q hq)
      rw [hSome]

theorem identifierLength?_le (hNe : a ≠ []) (hEnd : ∀ c ∈ t.head?, isWord c = false) :
    ∀ n ∈ identifierLength? (a ++ t), n ≤ a.length := by
  intro n hn
  obtain ⟨c, a, rfl⟩ := List.exists_cons_of_ne_nil hNe
  cases c with
  | byte b => cases hn
  | char c =>
      rw [Option.mem_def, List.cons_append, identifierLength?] at hn
      split at hn
      · cases hn
        have hStop : t.takeWhile (·.satisfies Unicode.isWord) = [] := by
          cases t with
          | nil => rfl
          | cons d t => exact List.takeWhile_cons_of_neg (by simpa [isWord] using hEnd d rfl)
        rw [List.takeWhile_append, hStop, List.append_nil, List.length_cons]
        split
        · exact Nat.le_refl _
        · exact Nat.succ_le_succ (List.takeWhile_prefix _).length_le
      · cases hn

theorem punctuatorLength?_le (hNe : a ≠ []) (hInner : ∀ c ∈ t.head?, isInner c = false) :
    ∀ n ∈ punctuatorLength? (a ++ t), n ≤ a.length := by
  intro n hn
  rw [punctuatorLength?_of_isInner hNe hInner] at hn
  obtain ⟨p, hFound, rfl⟩ := Option.map_eq_some_iff.mp hn
  have hPrefix : Text.ofString p <+: a := by
    simpa using List.find?_some hFound
  simpa only [Text.ofString, List.length_map, String.length_toList] using hPrefix.length_le

/-- A literal ends with its quote. -/
theorem getElem?_of_bodyLength? {escaped : Bool} (h : bodyLength? quote escaped t = some n) :
    ∃ m, n = m + 1 ∧ t[m]? = some (.char quote) := by
  have hLater : ∀ {c : SourceChar} {escaped : Bool} {t : Text} {n : Nat},
      (∀ {n}, bodyLength? quote escaped t = some n → ∃ m, n = m + 1 ∧ t[m]? = some (.char quote)) →
      (bodyLength? quote escaped t).map (· + 1) = some n →
      ∃ m, n = m + 1 ∧ (c :: t)[m]? = some (.char quote) := by
    intro c escaped t n ih h
    obtain ⟨k, hk, rfl⟩ := Option.map_eq_some_iff.mp h
    obtain ⟨m, rfl, hQuote⟩ := ih hk
    exact ⟨m + 1, rfl, hQuote⟩
  fun_induction bodyLength? quote escaped t generalizing n with
  | case1 => cases h
  | case2 c t ih => exact hLater ih h
  | case3 t ih => exact hLater ih h
  | case4 t hBackslash =>
      cases h
      exact ⟨0, rfl, rfl⟩
  | case5 => cases h
  | case6 c t hBackslash hQuote hLineEnd ih => exact hLater ih h

theorem getElem?_of_literal? (h : literal? t = some (kind, n)) :
    ∃ m, n = m + 1 ∧ ∀ c ∈ t[m]?, c = .char '"' ∨ c = .char '\'' := by
  unfold literal? at h
  split at h
  · split at h
    · rename_i c t hQuote
      rw [quotedLength?_eq_bodyLength?] at h
      obtain ⟨k, hBody, hEq⟩ := Option.map_eq_some_iff.mp h
      cases hEq
      obtain ⟨m, rfl, hLast⟩ := getElem?_of_bodyLength? hBody
      refine ⟨m + 1, rfl, fun d hd => ?_⟩
      rw [List.getElem?_cons_succ, hLast] at hd
      cases hd
      simpa using hQuote
    · cases h
  · cases h

theorem prefix_of_find? {needle : Text} (h : Text.find? needle t = some n) :
    needle <+: t.drop n := by
  induction t generalizing n with
  | nil =>
      rw [Text.find?] at h
      split at h
      · rename_i hEmpty
        rw [List.isEmpty_iff.mp hEmpty]
        exact List.nil_prefix
      · cases h
  | cons c t ih =>
      rw [Text.find?] at h
      split at h
      · rename_i hPrefix
        cases h
        exact List.isPrefixOf_iff_prefix.mp hPrefix
      · obtain ⟨m, hm, rfl⟩ := Option.map_eq_some_iff.mp h
        exact ih hm

theorem getElem?_of_rawLength? (h : rawLength? t = some n) :
    ∃ m, n = m + 1 ∧ t[m]? = some (.char '"') := by
  unfold rawLength? at h
  dsimp only at h
  split at h
  · generalize t.takeWhile (· != .char '(') = delimiter at h
    obtain ⟨k, hFound, rfl⟩ := Option.map_eq_some_iff.mp h
    obtain ⟨r, hr⟩ := prefix_of_find? hFound
    have hLast :
        ((t.drop (delimiter.length + 1)).drop k)[delimiter.length + 1]? = some (.char '"') := by
      rw [← hr]
      simp
    rw [List.getElem?_drop, List.getElem?_drop] at hLast
    refine ⟨delimiter.length + 1 + (k + (delimiter.length + 1)), ?_, hLast⟩
    simp only [List.length_append, List.length_cons, List.length_nil]
    omega
  · cases h

end Piece

end Demacro
