import Demacro.Proofs.Expr.Grammar
import Demacro.Proofs.Success

/-!
How far the parser looks. What it skips or takes without reading an expression depends only on those
tokens and on the next one, so it is found again wherever these stand.
-/

namespace Demacro.Expr.Source

variable {s m rest : Source} {i depth : Nat} {used tail tail' ts : List Token}
  {opener closer : String}

theorem head?_append (h : tail.head? = tail'.head?) :
    (used ++ tail).head? = (used ++ tail').head? := by
  cases used with
  | nil => exact h
  | cons => rfl

theorem op?_congr (h : s.tokens.head? = m.tokens.head?) : s.op? = m.op? := by
  simp only [op?, peek?, h]

theorem isAt_congr (h : s.tokens.head? = m.tokens.head?) (op : String) : s.isAt op = m.isAt op := by
  simp only [isAt, op?_congr h]

theorem isAtName_congr (h : s.tokens.head? = m.tokens.head?) (word : String) :
    s.isAtName word = m.isAtName word := by
  simp only [isAtName, peek?, h]

theorem isAtEnd_congr (h : s.tokens.head? = m.tokens.head?) : s.isAtEnd = m.isAtEnd := by
  simp only [isAtEnd, peek?, h]

/-- A step can be taken wherever the tokens between two places come, if what is behind them
suits. -/
def Passes (P : List Token → Prop) (R : Source → Source → Prop) (s rest : Source) : Prop :=
  ∃ used, s.tokens = used ++ rest.tokens ∧ rest.index = s.index + used.length
    ∧ ∀ i tail, P tail → R ⟨i, used ++ tail⟩ ⟨i + used.length, tail⟩

/-- A step can be taken wherever the tokens between two places come, with the same one behind
them. -/
def Moves (R : Source → Source → Prop) (s rest : Source) : Prop :=
  Passes (fun tail => tail.head? = rest.tokens.head?) R s rest

/-- Steps that can be taken wherever the same tokens come, with the same one behind them. -/
def IsLocal (R : Source → Source → Prop) : Prop :=
  ∀ {s rest}, R s rest → Moves R s rest

namespace Moves

variable {R Q : Source → Source → Prop} {t : Token}

theorem stay (h : ∀ j tail, tail.head? = s.tokens.head? → R ⟨j, tail⟩ ⟨j, tail⟩) : Moves R s s :=
  ⟨[], rfl, rfl, fun j tail hTail => h j tail hTail⟩

theorem one (h : ∀ j tail, tail.head? = ts.head? → R ⟨j, t :: tail⟩ ⟨j + 1, tail⟩) :
    Moves R ⟨i, t :: ts⟩ ⟨i + 1, ts⟩ :=
  ⟨[t], rfl, rfl, fun j tail hTail => h j tail hTail⟩

/-- One token, and then another step. -/
theorem cons (h : Moves Q ⟨i + 1, ts⟩ rest)
    (hStep : ∀ j xs y, xs.head? = ts.head? → Q ⟨j + 1, xs⟩ y → R ⟨j, t :: xs⟩ y) :
    Moves R ⟨i, t :: ts⟩ rest := by
  obtain ⟨used, hTokens, hIndex, hMove⟩ := h
  dsimp only at hTokens hIndex
  refine ⟨t :: used, by rw [hTokens, List.cons_append], ?_, fun j tail hTail => ?_⟩
  · rw [hIndex, List.length_cons]
    dsimp only
    omega
  · have hHead : (used ++ tail).head? = ts.head? := by
      rw [hTokens]
      exact head?_append hTail
    have hRest := hStep j (used ++ tail) _ hHead (hMove (j + 1) tail hTail)
    rwa [Nat.add_right_comm] at hRest

theorem trans (h : Moves R s m) (h' : Moves Q m rest) {P : Source → Source → Prop}
    (hBoth : ∀ {a b c}, R a b → Q b c → P a c) : Moves P s rest := by
  obtain ⟨used, hTokens, hIndex, hMove⟩ := h
  obtain ⟨used', hTokenm, hIndex', hMove'⟩ := h'
  refine ⟨used ++ used', by rw [hTokens, hTokenm, List.append_assoc], ?_, fun j tail hTail => ?_⟩
  · rw [hIndex', hIndex, List.length_append, Nat.add_assoc]
  · have hFirst := hMove j (used' ++ tail) (by rw [hTokenm]; exact head?_append hTail)
    have hSecond := hMove' (j + used.length) tail hTail
    rw [List.append_assoc, List.length_append, ← Nat.add_assoc]
    exact hBoth hFirst hSecond

theorem mono (h : Moves R s rest) (hStep : ∀ {a b}, a.tokens.head? = s.tokens.head? → R a b →
    Q a b) : Moves Q s rest := by
  obtain ⟨used, hTokens, hIndex, hMove⟩ := h
  refine ⟨used, hTokens, hIndex, fun j tail hTail => hStep ?_ (hMove j tail hTail)⟩
  rw [hTokens]
  exact head?_append hTail

theorem index_le (h : Moves R s rest) : s.index ≤ rest.index := by
  obtain ⟨used, -, hIndex, -⟩ := h
  omega

end Moves

/-- One token, and then a step that does not depend on what is behind it. -/
theorem Passes.cons {P : List Token → Prop} {R Q : Source → Source → Prop} {t : Token}
    (h : Passes P Q ⟨i + 1, ts⟩ rest) (hStep : ∀ j xs y, Q ⟨j + 1, xs⟩ y → R ⟨j, t :: xs⟩ y) :
    Passes P R ⟨i, t :: ts⟩ rest := by
  obtain ⟨used, hTokens, hIndex, hMove⟩ := h
  dsimp only at hTokens hIndex
  refine ⟨t :: used, by rw [hTokens, List.cons_append], ?_, fun j tail hTail => ?_⟩
  · rw [hIndex, List.length_cons]
    dsimp only
    omega
  · have hRest := hStep j (used ++ tail) _ (hMove (j + 1) tail hTail)
    rwa [Nat.add_right_comm] at hRest

theorem Passes.moves {R : Source → Source → Prop} (h : Passes (fun _ => True) R s rest) :
    Moves R s rest := by
  obtain ⟨used, hTokens, hIndex, hMove⟩ := h
  exact ⟨used, hTokens, hIndex, fun j tail _ => hMove j tail trivial⟩

theorem passes_expect {wanted : String} (h : s.expect wanted = .ok rest) :
    Passes (fun _ => True) (fun s rest => s.expect wanted = .ok rest) s rest := by
  obtain ⟨i, ts⟩ := s
  cases ts with
  | nil => cases h
  | cons t ts =>
      simp only [expect] at h
      split at h
      · rename_i hPunct
        cases h
        exact ⟨[t], rfl, rfl, fun j tail _ => if_pos hPunct⟩
      · cases h

theorem isLocal_expect (wanted : String) : IsLocal fun s rest => s.expect wanted = .ok rest :=
  fun h => (passes_expect h).moves

/-- What is behind a group does not matter for where it ends. -/
theorem passes_skipBalanced (opener closer : String) (depth : Nat)
    (h : skipBalanced opener closer depth i ts = .ok rest) :
    Passes (fun _ => True) (fun s rest => skipBalanced opener closer depth s.index s.tokens
      = .ok rest) ⟨i, ts⟩ rest := by
  induction ts generalizing i depth with
  | nil => cases h
  | cons t ts ih =>
      simp only [skipBalanced] at h
      split at h
      · rename_i hOpen
        refine .cons (ih _ h) fun j xs y hRest => ?_
        simp only [skipBalanced, if_pos hOpen, hRest]
      · rename_i hOpen
        split at h
        · rename_i hClose
          split at h
          · rename_i hLast
            cases h
            refine ⟨[t], rfl, rfl, fun j tail _ => ?_⟩
            simp [skipBalanced, hOpen, hClose, hLast]
          · rename_i hLast
            refine .cons (ih _ h) fun j xs y hRest => ?_
            simp only [skipBalanced, if_neg hOpen, if_pos hClose, if_neg hLast, hRest]
        · rename_i hClose
          refine .cons (ih _ h) fun j xs y hRest => ?_
          simp only [skipBalanced, if_neg hOpen, if_neg hClose, hRest]

theorem passes_skipGroup (opener closer : String) (h : s.skipGroup opener closer = .ok rest) :
    Passes (fun _ => True) (fun s rest => s.skipGroup opener closer = .ok rest) s rest :=
  passes_skipBalanced opener closer 0 h

theorem isLocal_skipGroup (opener closer : String) :
    IsLocal fun s rest => s.skipGroup opener closer = .ok rest :=
  fun h => (passes_skipGroup opener closer h).moves

theorem isLocal_angleWords (words found : List Text) (depth : Nat) :
    IsLocal fun s rest => angleWords words depth s.index s.tokens = .ok (found, rest) := by
  rintro ⟨i, ts⟩ rest h
  induction ts generalizing i words depth with
  | nil => cases h
  | cons t ts ih =>
      simp only [angleWords] at h
      split at h
      · rename_i hOpen
        refine .cons (ih _ _ _ h) fun j xs y _ hRest => ?_
        simp only [angleWords, if_pos hOpen, hRest]
      · rename_i hOpen
        split at h
        · rename_i hClose
          split at h
          · rename_i hLast
            cases h
            refine .one fun j tail _ => ?_
            simp only [angleWords, if_neg hOpen, if_pos hClose, if_pos hLast]
          · rename_i hLast
            refine .cons (ih _ _ _ h) fun j xs y _ hRest => ?_
            simp only [angleWords, if_neg hOpen, if_pos hClose, if_neg hLast, hRest]
        · rename_i hClose
          refine .cons (ih _ _ _ h) fun j xs y _ hRest => ?_
          simp only [angleWords, if_neg hOpen, if_neg hClose, hRest]

theorem strings_of_head? (h : ∀ t ∈ ts.head?, t.kind ≠ .string) : strings i ts = ([], ⟨i, ts⟩) := by
  cases ts with
  | nil => rfl
  | cons t ts => exact if_neg (h t rfl)

theorem isLocal_strings (found : List Token) :
    IsLocal fun s rest => strings s.index s.tokens = (found, rest) := by
  rintro ⟨i, ts⟩ rest h
  induction ts generalizing i found with
  | nil =>
      cases h
      refine .stay fun j tail hTail => strings_of_head? fun t ht => ?_
      rw [hTail] at ht
      cases ht
  | cons t ts ih =>
      by_cases hKind : t.kind = .string
      · simp only [strings, if_pos hKind, Prod.mk.injEq] at h
        obtain ⟨rfl, h⟩ := h
        refine .cons (ih _ (i + 1) (Prod.ext rfl h)) fun j xs y _ hRest => ?_
        simp only [strings, if_pos hKind, hRest]
      · rw [strings_of_head? (by simpa using hKind)] at h
        cases h
        refine .stay fun j tail hTail => strings_of_head? fun t ht => ?_
        rw [hTail] at ht
        cases ht
        exact hKind

/-- Strings up to the end of some tokens end there if no further one follows. -/
theorem strings_append {found : List Token} {j n : Nat} (h : strings i ts = (found, ⟨n, []⟩))
    (hTail : ∀ t ∈ tail.head?, t.kind ≠ .string) :
    n = i + ts.length ∧ strings j (ts ++ tail) = (found, ⟨j + ts.length, tail⟩) := by
  induction ts generalizing i j found with
  | nil =>
      cases h
      exact ⟨rfl, strings_of_head? hTail⟩
  | cons t ts ih =>
      by_cases hKind : t.kind = .string
      · simp only [strings, if_pos hKind, Prod.mk.injEq] at h
        obtain ⟨rfl, h⟩ := h
        obtain ⟨rfl, hRest⟩ := ih (j := j + 1) (Prod.ext rfl h)
        simp only [List.cons_append, strings, if_pos hKind, hRest, List.length_cons]
        exact ⟨by omega, by rw [Nat.add_right_comm, Nat.add_assoc]⟩
      · simp [strings, hKind] at h

theorem nameParts_of_head? {text : String} (h : ∀ t ∈ ts.head?, operator? t ≠ some "::") :
    nameParts text i ts = .ok (text, ⟨i, ts⟩) := by
  match ts with
  | [] => rfl
  | [t] =>
      have hOp : (operator? t == some "::") = false := by simpa using h t rfl
      simp [nameParts, hOp]
  | t :: part :: ts =>
      have hOp : (operator? t == some "::") = false := by simpa using h t rfl
      simp [nameParts, hOp]

theorem isLocal_nameParts (text found : String) :
    IsLocal fun s rest => nameParts text s.index s.tokens = .ok (found, rest) := by
  rintro ⟨i, ts⟩ rest h
  dsimp only at h
  have hStay : ∀ {text i ts}, (∀ t ∈ ts.head?, operator? t ≠ some "::") →
      nameParts text i ts = .ok (found, rest) →
      Moves (fun s rest => nameParts text s.index s.tokens = .ok (found, rest)) ⟨i, ts⟩ rest := by
    intro text i ts hHead h
    rw [nameParts_of_head? hHead] at h
    cases h
    exact .stay fun j tail hTail => nameParts_of_head? (by rwa [hTail])
  induction text, i, ts using nameParts.induct with
  | case1 => exact hStay (by simp) h
  | case2 text i t hOp => simp [nameParts, hOp] at h
  | case3 text i t hOp => exact hStay (by simpa using hOp) h
  | case4 text i t part ts hOp hPart ih =>
      simp only [nameParts, hOp, hPart, if_true] at h
      -- Two tokens are taken at once.
      refine .cons (Q := fun s rest => s.tokens.head? = some part
        ∧ nameParts (text ++ "::" ++ part.spelling) (s.index + 1) s.tokens.tail = .ok (found, rest))
        (.cons (ih h) fun j xs y _ hRest => ⟨rfl, hRest⟩) fun j xs y _ hRest => ?_
      obtain ⟨hHead, hRest⟩ := hRest
      obtain ⟨ys, rfl⟩ := List.head?_eq_some_iff.mp hHead
      simp only [nameParts, hOp, hPart, if_true]
      exact hRest
  | case5 text i t part ts hOp hPart => simp [nameParts, hOp, hPart] at h
  | case6 text i t part ts hOp => exact hStay (by simpa using hOp) h

/-- A qualified name up to the end of some tokens ends there if no further part follows. -/
theorem nameParts_append {text found : String} {j n : Nat}
    (h : nameParts text i ts = .ok (found, ⟨n, []⟩))
    (hTail : ∀ t ∈ tail.head?, operator? t ≠ some "::") :
    n = i + ts.length ∧ nameParts text j (ts ++ tail) = .ok (found, ⟨j + ts.length, tail⟩) := by
  induction text, i, ts using nameParts.induct generalizing j with
  | case1 =>
      cases h
      exact ⟨rfl, nameParts_of_head? hTail⟩
  | case2 text i t hOp => simp [nameParts, hOp] at h
  | case3 text i t hOp => simp [nameParts, hOp] at h
  | case4 text i t part ts hOp hPart ih =>
      simp only [nameParts, hOp, hPart, if_true] at h
      obtain ⟨rfl, hRest⟩ := ih (j := j + 2) h
      simp only [List.cons_append, nameParts, hOp, hPart, if_true, hRest, List.length_cons]
      exact ⟨by omega, by rw [Nat.add_assoc, Nat.add_comm 2]⟩
  | case5 text i t part ts hOp hPart => simp [nameParts, hOp, hPart] at h
  | case6 text i t part ts hOp => simp [nameParts, hOp] at h

theorem skipTypeWords_of_head? (h : ∀ t ∈ ts.head?,
    (t.isIdentifier || operator? t == some "::" || operator? t == some "*") = false) :
    skipTypeWords i ts = ⟨i, ts⟩ := by
  cases ts with
  | nil => rfl
  | cons t ts => exact if_neg (Bool.eq_false_iff.mp (h t rfl))

theorem isLocal_skipTypeWords : IsLocal fun s rest => skipTypeWords s.index s.tokens = rest := by
  rintro ⟨i, ts⟩ rest rfl
  induction ts generalizing i with
  | nil =>
      refine .stay fun j tail hTail => skipTypeWords_of_head? fun t ht => ?_
      rw [hTail] at ht
      cases ht
  | cons t ts ih =>
      by_cases hWord : (t.isIdentifier || operator? t == some "::" || operator? t == some "*")
        = true
      · simp only [skipTypeWords, if_pos hWord]
        refine .cons (ih (i + 1)) fun j xs y _ hRest => ?_
        simp only [skipTypeWords, if_pos hWord, hRest]
      · rw [skipTypeWords_of_head? (by simpa using hWord)]
        refine .stay fun j tail hTail => skipTypeWords_of_head? fun t ht => ?_
        rw [hTail] at ht
        cases ht
        exact Bool.eq_false_iff.mpr hWord

/-- What is behind a group, if one comes next. -/
def pastGroup (opener closer : String) (s : Source) : Except SyntaxFault Source :=
  if s.isAt opener then s.skipGroup opener closer else .ok s

theorem isLocal_pastGroup (opener closer : String) :
    IsLocal fun s rest => pastGroup opener closer s = .ok rest := by
  intro s rest h
  unfold pastGroup at h
  split at h
  · rename_i hOpen
    refine (isLocal_skipGroup opener closer h).mono fun hHead hGroup => ?_
    rw [pastGroup, isAt_congr hHead, if_pos hOpen, hGroup]
  · rename_i hOpen
    cases h
    refine .stay fun j tail hTail => ?_
    rw [pastGroup, isAt_congr (m := s) hTail, if_neg hOpen]

/-- A `new` expression may have a place, has a type, and may have a size and arguments. -/
theorem skipAllocation_eq (s : Source) : s.skipAllocation =
    (pastGroup "(" ")" s >>= fun placed =>
      pastGroup "[" "]" (skipTypeWords placed.index placed.tokens) >>= fun sized =>
        if sized.isAt "(" then sized.skipGroup "(" ")" else pastGroup "\x7b" "\x7d" sized) := by
  have hBind : ∀ {c : Prop} [Decidable c] {x y : Except SyntaxFault Source}
      {k : Source → Except SyntaxFault Source},
      (if c then x else y) >>= k = if c then x >>= k else y >>= k := by
    intro c _ x y k
    split <;> rfl
  simp only [skipAllocation, pastGroup, hBind]
  rfl

theorem isLocal_skipAllocation : IsLocal fun s rest => s.skipAllocation = .ok rest := by
  intro s rest h
  rw [skipAllocation_eq] at h
  obtain ⟨placed, hPlaced, h⟩ := Except.bind_eq_ok_iff.mp h
  obtain ⟨sized, hSized, hRest⟩ := Except.bind_eq_ok_iff.mp h
  have hArguments : IsLocal fun s rest =>
      (if s.isAt "(" then s.skipGroup "(" ")" else pastGroup "\x7b" "\x7d" s) = .ok rest := by
    intro s rest h
    split at h
    · rename_i hOpen
      refine (isLocal_skipGroup "(" ")" h).mono fun hHead hGroup => ?_
      rw [isAt_congr hHead, if_pos hOpen, hGroup]
    · rename_i hOpen
      refine (isLocal_pastGroup _ _ h).mono fun hHead hGroup => ?_
      rw [isAt_congr hHead, if_neg hOpen, hGroup]
  refine (isLocal_pastGroup _ _ hPlaced).trans
    (((isLocal_skipTypeWords rfl).trans (isLocal_pastGroup _ _ hSized)
      (P := fun s rest => pastGroup "[" "]" (skipTypeWords s.index s.tokens) = .ok rest)
      fun hTyped hSized => hTyped ▸ hSized).trans (hArguments hRest) (P := fun s rest =>
        ∃ sized, pastGroup "[" "]" (skipTypeWords s.index s.tokens) = .ok sized
          ∧ (if sized.isAt "(" then sized.skipGroup "(" ")" else pastGroup "\x7b" "\x7d" sized)
          = .ok rest)
      fun hSized hRest => ⟨_, hSized, hRest⟩) fun hPlaced hRest => ?_
  obtain ⟨sized, hSized, hRest⟩ := hRest
  rw [skipAllocation_eq]
  exact Except.bind_eq_ok_iff.mpr ⟨_, hPlaced, Except.bind_eq_ok_iff.mpr ⟨sized, hSized, hRest⟩⟩

/-- The words of a cast end at a parenthesis, whatever is behind it. -/
theorem typeWords?_append {words found : List String}
    (h : typeWords? words i ts = some (found, rest)) :
    ∃ used, ts = used ++ rest.tokens ∧ rest.index = i + used.length
      ∧ ∀ j tail, typeWords? words j (used ++ tail) = some (found, ⟨j + used.length, tail⟩) := by
  induction ts generalizing i words with
  | nil => cases h
  | cons t ts ih =>
      simp only [typeWords?] at h
      split at h
      · rename_i hClose
        cases h
        exact ⟨[t], rfl, rfl, fun j tail => if_pos hClose⟩
      rename_i hClose
      split at h
      · rename_i hWord
        obtain ⟨used, hTokens, hIndex, hMove⟩ := ih h
        refine ⟨t :: used, by rw [hTokens, List.cons_append], ?_, fun j tail => ?_⟩
        · rw [hIndex, List.length_cons]
          omega
        · rw [List.cons_append, typeWords?, if_neg hClose, if_pos hWord, hMove, List.length_cons,
            Nat.add_assoc, Nat.add_comm 1]
      · cases h

/-- A cast stays one as long as something is behind it. -/
theorem castType?_append {type : Text} (h : s.castType? = some (type, rest)) :
    ∃ used, s.tokens = used ++ rest.tokens ∧ rest.index = s.index + used.length ∧ used ≠ []
      ∧ rest.tokens ≠ [] ∧ ∀ j tail, tail ≠ [] →
      castType? ⟨j, used ++ tail⟩ = some (type, ⟨j + used.length, tail⟩) := by
  obtain ⟨i, ts⟩ := s
  unfold castType? at h
  split at h
  · rename_i words m hWords
    split at h
    · rename_i hType
      cases h
      cases ts with
      | nil => cases hWords
      | cons t ts =>
          obtain ⟨used, hTokens, hIndex, hMove⟩ := typeWords?_append hWords
          obtain ⟨hWord, hRest⟩ := Bool.and_eq_true_iff.mp hType
          rw [List.drop_one, List.tail_cons] at hTokens
          refine ⟨t :: used, by rw [hTokens, List.cons_append], ?_, List.cons_ne_nil t used,
            by simpa using hRest, fun j tail hTail => ?_⟩
          · rw [hIndex, List.length_cons]
            dsimp only
            omega
          · have hNonempty : tail.isEmpty = false := by simpa using hTail
            simp only [castType?, List.cons_append, List.drop_one, List.tail_cons, hMove, hWord,
              hNonempty, Bool.not_false, Bool.and_self, if_true, List.length_cons,
              Option.some.injEq, Prod.mk.injEq, true_and]
            rw [Nat.add_assoc, Nat.add_comm 1]
    · cases h
  · cases h

theorem isLocal_castType? (type : Text) :
    IsLocal fun s rest => s.castType? = some (type, rest) := by
  intro s rest h
  obtain ⟨used, hTokens, hIndex, -, hRest, hMove⟩ := castType?_append h
  refine ⟨used, hTokens, hIndex, fun j tail hTail => hMove j tail ?_⟩
  rintro rfl
  exact hRest (List.head?_eq_none_iff.mp hTail.symm)

end Demacro.Expr.Source
