import Demacro.Proofs.Expr.Locality

/-!
Names. One is read as itself for every kind of expression, as long as what comes behind it does not
go on with the expression, and it does not change how the tokens before it are understood.
-/

namespace Demacro.Expr

/-- A name that is no word of the language. -/
def IsName (t : Token) : Prop :=
  t.isIdentifier = true ∧ t.spelling ∉ Keyword.reserved

instance (t : Token) : Decidable (IsName t) :=
  inferInstanceAs (Decidable (_ ∧ _))

namespace IsName

variable {t : Token} (h : IsName t)

include h

theorem kind : t.kind = .identifier := by
  simpa [Token.isIdentifier] using h.1

theorem isPunct (op : String) : t.isPunct op = false := by
  simp [Token.isPunct, h.kind]

theorem operator? : Source.operator? t = none := by
  simp only [Source.operator?, h.kind]
  refine List.lookup_eq_none_iff.mpr fun pair hPair => ?_
  have hReserved : ∀ pair ∈ Keyword.operatorWords, pair.1 ∈ Keyword.reserved := by decide
  refine bne_iff_ne.mpr fun hSame => h.2 ?_
  rw [hSame]
  exact hReserved pair hPair

theorem isNamed {word : String} (hWord : word ∈ ["throw", "sizeof", "alignof", "new", "delete"]) :
    t.isNamed word = false := by
  have hReserved : ∀ word ∈ ["throw", "sizeof", "alignof", "new", "delete"],
      (Text.ofString word).display ∈ Keyword.reserved := by decide
  refine Bool.eq_false_iff.mpr fun hNamed => h.2 ?_
  obtain ⟨-, hLexeme⟩ : t.kind = .identifier ∧ t.lexeme = Text.ofString word := by
    simpa [Token.isNamed] using hNamed
  rw [Token.spelling, hLexeme]
  exact hReserved word hWord

theorem head : Head.of t = .other := by
  simp [Head.of, h.operator?, h.isNamed]

theorem not_namedCast : Keyword.namedCasts.contains t.spelling = false := by
  have hReserved : ∀ word ∈ Keyword.namedCasts, word ∈ Keyword.reserved := by decide
  refine Bool.eq_false_iff.mpr fun hCast => h.2 (hReserved _ ?_)
  simpa using hCast

theorem not_typeWord : (t.isIdentifier && (Keyword.arithmeticTypes.contains t.spelling
    || Keyword.typeQualifiers.contains t.spelling) || t.isPunctIn ["*", "&"]) = false := by
  have hType : ∀ word ∈ Keyword.arithmeticTypes ++ Keyword.typeQualifiers,
      word ∈ Keyword.reserved := by decide
  have hOther : t.spelling ∉ Keyword.arithmeticTypes ++ Keyword.typeQualifiers :=
    fun hWord => h.2 (hType _ hWord)
  simp only [List.mem_append, not_or] at hOther
  simp [Token.isPunctIn, h.isPunct, hOther]

end IsName

/-- The words of a type are looked for up to a token that is none. -/
private theorem typeWords?_of_append {t : Token} (h : IsName t) {xs ys zs : List Token}
    (hys : ys ≠ []) {words found : List String} {i j : Nat} {rest : Source}
    (hFound : Source.typeWords? words j (xs ++ t :: zs) = some (found, rest)) :
    ∃ rest', Source.typeWords? words i (xs ++ ys) = some (found, rest') ∧ rest'.tokens ≠ [] := by
  induction xs generalizing words i j with
  | nil =>
      rw [List.nil_append, Source.typeWords?, if_neg (Bool.eq_false_iff.mp (h.isPunct ")")),
        if_neg (Bool.eq_false_iff.mp h.not_typeWord)] at hFound
      cases hFound
  | cons x xs ih =>
      rw [List.cons_append, Source.typeWords?] at hFound ⊢
      split at hFound
      · rename_i hClose
        cases hFound
        exact ⟨_, if_pos hClose, List.append_ne_nil_of_right_ne_nil xs hys⟩
      rename_i hClose
      split at hFound
      · rename_i hWord
        rw [if_neg hClose, if_pos hWord]
        exact ih hFound
      · cases hFound

/-- A parenthesis before a name opens no cast if it opens none before other tokens. -/
theorem castType?_eq_none {t x : Token} (h : IsName t) {xs ys zs : List Token} (hys : ys ≠ [])
    {i j : Nat} (hNone : (Source.mk i (x :: (xs ++ ys))).castType? = none) :
    (Source.mk j (x :: (xs ++ t :: zs))).castType? = none := by
  by_contra hSome
  obtain ⟨⟨type, rest⟩, hType⟩ := Option.ne_none_iff_exists'.mp hSome
  unfold Source.castType? at hType hNone
  simp only [List.drop_one, List.tail_cons] at hType hNone
  split at hType
  · rename_i words m hWords
    obtain ⟨m', hWords', hRest⟩ := typeWords?_of_append h hys hWords (i := i + 1)
    split at hType
    · rename_i hAny
      have hNonempty : m'.tokens.isEmpty = false := by simpa using hRest
      simp only [hWords', hNonempty, (Bool.and_eq_true_iff.mp hAny).1, Bool.not_false,
        Bool.and_self, if_true, reduceCtorEq] at hNone
    · cases hType
  · cases hType

/-- What does not belong to what was read for a goal may come next. -/
def Goal.Closed (s : Source) : Goal → Prop
  | .primary => s.isAt "::" = false
  | _ => s.IsClosed

/-- The goals for which one expression is read, and nothing was read for them before. -/
def Goal.IsSingle : Goal → Prop
  | .items | .arguments | .operands .. | .suffixes .. => False
  | _ => True

/-- One expression is read for such a goal. -/
theorem Parses.exists_single {g : Goal} {s rest : Source} {es : List Expr}
    (h : Parses g s es rest) (hSingle : g.IsSingle) : ∃ e, es = [e] := by
  cases h with
  | noItem | item | noArguments | arguments => cases hSingle
  | _ => exact ⟨_, rfl⟩

namespace IsName

variable {t : Token} (h : IsName t) {i : Nat} {ts : List Token}

include h

theorem isPlain : (Source.mk i (t :: ts)).IsPlain := by
  refine ⟨t, rfl, h.head, fun hParen => ?_⟩
  rw [h.isPunct] at hParen
  cases hParen

/-- What stands before an operand stands before a name in the same way. -/
theorem passes_prefixed {g : Goal} {s m : Source} {build : TokenRange → Expr → Expr}
    (hPrefix : Prefix g s build m) :
    Source.Passes (fun tail => tail.head? = some t) (fun s m => Prefix g s build m) s m := by
  have hNoOp : ∀ {j tail}, tail.head? = some t → (Source.mk j tail).op? = none := by
    intro j tail hTail
    rw [Source.op?, Source.peek?, hTail, Option.bind_some, h.operator?]
  have hNotEnd : ∀ {j tail}, tail.head? = some t → (Source.mk j tail).isAtEnd = false := by
    intro j tail hTail
    simp only [Source.isAtEnd, Source.peek?, hTail, h.operator?, Option.any_none]
  have hNotAt : ∀ {j tail} (op : String), tail.head? = some t →
      (Source.mk j tail).isAt op = false :=
    fun op hTail => by rw [Source.isAt, hNoOp hTail]; rfl
  cases hPrefix with
  | @throw i x ts hHead hEnd =>
      exact ⟨[x], rfl, rfl, fun j tail hTail => .throw hHead (hNotEnd hTail)⟩
  | @operator i x ts op hHead => exact ⟨[x], rfl, rfl, fun j tail _ => .operator hHead⟩
  | @measure i x ts hHead hOpen =>
      exact ⟨[x], rfl, rfl, fun j tail hTail => .measure hHead (hNotAt "(" hTail)⟩
  | @free i x ts hHead hOpen =>
      exact ⟨[x], rfl, rfl, fun j tail hTail => .free hHead (hNotAt "[" hTail)⟩
  | @freeAll i x opening closing ts hHead hOpen hClose =>
      exact ⟨[x, opening, closing], rfl, rfl, fun j tail _ => .freeAll hHead hOpen hClose⟩
  | @cast i x ts type rest hHead hType =>
      obtain ⟨used, hTokens, hIndex, hUsed, -, hMove⟩ := Source.castType?_append hType
      refine ⟨used, hTokens, hIndex, fun j tail hTail => ?_⟩
      obtain ⟨y, ys, rfl⟩ := List.exists_cons_of_ne_nil hUsed
      obtain ⟨rfl, -⟩ := List.cons_eq_cons.mp hTokens
      refine .cast hHead (hMove j tail ?_)
      rintro rfl
      cases hTail

theorem primary (hNext : (Source.mk (i + 1) ts).isAt "::" = false) :
    Parses .primary ⟨i, t :: ts⟩ [.name ⟨i, i + 1⟩ t.spelling] ⟨i + 1, ts⟩ := by
  refine .atom (.name h.1 h.not_namedCast (Source.nameParts_of_head? fun t ht => ?_))
  rw [Source.isAt, Source.op?, Source.peek?, ht, Option.bind_some] at hNext
  simpa using hNext

theorem unary (hClosed : (Source.mk (i + 1) ts).IsClosed) :
    Parses .unary ⟨i, t :: ts⟩ [.name ⟨i, i + 1⟩ t.spelling] ⟨i + 1, ts⟩ :=
  .simple h.isPlain (h.primary (hClosed.isAt (by decide)))
    (.lastSuffix fun op hOp hSuffix => hClosed op hOp (List.mem_cons_of_mem _ hSuffix))

theorem conditional (hClosed : (Source.mk (i + 1) ts).IsClosed)
    (hEnds : (Source.mk (i + 1) ts).ConditionalEnds) :
    Parses .conditional ⟨i, t :: ts⟩ [.name ⟨i, i + 1⟩ t.spelling] ⟨i + 1, ts⟩ :=
  .unconditional (.binary (h.unary hClosed) (.lastOperand hEnds.1)) hEnds.2

theorem assignment (hClosed : (Source.mk (i + 1) ts).IsClosed)
    (hEnds : (Source.mk (i + 1) ts).AssignmentEnds) :
    Parses .assignment ⟨i, t :: ts⟩ [.name ⟨i, i + 1⟩ t.spelling] ⟨i + 1, ts⟩ :=
  .unassigned (h.isNamed (by decide)) (h.conditional hClosed hEnds.1) hEnds.2

/-- A name is read for every goal for which an expression is, if nothing goes on with it. -/
theorem parses {g : Goal} {s : Source} (hSingle : g.IsSingle) (hEnds : g.Ends s ⟨i + 1, ts⟩)
    (hClosed : g.Closed ⟨i + 1, ts⟩) :
    Parses g ⟨i, t :: ts⟩ [.name ⟨i, i + 1⟩ t.spelling] ⟨i + 1, ts⟩ := by
  cases g with
  | expression => exact .expression (h.assignment hClosed hEnds.1) (.noItem hEnds.2)
  | assignment => exact h.assignment hClosed hEnds
  | conditional => exact h.conditional hClosed hEnds
  | binary least => exact .binary (h.unary hClosed) (.lastOperand hEnds)
  | unary => exact h.unary hClosed
  | primary => exact h.primary hClosed
  | items | arguments | operands | suffixes => cases hSingle

end IsName

end Demacro.Expr
