import Demacro.Proofs.Lexing.Blanks

/-!
The lexer loses nothing. The spans of the tokens of a text are stretches of it, one behind the
other, and each token has the text of its span. All that is left out are blanks, and the flags of a
token tell which blanks are in front of it.
-/

namespace Demacro

namespace Piece

variable {f x r : Text} {piece : Piece} {kind : TokenKind}

/-- What is in front does not splice the line end that comes next. -/
structure Unspliced (front back : Text) : Prop where
  short : back.head? = some (.char '\n') → ¬ front.Splices
  long : ∀ r, back = .char '\r' :: .char '\n' :: r → front.getLast? ≠ some (.char '\\')

theorem Unspliced.of_concat {c : SourceChar}
    (hReturn : c = .char '\r' → r.head? = some (.char '\n') →
      f.getLast? ≠ some (.char '\\'))
    (hBackslash : c = .char '\\' → r.head? ≠ some (.char '\n')
      ∧ ∀ q, r ≠ .char '\r' :: .char '\n' :: q) :
    Unspliced (f ++ [c]) r := by
  constructor
  · rw [Text.splices_concat]
    rintro hHead (hc | ⟨hc, hLast⟩)
    · exact (hBackslash hc).1 hHead
    · exact hReturn hc hHead hLast
  · rintro q hText hLast
    exact (hBackslash (by simpa using hLast)).2 q hText

/-- A token ends with no carriage return, and with no backslash in front of a line end. -/
theorem last_of_token {y : Text} {c : SourceChar}
    (h : first (y ++ [c] ++ r) = .ok (.token kind, (y ++ [c]).length)) :
    c ≠ .char '\r' ∧ (c = .char '\\' → r.head? ≠ some (.char '\n')
      ∧ ∀ q, r ≠ .char '\r' :: .char '\n' :: q) := by
  obtain ⟨hStarts, hToken⟩ := first_eq_token_iff.mp h
  rw [List.append_assoc, List.singleton_append] at hStarts hToken
  rw [List.length_append, List.length_singleton] at hToken
  by_cases hNe : y = []
  · subst hNe
    rw [List.nil_append, startsToken_cons] at hStarts
    obtain ⟨-, hSpace, hSplice, -⟩ := hStarts
    constructor
    · rintro rfl
      cases hSpace
    · intro hc
      refine ⟨(hSplice hc).1, ?_⟩
      rintro q rfl
      exact (hSplice hc).2 rfl rfl
  · constructor
    · rintro rfl
      exact tokenAt_ne_of_isHard hNe (by decide +kernel) (by decide) hToken
    · rintro rfl
      exact absurd hToken (tokenAt_ne_of_isHard hNe (by decide +kernel) (by decide))

theorem splices_of_append {u body : Text} (h : (u ++ .char '/' :: body).Splices) :
    body.Splices := by
  rcases List.eq_nil_or_concat' body with rfl | ⟨b, c, rfl⟩
  · rw [Text.splices_concat] at h
    simp at h
  · rw [List.append_cons, ← List.append_assoc, Text.splices_concat] at h
    rw [Text.splices_concat]
    refine h.imp_right fun hReturn => ⟨hReturn.1, ?_⟩
    cases b with
    | nil => simp at hReturn
    | cons d b => simpa using hReturn.2

/-- No piece splices a line end behind it that is a piece of its own. -/
theorem Unspliced.past (h : Unspliced f (x ++ r))
    (hFirst : first (x ++ r) = .ok (piece, x.length)) : Unspliced (f ++ x) r := by
  obtain ⟨y, c, rfl⟩ := List.eq_nil_or_concat' x |>.resolve_left (ne_nil_of_first hFirst)
  have hPlain : c ≠ .char '\r' → c ≠ .char '\\' → Unspliced (f ++ (y ++ [c])) r :=
      fun hReturn hBackslash => by
    rw [← List.append_assoc]
    exact .of_concat (fun hc => absurd hc hReturn) fun hc => absurd hc hBackslash
  cases piece with
  | lineEnd =>
      obtain ⟨hLength, q, hText⟩ := eq_cons_of_lineEnd hFirst
      obtain ⟨d, hd⟩ := List.length_eq_one_iff.mp hLength
      have hSame : y ++ [c] = [] ++ [d] := hd
      obtain ⟨rfl, rfl⟩ := List.append_inj' hSame rfl |>.imp_right List.singleton_inj.mp
      obtain ⟨rfl, -⟩ := List.cons.inj hText
      exact hPlain (by decide) (by decide)
  | blank =>
      obtain ⟨b, hText, -, hStands⟩ := Blank.exists_of_first hFirst
      have hLast : b.text.getLast? = some c := by
        rw [hText, List.getLast?_concat]
      cases b with
      | space d =>
          have hSame : [] ++ [.char d] = y ++ [c] := hText
          obtain ⟨rfl, rfl⟩ := List.append_inj' hSame rfl |>.imp_right List.singleton_inj.mp
          have hSpace : isHorizontalSpace d = true := hStands []
          refine .of_concat (fun hc hHead => ?_) fun hc => ?_
          · obtain ⟨q, rfl⟩ := List.head?_eq_some_iff.mp hHead
            exact h.long q (by rw [hc]; rfl)
          · obtain rfl : d = '\\' := by simpa using hc
            cases hSpace
      | splice carriage =>
          obtain rfl : c = .char '\n' := by
            cases carriage <;> simpa [Blank.text] using hLast.symm
          exact hPlain (by decide) (by decide)
      | blockComment body =>
          have hClosed : (Blank.blockComment body).text
              = (.char '/' :: .char '*' :: (body ++ [.char '*'])) ++ [.char '/'] := by
            simp [Blank.text, Text.ofString]
          rw [hClosed, List.getLast?_concat] at hLast
          obtain rfl := Option.some.inj hLast
          exact hPlain (by decide) (by decide)
      | lineEnd =>
          obtain rfl : c = .char '\n' := by
            simpa [Blank.text] using hLast.symm
          exact hPlain (by decide) (by decide)
      | lineComment body =>
          rw [← hText]
          rcases (hStands []).2 with rfl | ⟨hHead, hNot⟩
          · exact ⟨by simp, by simp⟩
          · obtain ⟨q, rfl⟩ := List.head?_eq_some_iff.mp hHead
            refine ⟨fun _ hSplices => hNot (splices_of_append (u := f ++ [.char '/']) ?_),
              fun _ hLong => by cases hLong⟩
            simpa [Blank.text] using hSplices
  | token kind =>
      obtain ⟨hReturn, hBackslash⟩ := last_of_token hFirst
      rw [← List.append_assoc]
      exact .of_concat (fun hc => absurd hc hReturn) hBackslash

end Piece

namespace Token

open Piece

/-- Reading the rest of a text gives the tokens, with `front` in front of it. At the `opening` of
the text, the next token is the first one. -/
inductive Laid (path : String) : Text → Bool → Text → List Token → Prop
  | done {front : Text} {opening : Bool} {bs : List Blank} (hFills : Blank.Fills front bs []) :
      Laid path front opening (Blank.row bs) []
  | token {front : Text} {opening : Bool} {bs : List Blank} {x r : Text} {kind : TokenKind}
      {line column : Nat}
      {start spaced : Bool} {tokens : List Token} (hFills : Blank.Fills front bs (x ++ r))
      (hNe : x ≠ []) (hStart : start = true ↔ opening = true ∨ .lineEnd ∈ bs)
      (hSpaced : spaced = false ↔ bs = [] ∨ bs.getLast? = some .lineEnd)
      (h : Laid path (front ++ Blank.row bs ++ x) false r tokens) :
      Laid path front opening (Blank.row bs ++ (x ++ r))
        (⟨kind, lexemeOf kind x,
          ⟨path, (front ++ Blank.row bs).length, (front ++ Blank.row bs ++ x).length, line, column⟩,
          start, spaced⟩
          :: tokens)

variable {path : String} {p : Cursor} {front r t : Text} {start spaced opening : Bool}
  {tokens : List Token} {bs : List Blank}

theorem offset_past_of_eq (h : p.offset = front.length) (x : Text) :
    (p.past x).offset = (front ++ x).length := by
  rw [Cursor.offset_past, h, List.length_append]

/-- What was read of the blanks in front of the next token comes first. -/
theorem Lexed.laid (h : Lexed path p start spaced r tokens)
    (hOffset : p.offset = (front ++ Blank.row bs).length) (hFills : Blank.Fills front bs r)
    (hUnspliced : Unspliced (front ++ Blank.row bs) r)
    (hStart : start = true ↔ opening = true ∨ .lineEnd ∈ bs)
    (hSpaced : spaced = false ↔ bs = [] ∨ bs.getLast? = some .lineEnd) :
    Laid path front opening (Blank.row bs ++ r) tokens := by
  induction h generalizing front opening bs with
  | done =>
      rw [List.append_nil]
      exact .done hFills
  | @lineEnd p start spaced r tokens h ih =>
      have hStands : Blank.lineEnd.Stands (front ++ Blank.row bs) r := hUnspliced.short rfl
      have hRow : front ++ Blank.row (bs ++ [.lineEnd]) = front ++ Blank.row bs
          ++ [.char '\n'] := by
        simp [Blank.text]
      have hFirst : first ([.char '\n'] ++ r) = .ok (.lineEnd, [SourceChar.char '\n'].length) := rfl
      have hRest : Laid path front opening (Blank.row (bs ++ [.lineEnd]) ++ r) tokens :=
        ih (by rw [hRow, offset_past_of_eq hOffset]) (Blank.fills_concat.mpr ⟨hFills, hStands⟩)
          (hRow ▸ hUnspliced.past hFirst) (by simp) (by simp)
      simpa [Blank.text] using hRest
  | @blank p start spaced x r tokens hFirst h ih =>
      obtain ⟨b, hText, hPiece, hStands⟩ := Blank.exists_of_first hFirst
      have hNot : b ≠ .lineEnd := by
        rintro rfl
        cases hPiece
      have hRow : front ++ Blank.row (bs ++ [b]) = front ++ Blank.row bs ++ x := by
        simp [hText]
      have hRest : Laid path front opening (Blank.row (bs ++ [b]) ++ r) tokens :=
        ih (by rw [hRow, offset_past_of_eq hOffset])
          (Blank.fills_concat.mpr ⟨hText ▸ hFills, hStands _⟩)
          (hRow ▸ hUnspliced.past hFirst) (by simpa [hNot.symm] using hStart) (by simp [hNot])
      simpa [hText] using hRest
  | @token p start spaced x r kind tokens hFirst h ih =>
      have hEnd := offset_past_of_eq hOffset x
      have hRest : Laid path (front ++ Blank.row bs ++ x) false (Blank.row [] ++ r) tokens :=
        ih (by rw [hEnd, Blank.row_nil, List.append_nil]) trivial
          (by rw [Blank.row_nil, List.append_nil]; exact hUnspliced.past hFirst) (by simp) (by simp)
      rw [hOffset, hEnd]
      exact .token hFills (ne_nil_of_first hFirst) hStart hSpaced hRest

/-- The blanks fill the text from one place to another. -/
def Between (t : Text) (first last : Nat) (bs : List Blank) : Prop :=
  t.take last = t.take first ++ Blank.row bs ∧ Blank.Fills (t.take first) bs (t.drop last)

theorem Between.unique {first last : Nat} {cs : List Blank} (h : Between t first last bs)
    (h' : Between t first last cs) : bs = cs :=
  h.2.unique h'.2 (List.append_cancel_left (h.1.symm.trans h'.1))

theorem between_append (hFills : Blank.Fills front bs r) :
    Between (front ++ (Blank.row bs ++ r)) front.length (front ++ Blank.row bs).length bs := by
  have hTake : (front ++ (Blank.row bs ++ r)).take front.length = front := List.take_left
  have hTakeAll : (front ++ (Blank.row bs ++ r)).take (front ++ Blank.row bs).length = front
      ++ Blank.row bs := by
    rw [← List.append_assoc, List.take_left]
  have hDropAll : (front ++ (Blank.row bs ++ r)).drop (front ++ Blank.row bs).length = r := by
    rw [← List.append_assoc, List.drop_left]
  rw [Between, hTake, hTakeAll, hDropAll]
  exact ⟨rfl, hFills⟩

/-- Where the last of some tokens ends; where they would start if there is none. -/
def endOf (start : Nat) (tokens : List Token) : Nat :=
  (tokens.getLast?.map (·.span.stop)).getD start

theorem endOf_cons (start : Nat) (x : Token) (tokens : List Token) :
    endOf start (x :: tokens) = endOf x.span.stop tokens := by
  rw [endOf, endOf, List.getLast?_cons]
  cases tokens.getLast? <;> rfl

/-- The token is a stretch of the text behind a place, written as there but for the spelling of a
punctuator. -/
structure IsPartOf (x : Token) (path : String) (t : Text) (start : Nat) : Prop where
  path : x.span.path = path
  behind : start ≤ x.span.start
  nonempty : x.span.start < x.span.stop
  inside : x.span.stop ≤ t.length
  lexeme : x.lexeme = lexemeOf x.kind ((t.take x.span.stop).drop x.span.start)

theorem Laid.isPartOf (h : Laid path front opening r tokens) :
    ∀ x ∈ tokens, x.IsPartOf path (front ++ r) front.length := by
  induction h with
  | done => simp
  | @token front opening bs x r kind line column start spaced tokens hFills hNe hStart
      hSpaced h ih =>
      have hPos := List.length_pos_iff.mpr hNe
      have hText : front ++ (Blank.row bs ++ (x ++ r)) = front ++ Blank.row bs ++ x ++ r := by
        simp
      rw [hText]
      refine List.forall_mem_cons.mpr ⟨⟨rfl, ?_, ?_, ?_, ?_⟩, fun y hy => ?_⟩
      · simp
      · simpa using hPos
      · simp
      · dsimp only
        rw [List.take_left, List.drop_left]
      · have hPart := ih y hy
        exact ⟨hPart.path, Nat.le_trans (by simp) hPart.behind, hPart.nonempty, hPart.inside,
          hPart.lexeme⟩

theorem Laid.pairwise (h : Laid path front opening r tokens) :
    tokens.Pairwise fun x y => x.span.stop ≤ y.span.start := by
  induction h with
  | done => exact .nil
  | token _ _ _ _ h ih => exact List.pairwise_cons.mpr ⟨fun y hy => (h.isPartOf y hy).behind, ih⟩

/-- In front of each token are blanks, of which its flags tell. -/
theorem Laid.exists_between (h : Laid path front opening r tokens) {before after : List Token}
    {x : Token} (hTokens : tokens = before ++ x :: after) :
    ∃ bs, Between (front ++ r) (endOf front.length before) x.span.start bs
      ∧ (x.spaced = false ↔ bs = [] ∨ bs.getLast? = some .lineEnd)
      ∧ (x.atLineStart = true ↔ opening = true ∧ before = [] ∨ .lineEnd ∈ bs) := by
  induction h generalizing before with
  | done => simp at hTokens
  | @token front opening bs x' r kind line column start spaced tokens hFills hNe hStart
      hSpaced h ih =>
      cases before with
      | nil =>
          obtain ⟨rfl, rfl⟩ := List.cons.inj hTokens
          exact ⟨bs, between_append hFills, hSpaced, by simpa using hStart⟩
      | cons y before =>
          obtain ⟨rfl, rfl⟩ := List.cons.inj hTokens
          rw [endOf_cons, show front ++ (Blank.row bs ++ (x' ++ r)) = front ++ Blank.row bs ++ x'
            ++ r by simp]
          simpa using ih rfl

/-- Behind the last token are blanks. -/
theorem Laid.exists_behind (h : Laid path front opening r tokens) :
    ∃ bs, Between (front ++ r) (endOf front.length tokens) (front ++ r).length bs := by
  induction h with
  | done hFills =>
      have hBetween := between_append hFills
      rw [List.append_nil] at hBetween
      exact ⟨_, hBetween⟩
  | @token front opening bs x r kind line column start spaced tokens hFills hNe hStart
      hSpaced h ih =>
      rw [endOf_cons, show front ++ (Blank.row bs ++ (x ++ r)) = front ++ Blank.row bs ++ x
        ++ r by simp]
      exact ih

/-- The tokens of a text leave out nothing but blanks. -/
structure Cover (path : String) (t : Text) (tokens : List Token) : Prop where
  parts : ∀ x ∈ tokens, x.IsPartOf path t 0
  apart : tokens.Pairwise fun x y => x.span.stop ≤ y.span.start
  /-- In front of each token are blanks, in one way only. The token is not spaced exactly if there
  are none or the last one is a line end, and at the start of a line exactly if it is the first
  token or one of them is a line end. -/
  between : ∀ before x after, tokens = before ++ x :: after →
    ∃ bs, Between t (endOf 0 before) x.span.start bs
    ∧ (∀ cs, Between t (endOf 0 before) x.span.start cs → cs = bs)
    ∧ (x.spaced = false ↔ bs = [] ∨ bs.getLast? = some .lineEnd)
    ∧ (x.atLineStart = true ↔ before = [] ∨ .lineEnd ∈ bs)
  behind : ∃ bs, Between t (endOf 0 tokens) t.length bs

/-- The lexer loses nothing. -/
theorem cover_of_ofText (h : ofText path t = .ok tokens) : Cover path t tokens := by
  have hLaid : Laid path [] true t tokens := by
    have hRow : Laid path [] true (Blank.row [] ++ t) tokens := (lexed_of_ofTextAt h).laid
      rfl trivial ⟨fun _ => Text.not_splices_nil, fun _ _ => by simp⟩ (by simp) (by simp)
    exact hRow
  constructor
  case parts => exact hLaid.isPartOf
  case apart => exact hLaid.pairwise
  case between =>
    intro before x after hTokens
    obtain ⟨bs, hBetween, hSpaced, hStart⟩ := hLaid.exists_between hTokens
    exact ⟨bs, hBetween, fun cs hOther => hOther.unique hBetween, hSpaced, by simpa using hStart⟩
  case behind => exact hLaid.exists_behind

/-- A line end in a comment or behind a backslash starts no line: of the five tokens, two are at the
start of one. -/
theorem cover_commentedLines :
    let t := Text.ofString "a /* b\n */ <: // c\\\n d\n = /**/e \\\n;"
    ∃ tokens, ofText "unit.cpp" t = .ok tokens ∧ Cover "unit.cpp" t tokens
      ∧ tokens.map (·.spelling) = ["a", "[", "=", "e", ";"]
      ∧ tokens.map (·.atLineStart) = [true, false, true, false, false]
      ∧ tokens.map (·.spaced) = [false, true, true, true, true] := by
  refine Except.exists_of_passes
    (fun tokens => decide (tokens.map (·.spelling) = ["a", "[", "=", "e", ";"]
    ∧ tokens.map (·.atLineStart) = [true, false, true, false, false]
    ∧ tokens.map (·.spaced) = [false, true, true, true, true])) (by
      decide +kernel) fun tokens h hTest => ?_
  exact ⟨cover_of_ofText h, of_decide_eq_true hTest⟩

end Token

end Demacro
