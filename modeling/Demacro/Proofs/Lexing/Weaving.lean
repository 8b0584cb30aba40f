import Demacro.Proofs.Lexing.Passing

/-!
Texts in which some directives gave way to declarations, some names to other names, and declarations
were inserted behind statements. Such a text is related to the one that it was made of piece by
piece.
-/

namespace Demacro

/-- What a directive depends on in a token: the class, the lexeme, and whether white space stands in
front. -/
abbrev Form := TokenKind × Text × Bool

/-- The form of a token. -/
def Token.form (t : Token) : Form :=
  (t.kind, t.lexeme, t.spaced)

/-- What is to be found again of a logical line: the forms of the tokens behind the first one for a
directive that stays, nothing for all other lines. -/
abbrev Row := Option (List Form)

/-- A place on a line: of code, which may be the start of a line, or of a directive that stays, with
the flag of the next token and the forms of the tokens that are to come. -/
inductive Mode where
  | line (start : Bool)
  | directive (spaced : Bool) (operands : List Form)

namespace Mode

/-- The line can end here. -/
def Ends : Mode → Prop
  | line _ => True
  | directive _ operands => operands = []

/-- The place behind white space. -/
def afterBlank : Mode → Mode
  | line start => line start
  | directive _ operands => directive true operands

/-- The rows from this place on, if `rows` are those of the lines behind. -/
def close : Mode → List Row → List Row
  | line false, rows => none :: rows
  | _, rows => rows

/-- The place is on a line of code. -/
def isLine : Mode → Bool
  | line _ => true
  | directive .. => false

/-- A token stands in front of the place on its line. -/
def IsInside : Mode → Prop
  | line start => start = false
  | directive .. => True

theorem IsInside.afterBlank {m : Mode} (h : m.IsInside) : m.afterBlank.IsInside := by
  cases m with
  | line => exact h
  | directive => trivial

theorem isLine_afterBlank (m : Mode) : m.afterBlank.isLine = m.isLine := by
  cases m <;> rfl

end Mode

namespace Piece

/-- The second text is the first one after changes, as far as they are from a place on. What is
written in place of a name meets what comes behind it, and each declaration is passed as lines of
code. -/
inductive Woven : Mode → Text → Text → List Row → Prop where
  | done {m : Mode} (hEnds : m.Ends) : Woven m [] [] (m.close [])
  | lineEnd {m : Mode} {r r' : Text} {rows : List Row} (hEnds : m.Ends)
      (h : Woven (.line true) r r' rows) :
      Woven m (.char '\n' :: r) (.char '\n' :: r') (m.close rows)
  | blank {m : Mode} {x r r' : Text} {rows : List Row}
      (hFirst : first (x ++ r) = .ok (.blank, x.length))
      (h : Woven m.afterBlank r r' rows) : Woven m (x ++ r) (x ++ r') rows
  | code {start : Bool} {x r r' : Text} {kind : TokenKind} {rows : List Row}
      (hFirst : first (x ++ r) = .ok (.token kind, x.length))
      (hHash : start = true → ¬IsHash kind x)
      (h : Woven (.line false) r r' (none :: rows)) :
      Woven (.line start) (x ++ r) (x ++ r') (none :: rows)
  | inserted {start : Bool} {w r r' : Text} {rows : List Row}
      (hPasses : ∀ q, Passes true (w ++ q) q) (h : Woven (.line false) r r' (none :: rows)) :
      Woven (.line start) (.char ';' :: r) (.char ';' :: .char '\n' :: (w ++ r')) (none :: rows)
  | written {start : Bool} {x v r r' : Text} {rows : List Row} (hPlain : IsPlain v)
      (hHead : ∃ c ∈ v.head?, isWord c = true) (hMeets : Meets v r')
      (hName : ∀ c ∈ x, isWord c = true)
      (hWord : ∃ c ∈ (x ++ r).head?, isWord c = true)
      (h : Woven (.line false) r r' (none :: rows)) :
      Woven (.line start) (x ++ r) (v ++ r') (none :: rows)
  | directive {x r r' : Text} {kind : TokenKind} {operands : List Form} {rows : List Row}
      (hFirst : first (x ++ r) = .ok (.token kind, x.length)) (hHash : IsHash kind x)
      (h : Woven (.directive false operands) r r' rows) :
      Woven (.line true) (x ++ r) (x ++ r') (some operands :: rows)
  | operand {spaced : Bool} {x r r' : Text} {kind : TokenKind} {operands : List Form}
      {rows : List Row}
      (hFirst : first (x ++ r) = .ok (.token kind, x.length))
      (h : Woven (.directive false operands) r r' rows) :
      Woven (.directive spaced ((kind, lexemeOf kind x, spaced) :: operands)) (x ++ r)
        (x ++ r') rows
  | removed {d r r' : Text} {rows : List Row} (hHead : ∃ c ∈ d.head?, c ≠ .char '\n')
      (h : Woven (.line true) r r' rows) : Woven (.line true) (d ++ r) r' (none :: rows)
  | replaced {d w r r' : Text} {rows : List Row} (hHead : ∃ c ∈ d.head?, c ≠ .char '\n')
      (hPasses : ∀ q, Passes true (w ++ q) q) (h : Woven (.line false) r r' (none :: rows)) :
      Woven (.line true) (d ++ r) (w ++ r') (none :: rows)

variable {x a u s s' r r' t t' v : Text} {kind : TokenKind} {m : Mode} {rows : List Row}
  {quote : Char} {escaped line : Bool}

theorem exists_head_of_first {piece : Piece} (h : first (x ++ r) = .ok (piece, x.length)) :
    ∃ c y, x = c :: y :=
  List.exists_cons_of_ne_nil (ne_nil_of_first h)

/-- Where the text ends or a line of it does, the changed text does too. -/
theorem Woven.head (h : Woven m t t' rows) :
    (t = [] → t' = []) ∧ (t.head? = some (.char '\n') → t'.head? = some (.char '\n')) := by
  cases h with
  | done => simp
  | lineEnd => simp
  | blank hFirst | code hFirst | directive hFirst | operand hFirst =>
      obtain ⟨c, y, rfl⟩ := exists_head_of_first hFirst
      simp
  | inserted => simp
  | written _ _ _ _ hWord =>
      obtain ⟨c, hc, hWord⟩ := hWord
      refine ⟨fun hNil => by simp [hNil] at hc, fun hLineEnd => ?_⟩
      obtain rfl := Option.some.inj (hc.symm.trans hLineEnd)
      exact absurd hWord (by decide +kernel)
  | removed hHead | replaced hHead =>
      obtain ⟨c, hc, hNe⟩ := hHead
      obtain ⟨d, rfl⟩ := List.head?_eq_some_iff.mp hc
      simp [hNe]

/-- What stands behind what a text and the changed text have in common. -/
inductive Parting (rows : List Row) : Bool → Text → Text → Text → Prop where
  | ended {line : Bool} {u s : Text} : Parting rows line u s []
  | lineEnd {line : Bool} {u s s' : Text}
      (h : s.head? = some (.char '\n') ∨ u.getLast? = some (.char ';')) :
      Parting rows line u s (.char '\n' :: s')
  | written {u x v r r' : Text} (hPlain : IsPlain v) (hHead : ∃ c ∈ v.head?, isWord c = true)
      (hMeets : Meets v r')
      (hWord : ∃ c ∈ (x ++ r).head?, isWord c = true) (h : Woven (.line false) r r' rows) :
      Parting rows true u (x ++ r) (v ++ r')

theorem Parting.prepend (h : Parting rows line u s s') (x : Text) :
    Parting rows line (x ++ u) s s' := by
  cases h with
  | ended => exact .ended
  | lineEnd h =>
      refine .lineEnd (h.imp_right fun hLast => ?_)
      rw [List.getLast?_append, hLast]
      rfl
  | written hPlain hHead hMeets hWord h => exact .written hPlain hHead hMeets hWord h

theorem isLoose_of_isWord {c : SourceChar} (h : isWord c = true) : isLoose c = true := by
  have hOthers : ∀ d ∈ ['%', ':', '.', '=', '>', '*', '<', '+', '-', '&', '|', '#', '"', '\'',
    '/', '\r'],
      Unicode.isWord d = false :=
    List.forall_mem_of_all (by decide +kernel)
  cases c with
  | byte b => rfl
  | char c =>
      by_contra hLoose
      have hMem : c ∈ ['%', ':', '.', '=', '>', '*', '<', '+', '-', '&', '|', '#', '"', '\'', '/',
          '\r'] := by
        simpa [isLoose, isInner, SourceChar.satisfies, or_iff_not_imp_left] using hLoose
      rw [isWord, SourceChar.satisfies, hOthers c hMem] at h
      cases h

theorem Parting.fits (h : Parting rows line u s s') : Fits u s s' := by
  cases h with
  | ended => exact ⟨by simp, by simp, by simp⟩
  | lineEnd h =>
      refine ⟨fun c hc hWord => ?_, fun c hc => ?_, fun _ => h⟩
      · obtain rfl := Option.some.inj hc
        exact absurd hWord (by decide +kernel)
      · obtain rfl := Option.some.inj hc
        decide +kernel
  | @written u x v r r' hPlain hHead hMeets hWord h =>
      obtain ⟨c, hc, hHead⟩ := hHead
      have hFirst : (v ++ r').head? = some c := by
        rw [List.head?_append, hc]
        rfl
      refine ⟨fun d hd _ => hWord, fun d hd => ?_, fun hd => ?_⟩
      · obtain rfl := Option.some.inj (hFirst.symm.trans hd)
        exact isLoose_of_isWord hHead
      · obtain rfl := Option.some.inj (hFirst.symm.trans hd)
        exact absurd hHead (by decide +kernel)

/-- Inside a line a text and the changed text have a beginning in common, up to the next change on
the line. -/
theorem Woven.exists_common (h : Woven m t t' rows) (hm : m.IsInside) :
    ∃ u s s', t = u ++ s ∧ t' = u ++ s' ∧ Parting rows m.isLine u s s' := by
  -- What is in front of the rest of a piece is in common too.
  have hLater : ∀ {line : Bool} {x r r' : Text},
      (∃ u s s', r = u ++ s ∧ r' = u ++ s' ∧ Parting rows line u s s') →
      ∃ u s s', x ++ r = u ++ s ∧ x ++ r' = u ++ s' ∧ Parting rows line u s s' := by
    rintro line x _ _ ⟨u, s, s', rfl, rfl, hParting⟩
    exact ⟨x ++ u, s, s', (List.append_assoc x u s).symm, (List.append_assoc x u s').symm,
      hParting.prepend x⟩
  induction h with
  | done => exact ⟨[], [], [], rfl, rfl, .ended⟩
  | @lineEnd m r r' rows => exact ⟨[], _, _, rfl, rfl, .lineEnd (.inl rfl)⟩
  | @blank m x r r' rows hFirst h ih =>
      rw [← Mode.isLine_afterBlank]
      exact hLater (ih hm.afterBlank hLater)
  | code hFirst hHash h ih => exact hLater (ih rfl hLater)
  | @inserted start w r r' rows hPasses h ih =>
      exact ⟨[.char ';'], r, .char '\n' :: (w ++ r'), rfl, rfl, .lineEnd (.inr rfl)⟩
  | written hPlain hHead hMeets hName hWord h ih =>
      exact ⟨[], _, _, rfl, rfl, .written hPlain hHead hMeets hWord h⟩
  | operand hFirst h ih => exact hLater (ih trivial hLater)
  | directive | removed | replaced => cases hm

/-- A literal that is not closed stays so when what comes behind a place does. -/
theorem bodyLength?_eq_none_append (h : bodyLength? quote escaped (a ++ s) = none) :
    (∀ s', bodyLength? quote escaped (a ++ s') = none) ∨ ∃ escaped',
      (escaped' = true → a = [] ∧ escaped = true ∨ a.getLast? = some (.char '\\'))
        ∧ bodyLength? quote escaped' s = none
        ∧ ∀ s', bodyLength? quote escaped' s' = none →
        bodyLength? quote escaped (a ++ s') = none := by
  induction a generalizing escaped with
  | nil => exact .inr ⟨escaped, fun hEscaped => .inl ⟨rfl, hEscaped⟩, h, fun s' hs' => hs'⟩
  | cons c a ih =>
      have hLater : ∀ next, (next = true → c = .char '\\') →
          (bodyLength? quote next (a ++ s)).map (· + 1) = none →
          (∀ s', (bodyLength? quote next (a ++ s')).map (· + 1) = none) ∨ ∃ escaped',
            (escaped' = true → (c :: a).getLast? = some (.char '\\'))
            ∧ bodyLength? quote escaped' s = none
              ∧ ∀ s', bodyLength? quote escaped' s' = none →
                (bodyLength? quote next (a ++ s')).map (· + 1) = none := by
        intro next hNext hRest
        simp only [Option.map_eq_none_iff] at hRest ⊢
        rcases ih hRest with hAll | ⟨escaped', hLast, hBehind, hSame⟩
        · exact .inl hAll
        · refine .inr ⟨escaped', fun hEscaped => ?_, hBehind, hSame⟩
          rcases hLast hEscaped with ⟨rfl, hTrue⟩ | hLast
          · rw [hNext hTrue]
            rfl
          · rw [List.getLast?_cons, hLast]
            rfl
      suffices hEnd : (∀ s', bodyLength? quote escaped (c :: a ++ s') = none) ∨ ∃ escaped',
          (escaped' = true → (c :: a).getLast? = some (.char '\\'))
          ∧ bodyLength? quote escaped' s = none
            ∧ ∀ s', bodyLength? quote escaped' s' = none →
              bodyLength? quote escaped (c :: a ++ s') = none from
        hEnd.imp_right fun ⟨escaped', hLast, hBehind⟩ =>
          ⟨escaped', fun hEscaped => .inr (hLast hEscaped), hBehind⟩
      cases escaped with
      | true => exact hLater false (fun hNo => absurd hNo Bool.false_ne_true) h
      | false =>
          simp only [List.cons_append, bodyLength?] at h ⊢
          split_ifs at h ⊢ with hBackslash
          · exact hLater true (fun _ => hBackslash) h
          · exact .inl fun _ => rfl
          · exact hLater false (fun hNo => absurd hNo Bool.false_ne_true) h

theorem bodyLength?_cons_of_isWord {c : SourceChar} (hWord : isWord c = true)
    (hQuote : quote = '"' ∨ quote = '\'') (escaped : Bool) (t : Text) :
    bodyLength? quote escaped (c :: t) = (bodyLength? quote false t).map (· + 1) := by
  have hOther : c ≠ .char '\\' ∧ c ≠ .char quote ∧ c ≠ .char '\n' := by
    refine ⟨ne_of_isWord hWord _ (by decide +kernel), ?_, ne_of_isWord hWord _ (by decide +kernel)⟩
    rcases hQuote with rfl | rfl <;> exact ne_of_isWord hWord _ (by decide +kernel)
  cases escaped <;> simp [bodyLength?, hOther]

/-- A literal that is not closed behind a name stays so without the name. -/
theorem bodyLength?_of_names (hNames : ∀ c ∈ x, isWord c = true)
    (hWord : ∃ c ∈ (x ++ r).head?, isWord c = true) (hQuote : quote = '"' ∨ quote = '\'')
    (h : bodyLength? quote escaped (x ++ r) = none) : bodyLength? quote false r = none := by
  obtain ⟨c, hc, hWord⟩ := hWord
  obtain ⟨t, hText⟩ := List.head?_eq_some_iff.mp hc
  -- The first character is one of a word, so it does not matter whether a backslash is in front of
  -- it.
  rw [hText, bodyLength?_cons_of_isWord hWord hQuote, ← bodyLength?_cons_of_isWord hWord hQuote
    false, ← hText] at h
  clear hText hc
  induction x with
  | nil => exact h
  | cons c x ih =>
      rw [List.cons_append, bodyLength?_cons_of_isWord (hNames c List.mem_cons_self) hQuote,
        Option.map_eq_none_iff] at h
      exact ih (fun d hd => hNames d (List.mem_cons_of_mem c hd)) h

/-- A literal that is not closed behind a text without quotes is not closed with the text in
front. -/
theorem bodyLength?_of_plain (hPlain : IsPlain v) (hNe : v ≠ [])
    (hLast : v.getLast? ≠ some (.char '\\')) (hQuote : quote = '"' ∨ quote = '\'')
    (h : bodyLength? quote false r = none) : bodyLength? quote escaped (v ++ r) = none := by
  induction v generalizing escaped with
  | nil => exact absurd rfl hNe
  | cons c v ih =>
      have hOther : c ≠ .char quote ∧ c ≠ .char '\n' := by
        have hc := hPlain.plain c List.mem_cons_self
        rcases hQuote with rfl | rfl <;> constructor <;> rintro rfl <;> cases hc
      have hRest : ∀ next, (next = true → c = .char '\\') →
          bodyLength? quote next (v ++ r) = none := by
        intro next hNext
        cases v with
        | nil =>
            cases next with
            | false => exact h
            | true => exact absurd (by rw [hNext rfl]; rfl) hLast
        | cons d v =>
            rw [List.getLast?_cons_cons] at hLast
            exact ih (IsPlain.append_left (a := [c]) hPlain) (List.cons_ne_nil d v) hLast
      cases escaped with
      | true => simp [bodyLength?, hRest false fun hNo => absurd hNo Bool.false_ne_true]
      | false =>
          rw [List.cons_append, bodyLength?, if_neg hOther.1, if_neg hOther.2]
          split_ifs with hBackslash
          · rw [hRest true fun _ => hBackslash]
            rfl
          · rw [hRest false fun hNo => absurd hNo Bool.false_ne_true]
            rfl

/-- Inside a line, a literal that is not closed is not closed in the changed text. -/
theorem Woven.bodyLength?_eq_none (h : Woven m t t' rows) (hm : m.IsInside)
    (hQuote : quote = '"' ∨ quote = '\'') (hEscaped : escaped = true → t.head? ≠ some (.char '\n'))
    (hNone : bodyLength? quote escaped t = none) : bodyLength? quote escaped t' = none := by
  -- A piece that ends with a backslash does not stand in front of a line end.
  have hPiece : ∀ {x r r' : Text} {escaped : Bool} {piece : Piece},
      first (x ++ r) = .ok (piece, x.length) → bodyLength? quote escaped (x ++ r) = none →
      (∀ {escaped}, (escaped = true → r.head? ≠ some (.char '\n')) →
        bodyLength? quote escaped r = none →
        bodyLength? quote escaped r' = none) → bodyLength? quote escaped (x ++ r') = none := by
    intro x r r' escaped piece hFirst hNone ih
    rcases bodyLength?_eq_none_append hNone with hAll | ⟨escaped', hLast, hBehind, hSame⟩
    · exact hAll r'
    · refine hSame r' (ih (fun hEscaped hHead => ?_) hBehind)
      obtain ⟨q, rfl⟩ := List.head?_eq_some_iff.mp hHead
      rcases hLast hEscaped with ⟨hNil, -⟩ | hLast
      · exact ne_nil_of_first hFirst hNil
      · exact getLast?_ne_backslash hFirst hLast
  induction h generalizing escaped with
  | done => exact hNone
  | lineEnd =>
      cases escaped with
      | true => exact absurd rfl (hEscaped rfl)
      | false => rcases hQuote with rfl | rfl <;> rfl
  | blank hFirst h ih => exact hPiece hFirst hNone (ih hm.afterBlank · ·)
  | code hFirst hHash h ih => exact hPiece hFirst hNone (ih rfl · ·)
  | inserted => rcases hQuote with rfl | rfl <;> cases escaped <;> rfl
  | written hPlain hHead hMeets hName hWord h ih =>
      have hBehind : bodyLength? quote false _ = none :=
        ih rfl (fun hEscaped => absurd hEscaped Bool.false_ne_true)
          (bodyLength?_of_names hName hWord hQuote hNone)
      refine bodyLength?_of_plain hPlain ?_ (fun hLast => ?_) hQuote hBehind
      · rintro rfl
        simp at hHead
      · cases hMeets.last _ hLast
  | operand hFirst h ih => exact hPiece hFirst hNone (ih trivial · ·)
  | directive | removed | replaced => cases hm

/-- No literal starts at a place exactly if there is no quote or nothing closes it. -/
theorem literal?_eq_none_iff : literal? t = none ↔
    ∀ quote, quote = '"' ∨ quote = '\'' → t.head? = some (.char quote) →
    bodyLength? quote true t = none := by
  unfold literal?
  split
  · rename_i c t
    constructor
    · intro hNone quote hQuote hHead
      obtain rfl : c = quote := by simpa using hHead
      rw [if_pos (by simpa using hQuote), quotedLength?_eq_bodyLength?,
        Option.map_eq_none_iff] at hNone
      rw [bodyLength?, hNone]
      rfl
    · intro hAll
      split_ifs with hQuote
      · have hNone := hAll c (by simpa using hQuote) rfl
        rw [bodyLength?, Option.map_eq_none_iff] at hNone
        rw [quotedLength?_eq_bodyLength?, hNone]
        rfl
      · rfl
  · rename_i hOther
    simp only [true_iff]
    intro quote _ hHead
    obtain ⟨t, rfl⟩ := List.head?_eq_some_iff.mp hHead
    exact absurd rfl (hOther quote t)

/-- Inside a line, no literal starts in the changed text where none started. -/
theorem Woven.literal?_eq_none (h : Woven m t t' rows) (hm : m.IsInside)
    (hNone : literal? t = none) : literal? t' = none := by
  rw [literal?_eq_none_iff] at hNone ⊢
  intro quote hQuote hHead
  have hOther : SourceChar.char quote ≠ .char '\n' ∧ isLoose (.char quote) = false := by
    rcases hQuote with rfl | rfl <;> decide +kernel
  obtain ⟨u, s, s', rfl, rfl, hParting⟩ := h.exists_common hm
  cases u with
  | nil =>
      have hLoose := hParting.fits.loose _ hHead
      rw [hOther.2] at hLoose
      cases hLoose
  | cons c u =>
      refine h.bodyLength?_eq_none hm hQuote (fun _ hLineEnd => ?_) (hNone quote hQuote hHead)
      exact hOther.1 (Option.some.inj (hHead.symm.trans hLineEnd))

/-- Nor does one at the start of a piece in front of it. -/
theorem Woven.literal?_piece (h : Woven m r r' rows) (hm : m.IsInside) {piece : Piece}
    (hFirst : first (x ++ r) = .ok (piece, x.length)) (hNone : literal? (x ++ r) = none) :
    literal? (x ++ r') = none := by
  obtain ⟨c, y, rfl⟩ := exists_head_of_first hFirst
  rw [literal?_eq_none_iff] at hNone ⊢
  intro quote hQuote hHead
  rcases bodyLength?_eq_none_append (hNone quote hQuote hHead) with hAll
    | ⟨escaped, hLast, hBehind, hSame⟩
  · exact hAll r'
  · refine hSame r' (h.bodyLength?_eq_none hm hQuote (fun hEscaped hLineEnd => ?_) hBehind)
    obtain ⟨q, rfl⟩ := List.head?_eq_some_iff.mp hLineEnd
    exact getLast?_ne_backslash hFirst ((hLast hEscaped).resolve_left fun hNil => nomatch hNil.1)

theorem literal?_ne_number {n : Nat} (h : literal? t = some (kind, n)) : kind ≠ .number := by
  unfold literal? at h
  split at h
  · split at h
    · obtain ⟨_, -, hEq⟩ := Option.map_eq_some_iff.mp h
      rw [Prod.mk.injEq] at hEq
      rw [← hEq.1, literalKind]
      split <;> decide
    · cases h
  · cases h

theorem wordToken_ne_number {n k : Nat} (h : wordToken t n = .ok (kind, k)) : kind ≠ .number := by
  unfold wordToken at h
  dsimp only at h
  split at h
  · split at h <;> cases h
    decide
  split at h
  · split at h
    · rename_i hLiteral
      cases h
      exact literal?_ne_number hLiteral
    · cases h
      decide
  · cases h
    decide

theorem numberLength?_of_first {n : Nat} (h : first t = .ok (.token .number, n)) :
    numberLength? t = some n := by
  obtain ⟨-, hToken⟩ := first_eq_token_iff.mp h
  unfold tokenAt at hToken
  split at hToken
  · exact absurd rfl (wordToken_ne_number hToken)
  split at hToken
  · rename_i hNumber
    cases hToken
    exact hNumber
  split at hToken
  · rename_i hLiteral
    cases hToken
    exact absurd rfl (literal?_ne_number hLiteral)
  split at hToken <;> cases hToken

theorem Meets.prepend (h : Meets v r) (hNe : v ≠ []) (a : Text) : Meets (a ++ v) r := by
  have hLast : (a ++ v).getLast? = v.getLast? := List.getLast?_append_of_ne_nil _ hNe
  exact ⟨hLast ▸ h.last, h.inner, hLast ▸ h.hard⟩

/-- Inside a line, a token in front stays as it is, unless it is the start of a number that ends in
what was written in place of a name. -/
theorem Woven.first_token (h : Woven m r r' rows) (hm : m.IsInside)
    (hFirst : first (x ++ r) = .ok (.token kind, x.length)) :
    first (x ++ r') = .ok (.token kind, x.length) ∨ m.isLine = true
      ∧ ∃ y w q q', x ++ r' = y ++ (w ++ q')
      ∧ first (y ++ (w ++ q')) = .ok (.token .number, y.length) ∧ IsPlain w ∧ (w ≠ [] → Meets w q')
      ∧ q.length ≤ r.length ∧ Woven (.line false) q q' rows := by
  have hLiteral := h.literal?_eq_none hm
  have hStray := h.literal?_piece hm hFirst
  have hNe := ne_nil_of_first hFirst
  obtain ⟨u, s, s', rfl, rfl, hParting⟩ := h.exists_common hm
  rcases first_token_append hFirst hNe (hParting.prepend x).fits hLiteral hStray with hSame
    | ⟨n, hNumber, hLonger⟩
  · exact .inl hSame
  · right
    have hSoft : ¬∀ c ∈ s'.head?, isHard c = true := by
      intro hHard
      have hShort := numberLength?_le (a := x ++ u) (by simp [hNe]) hHard
      rw [List.append_assoc] at hShort
      exact absurd (hShort n (numberLength?_of_first hNumber)) (Nat.not_le_of_lt hLonger)
    generalize hLine : m.isLine = line at hParting
    cases hParting with
    | ended => simp at hSoft
    | lineEnd =>
        exact absurd (fun c hc => by obtain rfl := Option.some.inj hc; decide +kernel) hSoft
    | @written _ z v q q' hPlain hHead hMeets hWord hRest =>
        have hNeName : v ≠ [] := by
          rintro rfl
          simp at hHead
        have hLe := (hMeets.prepend hNeName (x ++ u)).numberLength?_le n
        obtain ⟨k, rfl⟩ := Nat.exists_eq_add_of_lt hLonger
        have hText : x ++ (u ++ (v ++ q')) = x ++ u ++ v ++ q' := by simp
        rw [hText] at hNumber
        replace hLe := hLe (numberLength?_of_first hNumber)
        have hParts : v.take (k + 1) ++ v.drop (k + 1) = v := List.take_append_drop (k + 1) v
        have hSplit : x ++ u ++ v ++ q' = x ++ u ++ v.take (k + 1) ++ (v.drop (k + 1) ++ q') := by
          rw [← List.append_assoc, List.append_assoc (x ++ u) (v.take (k + 1)), hParts]
        refine ⟨rfl, x ++ u ++ v.take (k + 1), v.drop (k + 1), q, q', hText.trans hSplit, ?_, ?_,
          fun hRest => ?_, ?_, hRest⟩
        · rw [← hSplit, hNumber]
          simp only [List.length_append, List.length_take] at hLe ⊢
          congr 2
          omega
        · exact (hParts.symm ▸ hPlain).append_left
        · exact (hParts.symm ▸ hMeets).append_left hRest
        · simp only [List.length_append]
          omega

end Piece

end Demacro
