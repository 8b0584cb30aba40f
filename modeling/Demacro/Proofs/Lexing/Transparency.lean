import Demacro.Proofs.Lexing.Closing
import Demacro.Proofs.Lexing.Rendering
import Demacro.Proofs.Lexing.Splices

/-!
Line splices and tokens. The lexer takes a line splice for white space: between two tokens and in a
comment nothing comes of it, and a token that goes on behind it is cut in two. The main result is
that a text is read like its joined text exactly if no line is joined within a token.
-/

namespace Demacro

namespace Text

theorem IsQuoteFree.joined {t : Text} (h : t.IsQuoteFree) : t.joined.IsQuoteFree :=
  fun c hc => h c (mem_of_mem_joined hc)

end Text

namespace Piece

open Text

variable {a b t x y z r : Text} {c : SourceChar} {kind kind' : TokenKind} {carriage : Bool}

theorem isBound_splice : ∀ c ∈ (splice carriage ++ t).head?, IsBound c := by
  intro c hc
  obtain rfl : c = .char '\\' := by
    cases carriage <;> exact (Option.some.inj hc).symm
  exact ⟨by decide +kernel, by decide +kernel, by decide⟩

theorem startsToken_iff : startsToken (c :: t) = true ↔
    c ≠ .char '\n' ∧ c.satisfies isHorizontalSpace = false ∧ ¬ StartsSplice (c :: t)
    ∧ ¬ OpensComment c t := by
  rw [startsToken_cons, startsSplice_cons, OpensComment]
  tauto

/-- A joined text has no comment where the text itself has none. -/
theorem opensComment_of_joined (hStarts : ¬ StartsSplice (c :: t)) (hWhole : Whole (c :: t))
    (h : OpensComment c (joined t)) : OpensComment c t := by
  obtain ⟨rfl, hNext⟩ := h
  obtain ⟨hHead, -⟩ := (whole_cons hStarts).mp hWhole
  exact ⟨rfl, hNext.imp (hHead _ (by decide)) (hHead _ (by decide))⟩

/-- A joined text starts with a token where the text itself does. -/
theorem startsToken_joined (hWhole : Whole t) (hOnce : joints (joined t) = [])
    (h : startsToken t = true) : startsToken (joined t) = true := by
  cases t with
  | nil => rfl
  | cons c t =>
      obtain ⟨hLineEnd, hSpace, hStarts, hOpens⟩ := startsToken_iff.mp h
      rw [joined_cons hStarts] at hOnce ⊢
      exact startsToken_iff.mpr ⟨hLineEnd, hSpace, not_startsSplice_of_joints hOnce,
        fun hJoined => hOpens (opensComment_of_joined hStarts hWhole hJoined)⟩

/-- How the front of a text compares with that of its joined text: a comment is closed in neither, a
blank is one in both if it is no line splice, and a line end or the start of a token is one in
both. -/
inductive Fronts : Text → Prop where
  | stop {t : Text} (h : find? (ofString "*/") t = none)
      (hJoined : find? (ofString "*/") (joined t) = none) : Fronts (.char '/' :: .char '*' :: t)
  | blank {x b : Text} (hCut : Cut x b) (h : first (x ++ b) = .ok (.blank, x.length))
      (hJoined : joined x = [] ∨ first (joined x ++ joined b) = .ok (.blank, (joined x).length)) :
      Fronts (x ++ b)
  | lineEnd (b : Text) : Fronts (.char '\n' :: b)
  | token {t : Text} (h : startsToken t = true) (hJoined : startsToken (joined t) = true) : Fronts t

theorem fronts_lineComment (hOnce : joints (joined (.char '/' :: .char '/' :: t)) = []) :
    Fronts (.char '/' :: .char '/' :: t) := by
  have hStarts : ∀ t, ¬ StartsSplice (.char '/' :: t) := fun t => not_startsSplice_of_ne (by decide)
  rw [joined_cons (hStarts _), joined_cons (hStarts _)] at hOnce
  obtain ⟨hCut, hLength⟩ := cut_lineComment (joints_of_cons (joints_of_cons hOnce))
  have hParts := List.take_append_drop (lineCommentLength t) t
  have hInside := List.length_take_of_le (lineCommentLength_le t)
  have hJoined := hCut.joined_eq
  rw [hParts] at hJoined
  generalize t.take (lineCommentLength t) = body at *
  generalize t.drop (lineCommentLength t) = b at *
  subst hParts
  refine .blank (x := .char '/' :: .char '/' :: body) (.cons (hStarts _) (.cons (hStarts _) hCut))
    ?_ (.inr ?_)
  · simp only [List.cons_append, first, List.length_cons, hInside]
  · rw [joined_cons (hStarts _), joined_cons (hStarts _), List.cons_append, List.cons_append,
      ← hJoined, first, hLength]
    rfl

theorem fronts_blockComment (hWhole : Whole (.char '/' :: .char '*' :: t)) :
    Fronts (.char '/' :: .char '*' :: t) := by
  have hSlash : ∀ t, ¬ StartsSplice (.char '/' :: t) := fun t => not_startsSplice_of_ne (by decide)
  have hStar : ∀ t, ¬ StartsSplice (.char '*' :: t) := fun t => not_startsSplice_of_ne (by decide)
  have hInner := ((whole_cons (hStar _)).mp ((whole_cons (hSlash _)).mp hWhole).2).2
  cases hFound : find? (ofString "*/") t with
  | none => exact .stop hFound (find?_joined_eq_none hInner hFound)
  | some n =>
      obtain ⟨hCut, m, hJoinedFound, hLength⟩ := cut_blockComment hInner hFound
      have hParts := List.take_append_drop (n + 2) t
      have hInside : (t.take (n + 2)).length = n + 2 := by
        have hMark := (prefix_of_find? hFound).length_le
        have hTwo : (ofString "*/").length = 2 := rfl
        rw [List.length_drop, hTwo] at hMark
        exact List.length_take_of_le (by omega)
      have hJoined := hCut.joined_eq
      rw [hParts] at hJoined
      generalize t.take (n + 2) = body at *
      generalize t.drop (n + 2) = b at *
      subst hParts
      refine .blank (x := .char '/' :: .char '*' :: body) (.cons (hSlash _) (.cons (hStar _) hCut))
        ?_ (.inr ?_)
      · simp only [List.cons_append, first, hFound, List.length_cons, hInside]
      · rw [joined_cons (hSlash _), joined_cons (hStar _), List.cons_append, List.cons_append,
          ← hJoined, first, hJoinedFound, List.length_cons, List.length_cons, hLength]

theorem fronts (hNe : t ≠ []) (hWhole : Whole t) (hOnce : joints (joined t) = []) : Fronts t := by
  by_cases hToken : startsToken t = true
  · exact .token hToken (startsToken_joined hWhole hOnce hToken)
  by_cases hStarts : StartsSplice t
  · obtain ⟨carriage, b, rfl⟩ := hStarts.exists_eq
    have hCut : Cut (splice carriage ++ []) b := .splice (.nil b)
    rw [List.append_nil] at hCut
    exact .blank hCut (by cases carriage <;> rfl) (.inl (by cases carriage <;> rfl))
  obtain ⟨c, t, rfl⟩ := List.exists_cons_of_ne_nil hNe
  by_cases hOpens : OpensComment c t
  · obtain ⟨rfl, hNext | hNext⟩ := hOpens
    · obtain ⟨r, rfl⟩ := List.head?_eq_some_iff.mp hNext
      exact fronts_lineComment hOnce
    · obtain ⟨r, rfl⟩ := List.head?_eq_some_iff.mp hNext
      exact fronts_blockComment hWhole
  by_cases hLineEnd : c = .char '\n'
  · rw [hLineEnd]
    exact .lineEnd t
  have hSpace : c.satisfies isHorizontalSpace = true := by
    rw [startsToken_iff] at hToken
    simpa [hLineEnd, hStarts, hOpens] using hToken
  have hJoined : joined [c] = [c] := joined_cons fun hFront => hStarts (hFront.append t)
  refine .blank (x := [c]) (.cons hStarts (.nil t)) (first_horizontalSpace hSpace t) (.inr ?_)
  rw [hJoined]
  exact first_horizontalSpace hSpace _

/-- A comment that is not closed stays so when lines are joined. -/
theorem closed_joined (hWhole : Whole t) (hOnce : joints (joined t) = []) (h : Closed t) :
    Closed (joined t) := by
  induction hLength : t.length using Nat.strongRecOn generalizing t with
  | _ length ih =>
      subst hLength
      by_cases hNe : t = []
      · rw [hNe]
        exact .done
      -- A joint can fall into a token, so tokens are passed one character at a time.
      have hStep : ∀ c r, t = c :: r → ¬ StartsSplice (c :: r) → ¬ OpensComment c r →
          Closed (joined t) := by
        rintro c r rfl hStarts hOpens
        rw [joined_cons hStarts] at hOnce ⊢
        have hClosed := ih _ (Nat.lt_succ_self _) ((whole_cons hStarts).mp hWhole).2
          (joints_of_cons hOnce) ((closed_cons hOpens).mp h) rfl
        exact .step (fun hJoined => hOpens (opensComment_of_joined hStarts hWhole hJoined)) hClosed
      cases fronts hNe hWhole hOnce with
      | stop hNone =>
          obtain ⟨n, hFound, -⟩ := closed_blockComment.mp h
          rw [hNone] at hFound
          cases hFound
      | @blank x b hCut hFirst hJoined =>
          have hShorter : b.length < (x ++ b).length := by
            rw [List.length_append]
            have hPos := first_pos hFirst
            omega
          rw [hCut.joined_eq] at hOnce ⊢
          have hClosed := ih _ hShorter (hCut.whole hWhole) (joints_of_append hOnce)
            ((closed_append_of_blank hFirst).mp h) rfl
          rcases hJoined with hNil | hJoined
          · rwa [hNil]
          · exact (closed_append_of_blank hJoined).mpr hClosed
      | lineEnd b =>
          exact hStep _ b rfl (not_startsSplice_of_ne (by decide)) fun hOpens => nomatch hOpens.1
      | token hToken =>
          obtain ⟨c, r, rfl⟩ := List.exists_cons_of_ne_nil hNe
          obtain ⟨-, -, hStarts, hOpens⟩ := startsToken_iff.mp hToken
          exact hStep c r rfl hStarts hOpens

theorem mem_punctuators (hPlain : (x ++ r).IsQuoteFree)
    (h : first (x ++ r) = .ok (.token .punctuator, x.length)) :
    ∃ p ∈ punctuators, ofString p = x := by
  have hToken := (first_eq_token_iff.mp h).2
  unfold tokenAt at hToken
  split at hToken
  · rw [wordToken_of_head fun c hc => hPlain c
      (List.mem_of_mem_drop (List.mem_of_mem_head? hc))] at hToken
    cases hToken
  split at hToken
  · cases hToken
  rw [literal?_eq_none fun c hc => hPlain c (List.mem_of_mem_head? hc)] at hToken
  dsimp only at hToken
  split at hToken
  · rename_i n hn
    obtain ⟨p, hFound, rfl⟩ := Option.map_eq_some_iff.mp hn
    have hLength : p.length = x.length := by
      simpa using hToken
    have hSame : (ofString p).length = x.length := by
      rw [ofString, List.length_map, String.length_toList, hLength]
    have hPrefix : ofString p <+: x ++ r := by
      simpa using List.find?_some hFound
    refine ⟨p, List.mem_of_find?_eq_some hFound, ?_⟩
    exact (List.prefix_of_prefix_length_le hPrefix (List.prefix_append x r) hSame.le).eq_of_length
      hSame
  · cases hToken

/-- A token is told from each that is only a part of it. -/
theorem content_ne (hPlain : (x ++ r).IsQuoteFree)
    (h : first (x ++ r) = .ok (.token kind, x.length)) (hPrefix : y <+: x)
    (hLess : y.length < x.length) : (kind', lexemeOf kind' y) ≠ (kind, lexemeOf kind x) := by
  have hSpellings : ∀ p ∈ punctuators, ∀ k < (ofString p).length,
      primarySpelling ((ofString p).take k) ≠ primarySpelling (ofString p) := by
    decide +kernel
  rw [Ne, Prod.mk.injEq]
  rintro ⟨rfl, hLexeme⟩
  by_cases hKind : kind' = .punctuator
  · subst hKind
    obtain ⟨p, hp, rfl⟩ := mem_punctuators hPlain h
    rw [lexemeOf, if_pos rfl, lexemeOf, if_pos rfl, List.prefix_iff_eq_take.mp hPrefix] at hLexeme
    exact hSpellings p hp _ hLess hLexeme
  · rw [lexemeOf, if_neg hKind, lexemeOf, if_neg hKind] at hLexeme
    exact absurd hLess (hLexeme ▸ Nat.lt_irrefl _)

theorem literal?_of_isQuoteFree (h : t.IsQuoteFree) : literal? t = none :=
  literal?_eq_none fun c hc => h c (List.mem_of_mem_head? hc)

/-- A token is the same in front of a text and in front of its joined text. -/
theorem first_of_joined (hPlain : (x ++ b).IsQuoteFree)
    (h : first (x ++ joined b) = .ok (.token kind, x.length)) :
    first (x ++ b) = .ok (.token kind, x.length) := by
  rcases exists_common b with hSelf | ⟨w, carriage, q, hb, hCommon⟩
  · rwa [hSelf] at h
  · rw [hCommon] at h
    rw [hb, List.append_assoc] at hPlain ⊢
    exact first_of_isBound h isBound_splice (fun _ => literal?_of_isQuoteFree hPlain.right)
      fun _ => literal?_of_isQuoteFree hPlain

theorem exists_token_of_joined (hPlain : t.IsQuoteFree) (hNe : t ≠ [])
    (hToken : startsToken t = true) (hJoined : startsToken (joined t) = true) :
    ∃ x r kind, joined t = x ++ r ∧ first (x ++ r) = .ok (.token kind, x.length) := by
  have hNeJoined : joined t ≠ [] := by
    obtain ⟨c, r, rfl⟩ := List.exists_cons_of_ne_nil hNe
    rw [joined_cons (startsToken_iff.mp hToken).2.2.1]
    exact List.cons_ne_nil c _
  have hPlainJoined := hPlain.joined
  rw [← List.append_nil (joined t)] at hPlainJoined hJoined
  obtain ⟨x, r, kind, hText, hFirst⟩ := exists_token hPlainJoined hNeJoined (by simp) hJoined
  rw [List.append_nil] at hFirst
  exact ⟨x, r, kind, hText, hFirst⟩

/-- A token that goes on behind a line splice is cut there, or in front of it. -/
theorem exists_first_of_cut (hPlain : (a ++ (splice carriage ++ b)).IsQuoteFree)
    (hToken : startsToken (a ++ (splice carriage ++ b)) = true)
    (hPlainJoined : (a ++ z ++ r).IsQuoteFree)
    (hFirst : first (a ++ z ++ r) = .ok (.token kind, (a ++ z).length)) (hz : z ≠ []) :
    ∃ y w kind', a = y ++ w ∧ first (y ++ (w ++ (splice carriage ++ b))) = .ok (.token kind',
      y.length)
      ∧ (kind', lexemeOf kind' y) ≠ (kind, lexemeOf kind (a ++ z)) := by
  have hNe : a ≠ [] := by
    rintro rfl
    cases carriage <;> cases hToken
  have hEnd : ∀ c ∈ (splice carriage ++ b).head?, isHard c = true ∧ isInner c = false := fun c hc =>
    ⟨(isBound_splice c hc).1, And.left (by simpa [isLoose] using (isBound_splice c hc).2.1)⟩
  obtain ⟨y, w, kind', rfl, hFront⟩ := exists_token hPlain hNe hEnd hToken
  refine ⟨y, w, kind', rfl, hFront, content_ne hPlainJoined hFirst ?_ ?_⟩
  · exact ⟨w ++ z, (List.append_assoc y w z).symm⟩
  · have hLonger := List.length_pos_iff.mpr hz
    simp only [List.length_append]
    omega

end Piece

namespace Token

open Piece Text

variable {path : String} {p : Cursor} {start start' spaced carriage : Bool} {base : Nat}
  {a b t x z r : Text} {kind : TokenKind} {xs ys tokens : List Token}

/-- The content of a token, and whether it starts a logical line. -/
def shape (t : Token) : (TokenKind × Text) × Bool :=
  (t.content, t.atLineStart)

/-- Tokens of the same shapes make the same logical lines. -/
theorem map_logicalLines (h : xs.map shape = ys.map shape) :
    (logicalLines xs).map (·.map content) = (logicalLines ys).map (·.map content) := by
  have hContents : ∀ {xs ys : List Token}, xs.map shape = ys.map shape →
      xs.map content = ys.map content := by
    intro xs ys h
    simpa [shape, Function.comp_def] using congrArg (List.map Prod.fst) h
  induction hLength : xs.length using Nat.strongRecOn generalizing xs ys with
  | _ length ih =>
      subst hLength
      match xs, ys with
      | [], [] => rfl
      | x :: xs, y :: ys =>
          obtain ⟨hHead, hTail⟩ := List.cons.inj h
          have hFront :
              (xs.takeWhile continues).map shape = (ys.takeWhile continues).map shape := by
            have hBoth := congrArg (List.takeWhile fun s => !s.2) hTail
            rwa [List.takeWhile_map, List.takeWhile_map] at hBoth
          have hBack : (xs.dropWhile continues).map shape = (ys.dropWhile continues).map shape := by
            have hBoth := congrArg (List.dropWhile fun s => !s.2) hTail
            rwa [List.dropWhile_map, List.dropWhile_map] at hBoth
          have hContent : x.content = y.content := congrArg Prod.fst hHead
          rw [logicalLines_cons, logicalLines_cons, List.map_cons, List.map_cons, List.map_cons,
            List.map_cons,
            hContents hFront, ih _ (Nat.lt_succ_of_le (List.dropWhile_suffix _).length_le)
              hBack rfl,
            hContent]

/-- A line of the text `t` is joined within one of the tokens of its joined text, which stands
behind `base` characters. -/
def Cuts (base : Nat) (t : Text) (tokens : List Token) : Prop :=
  ∃ x ∈ tokens, ∃ n ∈ t.joints, x.span.start < base + n ∧ base + n < x.span.stop

/-- How the tokens of a text compare with those of its joined text: they are the same, or a line is
joined within one of them and they are others. -/
structure Compares (base : Nat) (start : Bool) (t : Text) (tokens : List Token) : Prop where
  same : ¬ Cuts base t tokens → ∀ path p spaced, ∃ tokens', ofTextAt path p start spaced t
    = .ok tokens'
    ∧ tokens'.map shape = tokens.map shape
  other : Cuts base t tokens → ∀ path p spaced tokens', ofTextAt path p start spaced t =
    .ok tokens' → tokens'.map content ≠ tokens.map content

/-- A joint falls into a token behind a place exactly if it is one of the joints behind the
place. -/
theorem cuts_append (hCut : Cut a b)
    (hBehind : ∀ x ∈ tokens, base + (joined a).length ≤ x.span.start) :
    Cuts base (a ++ b) tokens ↔ Cuts (base + (joined a).length) b tokens := by
  rw [Cuts, Cuts, hCut.joints_eq]
  refine exists_congr fun x => and_congr_right fun hx => ?_
  constructor
  · rintro ⟨n, hn, hStart, hStop⟩
    rcases List.mem_append.mp hn with hn | hn
    · have hLe := le_of_mem_joints n hn
      have hFront := hBehind x hx
      omega
    · obtain ⟨k, hk, rfl⟩ := List.mem_map.mp hn
      exact ⟨k, hk, by omega, by omega⟩
  · rintro ⟨n, hn, hStart, hStop⟩
    exact ⟨n + (joined a).length, List.mem_append_right _ (List.mem_map_of_mem hn),
      by omega, by omega⟩

theorem Compares.nil : Compares base start [] [] := by
  constructor
  · intro _ path p spaced
    exact ⟨[], by rw [ofTextAt], rfl⟩
  · rintro ⟨x, hx, -⟩
    cases hx

/-- What is no token makes no difference. -/
theorem Compares.skip (hCut : Cut a b)
    (hBehind : ∀ x ∈ tokens, base + (joined a).length ≤ x.span.start)
    (hRead : ∀ path p spaced, ∃ q spaced', ofTextAt path p start spaced
      (a ++ b) = ofTextAt path q start' spaced' b)
      (h : Compares (base + (joined a).length) start' b tokens) :
      Compares base start (a ++ b) tokens := by
  constructor
  · intro hUncut path p spaced
    obtain ⟨q, spaced', hRead⟩ := hRead path p spaced
    rw [hRead]
    exact h.same ((cuts_append hCut hBehind).not.mp hUncut) path q spaced'
  · intro hCuts path p spaced tokens' hTokens'
    obtain ⟨q, spaced', hRead⟩ := hRead path p spaced
    rw [hRead] at hTokens'
    exact h.other ((cuts_append hCut hBehind).mp hCuts) path q spaced' tokens' hTokens'

theorem Compares.blank (hCut : Cut a b) (hFirst : first (a ++ b) = .ok (.blank, a.length))
    (hJoined : joined a = [] ∨ first (joined a ++ joined b) = .ok (.blank, (joined a).length))
    (h : ofTextAt path p start spaced (joined (a ++ b)) = .ok tokens)
    (hRest : ∀ q spaced', ofTextAt path q start spaced' (joined b) = .ok tokens →
      Compares q.offset start b tokens) :
    Compares p.offset start (a ++ b) tokens := by
  obtain ⟨q, spaced', hOffset, hTokens⟩ : ∃ q spaced', q.offset = p.offset + (joined a).length
      ∧ ofTextAt path q start spaced' (joined b) = .ok tokens := by
    rw [hCut.joined_eq] at h
    rcases hJoined with hNil | hJoined
    · rw [hNil] at h ⊢
      exact ⟨p, spaced, rfl, h⟩
    · rw [ofTextAt_blank hJoined] at h
      exact ⟨_, true, Cursor.offset_past p (joined a), h⟩
  have hBehind : ∀ x ∈ tokens, p.offset + (joined a).length ≤ x.span.start := fun x hx =>
    hOffset ▸ ((pairwise_of_ofTextAt hTokens).1 x hx).2
  have hCompares := hRest q spaced' hTokens
  rw [hOffset] at hCompares
  exact .skip hCut hBehind (fun path p spaced => ⟨_, true, ofTextAt_blank hFirst⟩) hCompares

theorem Compares.lineEnd (h : ofTextAt path p start spaced (joined (.char '\n' :: b)) = .ok tokens)
    (hRest : ∀ q, ofTextAt path q true false (joined b) = .ok tokens →
      Compares q.offset true b tokens) :
    Compares p.offset start (.char '\n' :: b) tokens := by
  have hStarts : ¬ StartsSplice (.char '\n' :: b) := not_startsSplice_of_ne (by decide)
  have hCut : Cut [.char '\n'] b := .cons hStarts (.nil b)
  rw [joined_cons hStarts, ofTextAt_lineEnd] at h
  have hBehind : ∀ x ∈ tokens, p.offset + 1 ≤ x.span.start :=
    fun x hx => ((pairwise_of_ofTextAt h).1 x hx).2
  exact .skip hCut hBehind (fun path p spaced => ⟨_, false, ofTextAt_lineEnd b⟩) (hRest _ h)

/-- A token within which no line is joined is the same in both texts. -/
theorem Compares.token (hPlain : (x ++ b).IsQuoteFree) (hCut : Cut x b) (hJoints : joints x = [])
    (hFirst : first (x ++ joined b) = .ok (.token kind, x.length))
    (h : ofTextAt path p start spaced (x ++ joined b) = .ok tokens)
    (hRest : ∀ q tokens, ofTextAt path q false false (joined b) = .ok tokens →
      Compares q.offset false b tokens) :
    Compares p.offset start (x ++ b) tokens := by
  rw [ofTextAt_token hFirst] at h
  obtain ⟨others, hOthers, h⟩ := Except.bind_eq_ok_iff.mp h
  cases h
  have hCompares := hRest _ _ hOthers
  have hSame := first_of_joined hPlain hFirst
  have hOffset := Cursor.offset_past p x
  have hSelf := joined_eq_self hJoints
  have hBehind : ∀ u ∈ others, p.offset + (joined x).length ≤ u.span.start := by
    rw [hSelf, ← hOffset]
    exact fun u hu => ((pairwise_of_ofTextAt hOthers).1 u hu).2
  generalize hTok : Token.mk kind (lexemeOf kind x) _ start spaced = tok
  have hStop : tok.span.stop = p.offset + x.length := hTok ▸ hOffset
  have hShape : tok.shape = ((kind, lexemeOf kind x), start) := hTok ▸ rfl
  have hCuts : Cuts p.offset (x ++ b) (tok :: others) ↔ Cuts (p.past x).offset b others := by
    have hLater := cuts_append hCut hBehind
    rw [hSelf, ← hOffset] at hLater
    rw [← hLater, Cuts, Cuts, List.exists_mem_cons_iff, or_iff_right]
    rintro ⟨n, hn, -, hInside⟩
    rw [hCut.joints_eq, hJoints, hSelf, List.nil_append] at hn
    obtain ⟨k, -, rfl⟩ := List.mem_map.mp hn
    omega
  constructor
  · intro hUncut path p' spaced
    obtain ⟨tokens', hTokens', hShapes⟩ :=
      hCompares.same (hCuts.not.mp hUncut) path (p'.past x) false
    refine ⟨_, ofTextAt_token_eq_ok hSame hTokens', ?_⟩
    rw [List.map_cons, List.map_cons, hShapes, hShape]
    rfl
  · intro hJoint path p' spaced tokens' hTokens' hContents
    rw [ofTextAt_token hSame] at hTokens'
    obtain ⟨others', hOthers', hTokens'⟩ := Except.bind_eq_ok_iff.mp hTokens'
    cases hTokens'
    exact hCompares.other (hCuts.mp hJoint) path _ false others' hOthers'
      (List.cons.inj hContents).2

/-- A token within which a line is joined is another one in the text. -/
theorem Compares.cut (hPlain : (a ++ splice carriage ++ b).IsQuoteFree)
    (hToken : startsToken (a ++ splice carriage ++ b) = true)
    (hJoint : a.length ∈ joints (a ++ splice carriage ++ b))
    (hPlainJoined : (a ++ z ++ r).IsQuoteFree) (hz : z ≠ [])
    (hFirst : first (a ++ z ++ r) = .ok (.token kind, (a ++ z).length))
    (h : ofTextAt path p start spaced (a ++ z ++ r) = .ok tokens) :
    Compares p.offset start (a ++ splice carriage ++ b) tokens := by
  rw [ofTextAt_token hFirst] at h
  obtain ⟨others, -, h⟩ := Except.bind_eq_ok_iff.mp h
  cases h
  have hOffset := Cursor.offset_past p (a ++ z)
  rw [List.append_assoc] at hPlain hToken hJoint ⊢
  obtain ⟨y, w, kind', rfl, hFront, hContent⟩ :=
    exists_first_of_cut hPlain hToken hPlainJoined hFirst hz
  rw [List.append_assoc] at hJoint ⊢
  have hNe := List.length_pos_iff.mpr (ne_nil_of_first hFront)
  have hLonger := List.length_pos_iff.mpr hz
  simp only [List.length_append] at hOffset hJoint
  generalize hTok : Token.mk kind (lexemeOf kind (y ++ w ++ z)) _ start spaced = tok
  have hStart : tok.span.start = p.offset := hTok ▸ rfl
  have hStop : tok.span.stop = p.offset + (y.length + w.length + z.length) := hTok ▸ hOffset
  have hCuts : Cuts p.offset (y ++ (w ++ (splice carriage ++ b))) (tok :: others) :=
    ⟨tok, List.mem_cons_self, _, hJoint, by omega, by omega⟩
  refine ⟨fun hUncut => absurd hCuts hUncut, fun _ path p' spaced tokens' hTokens' hContents => ?_⟩
  rw [ofTextAt_token hFront] at hTokens'
  obtain ⟨others', -, hTokens'⟩ := Except.bind_eq_ok_iff.mp hTokens'
  cases hTokens'
  subst hTok
  exact hContent (List.cons.inj hContents).1

/-- The tokens of a text are those of its joined text, or a line is joined within one of them and
they are others. -/
theorem compares (hPlain : t.IsQuoteFree) (hWhole : Whole t) (hOnce : joints (joined t) = [])
    (h : ofTextAt path p start spaced (joined t) = .ok tokens) :
    Compares p.offset start t tokens := by
  induction hLength : t.length using Nat.strongRecOn generalizing t p start spaced tokens with
  | _ length ih =>
      subst hLength
      have hShorter : ∀ {x b : Text} {piece : Piece}, first (x ++ b) = .ok (piece, x.length) →
          b.length < (x ++ b).length := by
        intro x b piece hFirst
        have hPos := first_pos hFirst
        rw [List.length_append]
        omega
      by_cases hNe : t = []
      · subst hNe
        rw [joined_nil, ofTextAt] at h
        cases h
        exact .nil
      cases fronts hNe hWhole hOnce with
      | @stop t hNone hJoined =>
          have hSlash : ¬ StartsSplice (.char '/' :: .char '*' :: t) :=
            not_startsSplice_of_ne (by decide)
          have hStar : ¬ StartsSplice (.char '*' :: t) := not_startsSplice_of_ne (by decide)
          rw [joined_cons hSlash, joined_cons hStar, ofTextAt, first, hJoined] at h
          cases h
      | blank hCut hFirst hJoined =>
          refine .blank hCut hFirst hJoined h fun q spaced' hRest => ?_
          rw [hCut.joined_eq] at hOnce
          exact ih _ (hShorter hFirst) hPlain.right (hCut.whole hWhole) (joints_of_append hOnce)
            hRest rfl
      | lineEnd b =>
          refine .lineEnd h fun q hRest => ?_
          have hStarts : ¬ StartsSplice (.char '\n' :: b) := not_startsSplice_of_ne (by decide)
          rw [joined_cons hStarts] at hOnce
          exact ih _ (Nat.lt_succ_self _) (hPlain.right (a := [_]))
            ((whole_cons hStarts).mp hWhole).2 (joints_of_cons hOnce) hRest rfl
      | token hToken hJoined =>
          obtain ⟨x, r, kind, hText, hFirst⟩ := exists_token_of_joined hPlain hNe hToken hJoined
          have hPlainJoined := hPlain.joined
          rw [hText] at h hOnce hPlainJoined
          rcases exists_front hText with ⟨b, rfl, rfl, hCut, hJoints⟩
            | ⟨a, z, carriage, b, rfl, hz, rfl, hJoint⟩
          · exact .token hPlain hCut hJoints hFirst h fun q others hRest =>
              ih _ (hShorter (first_of_joined hPlain hFirst)) hPlain.right (hCut.whole hWhole)
                (joints_of_append hOnce) hRest rfl
          · exact .cut hPlain hToken hJoint hPlainJoined hz hFirst h

/-- Reading gives the same tokens on the same logical lines both times, or stops both times. -/
def Alike : Except ParseError (List Token) → Except ParseError (List Token) → Prop
  | .ok xs, .ok ys => (logicalLines xs).map (·.map content) = (logicalLines ys).map (·.map content)
  | .error _, .error _ => True
  | _, _ => False

instance : (x y : Except ParseError (List Token)) → Decidable (Alike x y)
  | .ok xs, .ok ys =>
      inferInstanceAs
        (Decidable ((logicalLines xs).map (·.map content) = (logicalLines ys).map (·.map content)))
  | .error _, .error _ => .isTrue trivial
  | .ok _, .error _ => .isFalse id
  | .error _, .ok _ => .isFalse id

/-- A text without quotation marks is read like its joined text exactly if no line is joined within
a token. What is joined must not be a mark of a comment, or a line splice again. -/
theorem alike_joined_iff (path : String) (hPlain : t.IsQuoteFree) (hMarks : ¬ t.SplitsMark)
    (hOnce : t.joined.joints = []) :
    Alike (ofText path t) (ofText path t.joined) ↔ ∀ tokens, ofText path t.joined = .ok tokens →
      ∀ x ∈ tokens, ∀ n ∈ t.joints, ¬ (x.span.start < n ∧ n < x.span.stop) := by
  have hWhole := whole_of_not_splitsMark hMarks
  cases hJoined : ofText path t.joined with
  | error e =>
      refine iff_of_true ?_ nofun
      cases hText : ofText path t with
      | error e' => trivial
      | ok tokens' =>
          have hClosed :=
            closed_joined hWhole hOnce ((exists_ofText_iff path hPlain).mp ⟨tokens', hText⟩)
          obtain ⟨tokens, hTokens⟩ := (exists_ofText_iff path hPlain.joined).mpr hClosed
          rw [hJoined] at hTokens
          cases hTokens
  | ok tokens =>
      have hCompares : Compares 0 true t tokens := compares hPlain hWhole hOnce hJoined
      have hCuts : Cuts 0 t tokens ↔ ∃ x ∈ tokens, ∃ n ∈ t.joints, x.span.start < n
          ∧ n < x.span.stop := by
        simp [Cuts]
      constructor
      · intro hAlike tokens' hTokens' x hx n hn hInside
        cases hTokens'
        cases hText : ofText path t with
        | error e =>
            rw [hText] at hAlike
            exact hAlike
        | ok tokens' =>
            rw [hText] at hAlike
            refine hCompares.other (hCuts.mpr ⟨x, hx, n, hn, hInside⟩) _ _ _ tokens' hText ?_
            have hFlat := congrArg List.flatten (show _ = _ from hAlike)
            rwa [← List.map_flatten, ← List.map_flatten, flatten_logicalLines,
              flatten_logicalLines] at hFlat
      · intro hUncut
        have hNone : ¬ Cuts 0 t tokens := fun hCut => by
          obtain ⟨x, hx, n, hn, hInside⟩ := hCuts.mp hCut
          exact hUncut tokens rfl x hx n hn hInside
        obtain ⟨tokens', hTokens', hShapes⟩ := hCompares.same hNone path .start false
        rw [ofText, hTokens']
        exact map_logicalLines hShapes

/-- Line splices behind a token, in a comment and in front of a token of two characters. -/
theorem alike_joined_betweenTokens : Alike (ofText "f.cpp" "a\\\n // b\\\r\n c\n d\\\n<<e")
    (ofText "f.cpp" (Text.joined "a\\\n // b\\\r\n c\n d\\\n<<e")) := by
  refine (alike_joined_iff "f.cpp" (by decide) (by decide +kernel) (by decide +kernel)).mpr
    fun tokens hTokens => ?_
  have hTest : (ofText "f.cpp" (Text.joined "a\\\n // b\\\r\n c\n d\\\n<<e")).passes (fun tokens =>
      decide (∀ x ∈ tokens, ∀ n ∈ Text.joints "a\\\n // b\\\r\n c\n d\\\n<<e",
        ¬ (x.span.start < n ∧ n < x.span.stop))) = true := by
    decide +kernel
  rw [hTokens] at hTest
  exact of_decide_eq_true hTest

/-- A word that goes on behind a line splice is read as two. -/
theorem not_alike_joined_withinWord :
    ¬ ∀ (path : String) (t : Text), t.IsQuoteFree → Alike (ofText path t) (ofText path t.joined) :=
  fun hAll => absurd (hAll "f.cpp" "in\\\nt x;\n" (by decide)) (by decide +kernel)

end Token

end Demacro
