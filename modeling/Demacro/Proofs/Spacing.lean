import Demacro.Proofs.Inclusion
import Demacro.Proofs.InForce
import Demacro.Proofs.Lines
import Demacro.Usage
import Mathlib.Data.List.Flatten

/-!
The room that tokens take in their files. The tokens of one text take apart ranges, and so do the
tokens of a file that is scanned once, wherever they stand in the unit.
-/

namespace Demacro

namespace Token

variable {path : String} {p : Cursor} {atLineStart spaced : Bool} {t : Text} {tokens : List Token}

/-- Each token of a text ends in front of the next one. -/
theorem apart_of_ofTextAt (h : ofTextAt path p atLineStart spaced t = .ok tokens) :
    (∀ x ∈ tokens, p.offset ≤ x.span.start ∧ x.span.start < x.span.stop)
      ∧ tokens.Pairwise (·.span.stop ≤ ·.span.start) := by
  fun_induction ofTextAt path p atLineStart spaced t generalizing tokens with
  | case1 =>
      cases h
      exact ⟨fun _ hx => absurd hx List.not_mem_nil, .nil⟩
  | case2 => cases h
  | case3 p atLineStart spaced c t n text rest next hFirst
  | case4 p atLineStart spaced c t n text rest next hFirst =>
      rename_i ih
      obtain ⟨hPlaces, hOrder⟩ := ih h
      refine ⟨fun x hx => ?_, hOrder⟩
      obtain ⟨hStart, hStop⟩ := hPlaces x hx
      have hNext : next.offset = p.offset + text.length := p.offset_past text
      exact ⟨by omega, hStop⟩
  | case5 p atLineStart spaced c t n text rest next kind lexeme hFirst =>
      rename_i ih
      obtain ⟨others, hOthers, h⟩ := Except.bind_eq_ok_iff.mp h
      cases h
      obtain ⟨hPlaces, hOrder⟩ := ih hOthers
      have hNext : next.offset = p.offset + text.length := p.offset_past text
      have hLength : 0 < text.length := by
        have hPos := Piece.first_token_pos hFirst
        simp only [text, List.length_take, List.length_cons]
        omega
      refine ⟨fun x hx => ?_, .cons (fun x hx => (hPlaces x hx).1) hOrder⟩
      rcases List.mem_cons.mp hx with rfl | hx
      · exact ⟨Nat.le_refl _, by dsimp only; omega⟩
      · obtain ⟨hStart, hStop⟩ := hPlaces x hx
        exact ⟨by omega, hStop⟩

end Token

namespace CompilationUnit

variable {u : CompilationUnit} {t t' m : PlacedToken} {n : Nat} {reach : Reachability}
  {tokens : List Token} {lines : List UnitLine}

theorem placeTokens_pairwise : (placeTokens n reach tokens).Pairwise (·.position < ·.position) := by
  induction tokens generalizing n with
  | nil => exact .nil
  | cons token tokens ih => exact .cons (fun x hx => (of_mem_placeTokens hx).2.1) ih

/-- The tokens of a unit stand one behind the other. -/
theorem tokens_pairwise (u : CompilationUnit) : u.tokens.Pairwise (·.position < ·.position) := by
  refine List.pairwise_flatMap.mpr ⟨fun _ _ => placeTokens_pairwise, ?_⟩
  refine (numbered_pairwise 0 u.lines).imp fun {l l'} hLess x hx y hy => ?_
  obtain ⟨-, -, hx⟩ := of_mem_placeTokens hx
  obtain ⟨-, hy, -⟩ := of_mem_placeTokens hy
  rw [List.length_cons] at hx
  omega

/-- So do the tokens of its compiled code. -/
theorem liveCode_pairwise (u : CompilationUnit) :
    (UsageIndex.liveCode u).Pairwise (·.position < ·.position) := by
  have hCode : u.codeTokens.Sublist u.tokens := by
    refine List.Sublist.flatMap_right _ fun l _ => ?_
    dsimp only
    split
    · exact List.Sublist.refl _
    · exact List.nil_sublist _
  exact ((tokens_pairwise u).sublist hCode).filter _

theorem mem_tokens_of_mem_codeTokens (h : t ∈ u.codeTokens) : t ∈ u.tokens := by
  obtain ⟨l, hl, ht⟩ := List.mem_flatMap.mp h
  dsimp only at ht
  split at ht
  · exact List.mem_flatMap.mpr ⟨l, hl, ht⟩
  · cases ht

/-- One token stands at a position. -/
theorem eq_of_position_eq (ht : t ∈ u.tokens) (ht' : t' ∈ u.tokens) (h : t.position = t'.position) :
    t = t' := by
  by_contra hNe
  rcases (tokens_pairwise u).or_of_ne ht ht' hNe with hLess | hLess <;> omega

/-- The last token of a line has the last position of the line. -/
theorem getLastD_mem_placeTokens (n : Nat) (reach : Reachability) (first : Token)
    (rest : List Token) :
    ∃ t ∈ placeTokens n reach (first :: rest), t.toToken = rest.getLastD first
    ∧ t.position = n + rest.length := by
  induction rest generalizing n first with
  | nil => exact ⟨_, List.mem_cons_self, rfl, rfl⟩
  | cons next rest ih =>
      obtain ⟨t, ht, hToken, hPosition⟩ := ih (n + 1) next
      refine ⟨t, List.mem_cons_of_mem _ ht, ?_, ?_⟩
      · rw [hToken, List.getLastD_cons]
      · rw [hPosition, List.length_cons]
        omega

/-- The file is scanned once, or not at all: its tokens in the unit are those of a text. -/
def ScannedOnce (u : CompilationUnit) (path : String) : Prop :=
  ∃ text, Token.ofText path text
    = .ok ((u.tokens.filter (·.span.path == path)).map PlacedToken.toToken)

/-- If all of a unit is one text, no file is scanned twice. -/
theorem scannedOnce_of_single {file : String} {text : Text}
    (hFile : ∀ t ∈ u.tokens, t.span.path = file)
    (hText : (Token.ofText file text).toOption = some (u.tokens.map PlacedToken.toToken))
    (path : String) : u.ScannedOnce path := by
  by_cases hPath : path = file
  · refine ⟨text, ?_⟩
    rw [hPath, List.filter_eq_self.mpr fun t ht => by simp [hFile t ht]]
    cases hTokens : Token.ofText file text with
    | error fault =>
        rw [hTokens] at hText
        cases hText
    | ok tokens =>
        rw [hTokens] at hText
        cases hText
        rfl
  · refine ⟨[], ?_⟩
    rw [List.filter_eq_nil_iff.mpr fun t ht => by simp [hFile t ht, Ne.symm hPath]]
    simp [Token.ofText, Token.ofTextAt]

/-- In a file that is scanned once, tokens take apart ranges. -/
theorem ScannedOnce.stop_le_start {path : String} (h : u.ScannedOnce path) (ht : t ∈ u.tokens)
    (ht' : t' ∈ u.tokens) (hPath : t.span.path = path) (hPath' : t'.span.path = path)
    (hLess : t.position < t'.position) : t.span.stop ≤ t'.span.start := by
  obtain ⟨text, hText⟩ := h
  have hApart := (List.pairwise_map.mp (Token.apart_of_ofTextAt hText).2).and
    ((tokens_pairwise u).filter (·.span.path == path))
  have hNe : t ≠ t' := fun hSame => Nat.ne_of_lt hLess (congrArg _ hSame)
  rcases hApart.or_of_ne (List.mem_filter.mpr ⟨ht, by simpa using hPath⟩)
    (List.mem_filter.mpr ⟨ht', by simpa using hPath'⟩) hNe with ⟨hLe, -⟩ | ⟨-, hMore⟩
  · exact hLe
  · exact absurd hMore (Nat.not_lt_of_lt hLess)

/-- A token takes some room. -/
theorem ScannedOnce.start_lt_stop {path : String} (h : u.ScannedOnce path) (ht : t ∈ u.tokens)
    (hPath : t.span.path = path) : t.span.start < t.span.stop := by
  obtain ⟨text, hText⟩ := h
  refine ((Token.apart_of_ofTextAt hText).1 t.toToken (List.mem_map_of_mem ?_)).2
  exact List.mem_filter.mpr ⟨ht, by simpa using hPath⟩

/-- A range goes from one token up to another one of the same file, which may be the same token. -/
structure Covers (u : CompilationUnit) (x : Extent) (t t' : PlacedToken) : Prop where
  first : t ∈ u.tokens
  last : t' ∈ u.tokens
  le : t.position ≤ t'.position
  firstPath : t.span.path = x.path
  lastPath : t'.span.path = x.path
  start : x.start = t.span.start
  stop : x.stop = t'.span.stop

namespace Covers

variable {x y : Extent} {s s' : PlacedToken}

/-- What covers tokens takes some room. -/
theorem lt (h : u.Covers x t t') (hOnce : u.ScannedOnce x.path) : x.start < x.stop := by
  have hFirst := hOnce.start_lt_stop h.first h.firstPath
  rw [h.start, h.stop]
  rcases Nat.eq_or_lt_of_le h.le with hSame | hLess
  · obtain rfl := eq_of_position_eq h.first h.last hSame
    exact Int.ofNat_lt.mpr hFirst
  · have hApart := hOnce.stop_le_start h.first h.last h.firstPath h.lastPath hLess
    have hLast := hOnce.start_lt_stop h.last h.lastPath
    omega

/-- Ranges of tokens that follow each other are apart. -/
theorem stop_le_start (h : u.Covers x t t') (h' : u.Covers y s s') (hOnce : u.ScannedOnce x.path)
    (hPath : x.path = y.path) (hLess : t'.position < s.position) : x.stop ≤ y.start := by
  rw [h.stop, h'.start]
  exact Int.ofNat_le.mpr (hOnce.stop_le_start h.last h'.first h.lastPath
    (h'.firstPath.trans hPath.symm) hLess)

/-- The end of a token that stands outside, or at the end, is not inside the range. -/
theorem outside (h : u.Covers x t t') (hOnce : u.ScannedOnce x.path) (hm : m ∈ u.tokens)
    (hPath : m.span.path = x.path) (hOutside : m.position < t.position ∨ t'.position ≤ m.position) :
    (m.span.stop : Int) ≤ x.start ∨ x.stop ≤ m.span.stop := by
  rcases hOutside with hBefore | hBehind
  · refine .inl ?_
    rw [h.start]
    exact Int.ofNat_le.mpr (hOnce.stop_le_start hm h.first hPath h.firstPath hBefore)
  · refine .inr ?_
    rw [h.stop]
    rcases Nat.eq_or_lt_of_le hBehind with hSame | hLess
    · obtain rfl := eq_of_position_eq h.last hm hSame
      exact Int.le_refl _
    · have hApart := hOnce.stop_le_start h.last hm h.lastPath hPath hLess
      have hRoom := hOnce.start_lt_stop hm hPath
      omega

end Covers

/-- A macro directive covers the tokens of its line. -/
theorem exists_covers_of_mem_events {path : String} {text : Text} {search : Option IncludeSearch}
    (hRead : read path text search = .ok u) {e : Event} (he : e ∈ u.events) :
    ∃ t t', u.Covers (Proposal.extentOf e.directive.span) t t' ∧ t.position = e.position
      ∧ t'.position = e.lastPosition := by
  obtain ⟨l, hl, hWritten, hPosition, hLastPosition, hLine⟩ := exists_written_of_mem_events hRead he
  obtain ⟨path, text, tokens, hTokens, hMem⟩ := hWritten.inText
  have hPath : ∀ t ∈ l.2.first :: l.2.rest, t.span.path = path := fun t ht =>
    ((Token.pairwise_of_ofTextAt hTokens).1 t (Token.mem_of_mem_logicalLines hMem ht)).1
  have hInUnit : ∀ t ∈ placeTokens l.1 l.2.reachability (l.2.first :: l.2.rest), t ∈ u.tokens :=
    fun t ht => List.mem_flatMap.mpr ⟨l, hl, ht⟩
  obtain ⟨t', ht', hLast, hPosition'⟩ := getLastD_mem_placeTokens l.1 l.2.reachability
    l.2.first l.2.rest
  have hLastPath : t'.span.path = path := by
    rw [hLast]
    exact hPath _ List.getLastD_mem_cons
  have hFirstPath := hPath l.2.first List.mem_cons_self
  rw [(Directive.ofLine?_eq_ok hLine).1]
  refine ⟨_, t', ⟨hInUnit _ List.mem_cons_self, hInUnit t' ht', ?_, rfl, ?_, rfl, ?_⟩,
    hPosition.symm, ?_⟩
  · rw [hPosition']
    exact Nat.le_add_right _ _
  · exact hLastPath.trans hFirstPath.symm
  · rw [hLast]
    rfl
  · rw [hPosition', hLastPosition]

end CompilationUnit

end Demacro
