import Demacro.Proofs.Substitution.Filling

/-!
What the parser skips or takes without reading an expression, with tokens put in the place of names.
What decides how far it goes is never put in the place of something, and brackets in what is put
there are balanced.
-/

namespace Demacro.Expr

open Source

theorem not_isPunctIn_of_isIdentifier {t : Token} (h : t.isIdentifier = true)
    (texts : List String) : t.isPunctIn texts = false := by
  have hKind : t.kind = .identifier := by simpa [Token.isIdentifier] using h
  simp [Token.isPunctIn, Token.isPunct, hKind]

/-- A bracket is read as itself only. -/
theorem isPunct_of_operator? {t : Token} {opener closer : String}
    (hPair : (opener, closer) ∈ brackets) (h : operator? t = some opener) :
    t.isPunct opener = true := by
  have hPlain : ∀ pair ∈ brackets, '\\' ∉ pair.1.toList ∧ ∀ word ∈ Keyword.operatorWords,
    word.2 ≠ pair.1 := by decide
  simp only [operator?] at h
  split at h
  · rename_i hKind
    have hText := Text.eq_ofString_of_display (Option.some.inj h) (hPlain _ hPair).1
    simp [Token.isPunct, hKind, hText]
  · obtain ⟨words, rest, hWords, -⟩ := List.lookup_eq_some_iff.mp h
    have hMem : (t.spelling, opener) ∈ Keyword.operatorWords := by simp [hWords]
    exact absurd rfl ((hPlain _ hPair).2 _ hMem)
  · cases h

namespace Filling

variable {f : Filling} {t : Token} {ts : List Token} {s m rest : Source} {op opener closer : String}
  {i j depth : Nat}

theorem Fills.isPunct (h : f.Fills t) (text : String) : t.isPunct text = false :=
  h.isName.isPunct text

theorem not_fills_of_isPunct (h : t.isPunct op = true) : ¬f.Fills t :=
  not_fills_of_operator? (operator?_of_isPunct h)

/-- What comes next in the image is the next token, or what comes behind all. -/
theorem forall_head?_image {P : Token → Prop} (hOff : f.Off ts) (h : ∀ t ∈ ts.head?, P t)
    (hStops : ∀ t, t.isPunctIn [")", ","] = true → P t) : ∀ t ∈ (f.image ts).head?, P t := by
  intro t ht
  cases ts with
  | nil =>
      rw [image_nil] at ht
      obtain ⟨tail, hTail⟩ := List.head?_eq_some_iff.mp ht
      obtain ⟨t', ht', hPunct⟩ := f.stops (by simp [hTail])
      obtain rfl := Option.mem_unique ht ht'
      exact hStops t hPunct
  | cons t' ts =>
      rw [image_cons (hOff t' rfl)] at ht
      exact h t ht

theorem image_of_op? (h : s.op? = some op) :
    ∃ t, s.tokens = t :: s.next.tokens ∧ operator? t = some op
    ∧ f.image s.tokens = t :: f.image s.next.tokens := by
  obtain ⟨i, ts⟩ := s
  cases ts with
  | nil => cases h
  | cons t ts => exact ⟨t, rfl, h, image_cons (not_fills_of_operator? h) ts⟩

theorem op?_image (h : s.op? = some op) : (Source.mk j (f.image s.tokens)).op? = some op := by
  obtain ⟨t, -, hToken, hImage⟩ := image_of_op? (f := f) h
  rw [hImage]
  exact hToken

theorem next_image (h : s.op? = some op) :
    (Source.mk j (f.image s.tokens)).next = ⟨j + 1, f.image s.next.tokens⟩ := by
  obtain ⟨t, -, -, hImage⟩ := image_of_op? (f := f) h
  rw [hImage]
  rfl

theorem isAt_image (h : s.isAt op = true) : (Source.mk j (f.image s.tokens)).isAt op = true := by
  rw [isAt, op?_image (op?_of_isAt h), BEq.rfl]

/-- No operator comes next that did not before, but for what comes behind all. -/
theorem op?_of_image (hOff : f.Off s.tokens) (h : (Source.mk j (f.image s.tokens)).op? = some op) :
    s.op? = some op ∨ op ∈ [")", ","] := by
  have hHead := forall_head?_image (P := fun t => ∀ op, operator? t = some op → s.op? = some op
    ∨ op ∈ [")", ","]) hOff
    (fun t ht op hOp => .inl (by rw [op?, peek?, ht, Option.bind_some, hOp]))
    (fun t hPunct op hOp => .inr (by
      obtain ⟨op', hMem, hOp'⟩ := operator?_of_isPunctIn hPunct
      rw [hOp, Option.some.injEq] at hOp'
      rwa [hOp']))
  obtain ⟨t, ht, hOp⟩ := Option.bind_eq_some_iff.mp h
  exact hHead t ht op hOp

theorem isAt_image_eq_false (hOff : f.Off s.tokens) (hOp : op ∉ [")", ","])
    (h : s.isAt op = false) : (Source.mk j (f.image s.tokens)).isAt op = false := by
  refine Bool.eq_false_iff.mpr fun hNext => ?_
  have hSame := (op?_of_image hOff (op?_of_isAt hNext)).resolve_right hOp
  rw [isAt, hSame, BEq.rfl] at h
  cases h

theorem expect_image (h : s.expect op = .ok rest) :
    (Source.mk j (f.image s.tokens)).expect op = .ok ⟨j + 1, f.image rest.tokens⟩ := by
  obtain ⟨i, ts⟩ := s
  cases ts with
  | nil => cases h
  | cons t ts =>
      simp only [expect] at h
      split at h
      · rename_i hPunct
        cases h
        rw [image_cons (not_fills_of_isPunct hPunct)]
        exact if_pos hPunct
      · cases h

theorem isAtEnd_image (hOff : f.Off s.tokens) (h : s.isAtEnd = true) :
    (Source.mk j (f.image s.tokens)).isAtEnd = true := by
  have hHead := forall_head?_image
    (P := fun t => ((operator? t).any fun op => op == ")" || op == "]" || op == "," || op == ":")
      = true) hOff
    (fun t ht => by simpa [isAtEnd, peek?, Option.mem_def.mp ht] using h)
    (fun t hPunct => by
      obtain ⟨op, hOp, hToken⟩ := operator?_of_isPunctIn hPunct
      simp only [List.mem_cons, List.not_mem_nil, or_false] at hOp
      rcases hOp with rfl | rfl <;> simp [hToken])
  unfold isAtEnd peek?
  split
  · rfl
  · rename_i t ht
    exact hHead t ht

theorem strings_image {found : List Token} (h : strings i ts = (found, rest))
    (hOff : f.Off rest.tokens) :
    ∃ k, strings j (f.image ts) = (found, ⟨k, f.image rest.tokens⟩) := by
  have hStop : ∀ {j ts}, f.Off ts → (∀ t ∈ ts.head?, t.kind ≠ .string) →
      strings j (f.image ts) = ([], ⟨j, f.image ts⟩) := fun hOff hKind =>
    strings_of_head? (forall_head?_image hOff hKind fun t hPunct => by
      simp [kind_of_isPunctIn hPunct])
  induction ts generalizing found i j with
  | nil =>
      cases h
      exact ⟨j, hStop hOff (by simp)⟩
  | cons t ts ih =>
      by_cases hKind : t.kind = .string
      · have hFills : ¬f.Fills t := fun hFills => by
          rw [hFills.isName.kind] at hKind
          cases hKind
        simp only [strings, if_pos hKind, Prod.mk.injEq] at h
        obtain ⟨rfl, hRest⟩ := h
        obtain ⟨k, hFound⟩ := ih (i := i + 1) (j := j + 1) (Prod.ext rfl hRest)
        exact ⟨k, by rw [image_cons hFills, strings, if_pos hKind, hFound]⟩
      · rw [strings_of_head? (by simpa using hKind)] at h
        cases h
        exact ⟨j, hStop hOff (by simpa using hKind)⟩

theorem nameParts_image {text found : String} (hAdmits : f.Admits ts)
    (h : Source.nameParts text i ts = .ok (found, rest)) (hOff : f.Off rest.tokens) :
    ∃ k, Source.nameParts text j (f.image ts) = .ok (found, ⟨k, f.image rest.tokens⟩) := by
  have hStop : ∀ {text i j ts}, (∀ t ∈ ts.head?, operator? t ≠ some "::") →
      Source.nameParts text i ts = .ok (found, rest) →
      ∃ k, Source.nameParts text j (f.image ts) = .ok (found, ⟨k, f.image rest.tokens⟩) := by
    intro text i j ts hHead h
    rw [nameParts_of_head? hHead] at h
    cases h
    refine ⟨j, nameParts_of_head? (forall_head?_image hOff hHead fun t hPunct hScope => ?_)⟩
    obtain ⟨op, hOp, hToken⟩ := operator?_of_isPunctIn hPunct
    rw [hScope, Option.some.injEq] at hToken
    subst hToken
    simp at hOp
  induction text, i, ts using Source.nameParts.induct generalizing j with
  | case1 => exact hStop (by simp) h
  | case2 text i t hOp => simp [Source.nameParts, hOp] at h
  | case3 text i t hOp => exact hStop (by simpa using hOp) h
  | case4 text i t part ts hOp hPart ih =>
      have hScope : operator? t = some "::" := by simpa using hOp
      have hOff' : f.Off (part :: ts) := hAdmits.off (not_isPunctIn hScope (by decide))
      simp only [Source.nameParts, hOp, hPart, if_true] at h
      obtain ⟨k, hFound⟩ := ih hAdmits.tail.tail h (j := j + 2)
      refine ⟨k, ?_⟩
      rw [image_cons (not_fills_of_operator? hScope), image_cons (hOff' part rfl), Source.nameParts,
        if_pos hOp, if_pos hPart]
      exact hFound
  | case5 text i t part ts hOp hPart => simp [Source.nameParts, hOp, hPart] at h
  | case6 text i t part ts hOp => exact hStop (by simpa using hOp) h

theorem skipTypeWords_image (hAdmits : f.Admits ts) (hOff : f.Off ts) :
    ∃ k, skipTypeWords j (f.image ts) = ⟨k, f.image (skipTypeWords i ts).tokens⟩
      ∧ f.Off (skipTypeWords i ts).tokens := by
  have hStop : ∀ {i j ts}, f.Off ts → (∀ t ∈ ts.head?,
      (t.isIdentifier || operator? t == some "::" || operator? t == some "*") = false) →
      ∃ k, skipTypeWords j (f.image ts) = ⟨k, f.image (skipTypeWords i ts).tokens⟩
        ∧ f.Off (skipTypeWords i ts).tokens := by
    intro i j ts hOff hHead
    rw [skipTypeWords_of_head? hHead]
    refine ⟨j, skipTypeWords_of_head? (forall_head?_image hOff hHead fun t hPunct => ?_), hOff⟩
    obtain ⟨op, hOp, hToken⟩ := operator?_of_isPunctIn hPunct
    have hIdentifier : t.isIdentifier = false := by
      by_contra hName
      rw [not_isPunctIn_of_isIdentifier (eq_true_of_ne_false hName)] at hPunct
      cases hPunct
    simp only [List.mem_cons, List.not_mem_nil, or_false] at hOp
    rcases hOp with rfl | rfl <;> simp [hIdentifier, hToken]
  induction ts generalizing i j with
  | nil => exact hStop hOff (by simp)
  | cons t ts ih =>
      by_cases hWord : (t.isIdentifier || operator? t == some "::" || operator? t == some "*")
        = true
      · have hOther : t.isPunctIn ["(", ","] = false := by
          simp only [Bool.or_eq_true, beq_iff_eq] at hWord
          rcases hWord with (hIdentifier | hScope) | hPointer
          · exact not_isPunctIn_of_isIdentifier hIdentifier _
          · exact not_isPunctIn hScope (by decide)
          · exact not_isPunctIn hPointer (by decide)
        obtain ⟨k, hRest, hOff'⟩ := ih (i := i + 1) (j := j + 1) hAdmits.tail (hAdmits.off hOther)
        refine ⟨k, ?_, ?_⟩
        · rw [image_cons (hOff t rfl), skipTypeWords, if_pos hWord, hRest, skipTypeWords,
            if_pos hWord]
        · rwa [skipTypeWords, if_pos hWord]
      · exact hStop hOff (by simpa using hWord)

/-- Balanced tokens are skipped within a group. -/
theorem skipBalanced_append {xs : List Token} {open_ : Nat}
    (h : nests opener closer open_ xs = true) (hDepth : 0 < depth) (ys : List Token) (j : Nat) :
    skipBalanced opener closer (depth + open_) j (xs ++ ys) = skipBalanced opener closer depth
      (j + xs.length) ys := by
  induction xs generalizing open_ j with
  | nil =>
      obtain rfl : open_ = 0 := by simpa [nests] using h
      rfl
  | cons t xs ih =>
      have hIndex : j + (t :: xs).length = j + 1 + xs.length := by
        rw [List.length_cons]
        omega
      rw [nests] at h
      rw [List.cons_append, skipBalanced, hIndex]
      split at h
      · rename_i hOpen
        rw [if_pos hOpen]
        exact ih h (j + 1)
      rename_i hOpen
      split at h
      · rename_i hClose
        simp only [Bool.and_eq_true, bne_iff_ne] at h
        have hRest := ih h.2 (j + 1)
        rw [if_neg hOpen, if_pos hClose, if_neg (by omega), ← hRest]
        congr 1
        omega
      · rename_i hClose
        rw [if_neg hOpen, if_neg hClose]
        exact ih h (j + 1)

theorem skipBalanced_image (hPair : (opener, closer) ∈ brackets)
    (hBalanced : ∀ p ∈ f.names, Balanced (f.tokens p)) (hDepth : 0 < depth)
    (h : skipBalanced opener closer depth i ts = .ok rest) :
    ∃ k, skipBalanced opener closer depth j (f.image ts) = .ok ⟨k, f.image rest.tokens⟩ := by
  induction ts generalizing depth i j with
  | nil => cases h
  | cons t ts ih =>
      by_cases hFills : f.Fills t
      · rw [skipBalanced, hFills.isPunct, hFills.isPunct] at h
        rw [image_cons_of_fills hFills]
        obtain ⟨k, hRest⟩ := ih hDepth (i := i + 1) h (j := j + (f.tokens t.spelling).length)
        exact ⟨k, (skipBalanced_append (hBalanced _ hFills.2 _ hPair) hDepth _ j).trans hRest⟩
      rw [image_cons hFills, skipBalanced]
      simp only [skipBalanced] at h
      split at h
      · rename_i hOpen
        rw [if_pos hOpen]
        exact ih (Nat.succ_pos depth) h
      rename_i hOpen
      rw [if_neg hOpen]
      split at h
      · rename_i hClose
        rw [if_pos hClose]
        split at h
        · rename_i hLast
          cases h
          exact ⟨j + 1, if_pos hLast⟩
        · rename_i hLast
          rw [if_neg hLast]
          exact ih (by omega) h
      · rename_i hClose
        rw [if_neg hClose]
        exact ih hDepth h

theorem skipGroup_image (hPair : (opener, closer) ∈ brackets)
    (hBalanced : ∀ p ∈ f.names, Balanced (f.tokens p)) (hOpen : s.isAt opener = true)
    (h : s.skipGroup opener closer = .ok rest) :
    ∃ k, (Source.mk j (f.image s.tokens)).skipGroup opener closer = .ok ⟨k,
      f.image rest.tokens⟩ := by
  obtain ⟨t, hTokens, hToken, hImage⟩ := image_of_op? (f := f) (op?_of_isAt hOpen)
  have hPunct := isPunct_of_operator? hPair hToken
  rw [skipGroup, hTokens, skipBalanced, if_pos hPunct] at h
  obtain ⟨k, hRest⟩ := skipBalanced_image hPair hBalanced (Nat.succ_pos 0) h (j := j + 1)
  exact ⟨k, by rw [skipGroup, hImage, skipBalanced, if_pos hPunct, hRest]⟩

/-- A group ends with the bracket that closes it. -/
theorem off_of_skipBalanced (hPair : (opener, closer) ∈ brackets) (hAdmits : f.Admits ts)
    (h : skipBalanced opener closer depth i ts = .ok rest) : f.Off rest.tokens := by
  have hCloses : ∀ pair ∈ brackets, pair.2 ∉ ["(", ","] := by decide
  induction ts generalizing depth i with
  | nil => cases h
  | cons t ts ih =>
      simp only [skipBalanced] at h
      split at h
      · exact ih hAdmits.tail h
      split at h
      · rename_i hClose
        split at h
        · cases h
          exact hAdmits.off (not_isPunctIn (operator?_of_isPunct hClose) (hCloses _ hPair))
        · exact ih hAdmits.tail h
      · exact ih hAdmits.tail h

theorem pastGroup_image (hPair : (opener, closer) ∈ brackets)
    (hBalanced : ∀ p ∈ f.names, Balanced (f.tokens p)) (hAdmits : f.Admits s.tokens)
    (hOff : f.Off s.tokens) (h : pastGroup opener closer s = .ok rest) :
    (∃ k, pastGroup opener closer ⟨j, f.image s.tokens⟩ = .ok ⟨k, f.image rest.tokens⟩)
    ∧ f.Off rest.tokens := by
  have hOpens : ∀ pair ∈ brackets, pair.1 ∉ [")", ","] := by decide
  unfold pastGroup at h ⊢
  split at h
  · rename_i hOpen
    rw [if_pos (isAt_image hOpen)]
    exact ⟨skipGroup_image hPair hBalanced hOpen h, off_of_skipBalanced hPair hAdmits h⟩
  · rename_i hOpen
    cases h
    rw [isAt_image_eq_false hOff (hOpens _ hPair) (by simpa using hOpen)]
    exact ⟨⟨j, rfl⟩, hOff⟩

theorem skipAllocation_image (hBalanced : ∀ p ∈ f.names, Balanced (f.tokens p))
    (hAdmits : f.Admits s.tokens) (hOff : f.Off s.tokens) (h : s.skipAllocation = .ok rest) :
    ∃ k, (Source.mk j (f.image s.tokens)).skipAllocation = .ok ⟨k, f.image rest.tokens⟩ := by
  rw [skipAllocation_eq] at h
  obtain ⟨placed, hPlaced, h⟩ := Except.bind_eq_ok_iff.mp h
  obtain ⟨sized, hSized, h⟩ := Except.bind_eq_ok_iff.mp h
  have hAdmitsPlaced := hAdmits.of_leads (isLocal_pastGroup _ _ hPlaced).leads
  have hAdmitsTyped := hAdmitsPlaced.of_leads (isLocal_skipTypeWords (s := placed) rfl).leads
  have hAdmitsSized := hAdmitsTyped.of_leads (isLocal_pastGroup _ _ hSized).leads
  obtain ⟨⟨j', hPlaced'⟩, hOffPlaced⟩ :=
    pastGroup_image (j := j) (by decide) hBalanced hAdmits hOff hPlaced
  obtain ⟨l, hTyped', hOffTyped⟩ := skipTypeWords_image (i := placed.index) (j :=
    j') hAdmitsPlaced hOffPlaced
  obtain ⟨⟨m, hSized'⟩, hOffSized⟩ :=
    pastGroup_image (j := l) (by decide) hBalanced hAdmitsTyped hOffTyped hSized
  rw [← hTyped'] at hSized'
  simp only [skipAllocation_eq, Except.bind_eq_ok_iff]
  split at h
  · rename_i hOpen
    obtain ⟨k, hRest⟩ := skipGroup_image (j := m) (by decide) hBalanced hOpen h
    exact ⟨k, _, hPlaced', _, hSized', (if_pos (isAt_image hOpen)).trans hRest⟩
  · rename_i hOpen
    have hNext : (Source.mk m (f.image sized.tokens)).isAt "(" = false :=
      isAt_image_eq_false hOffSized (by decide) (by simpa using hOpen)
    obtain ⟨⟨k, hRest⟩, -⟩ :=
      pastGroup_image (j := m) (by decide) hBalanced hAdmitsSized hOffSized h
    exact ⟨k, _, hPlaced', _, hSized', (if_neg (Bool.eq_false_iff.mp hNext)).trans hRest⟩

theorem typeWords?_image {words found : List String}
    (h : typeWords? words i ts = some (found, rest)) :
    ∃ k, typeWords? words j (f.image ts) = some (found, ⟨k, f.image rest.tokens⟩) := by
  induction ts generalizing words i j with
  | nil => cases h
  | cons t ts ih =>
      have hFills : ¬f.Fills t := fun hFills => by
        rw [typeWords?, hFills.isPunct, hFills.isName.not_typeWord] at h
        cases h
      rw [image_cons hFills, typeWords?]
      rw [typeWords?] at h
      split at h
      · rename_i hClose
        cases h
        exact ⟨j + 1, if_pos hClose⟩
      rename_i hClose
      split at h
      · rename_i hWord
        rw [if_neg hClose, if_pos hWord]
        exact ih h
      · cases h

/-- The words of a type are not put in the place of something, and neither is what the cast is
applied to. -/
theorem castType?_image {type : Text} (h : (Source.mk i (t :: ts)).castType? = some (type, rest)) :
    ∃ k, (Source.mk j (t :: f.image ts)).castType? = some (type, ⟨k, f.image rest.tokens⟩) := by
  unfold castType? at h ⊢
  simp only [List.drop_one, List.tail_cons] at h ⊢
  split at h
  · rename_i words m hWords
    obtain ⟨k, hWords'⟩ := typeWords?_image (f := f) (j := j + 1) hWords
    split at h
    · rename_i hType
      cases h
      obtain ⟨hAny, hRest⟩ := Bool.and_eq_true_iff.mp hType
      have hNonempty : (f.image rest.tokens).isEmpty = false :=
        List.isEmpty_eq_false_iff.mpr (image_ne_nil (by simpa using hRest))
      exact ⟨k, by simp only [hWords', hAny, hNonempty, Bool.not_false, Bool.and_self, if_true]⟩
    · cases h
  · cases h

/-- The parenthesis behind the words of a type is closed. -/
theorem off_of_typeWords? {words found : List String} (hAdmits : f.Admits ts)
    (h : typeWords? words i ts = some (found, rest)) : f.Off rest.tokens := by
  induction ts generalizing words i with
  | nil => cases h
  | cons t ts ih =>
      rw [typeWords?] at h
      split at h
      · rename_i hClose
        cases h
        exact hAdmits.off (not_isPunctIn (operator?_of_isPunct hClose) (by decide))
      split at h
      · exact ih hAdmits.tail h
      · cases h

theorem off_of_castType? {type : Text} (hAdmits : f.Admits (t :: ts))
    (h : (Source.mk i (t :: ts)).castType? = some (type, rest)) : f.Off rest.tokens := by
  unfold castType? at h
  split at h
  · rename_i words m hWords
    split at h
    · cases h
      exact off_of_typeWords? hAdmits.tail hWords
    · cases h
  · cases h

/-- The only marks of a type are those of pointers and references. -/
theorem mem_marks_of_isPunct
    (hType : (t.isIdentifier && (Keyword.arithmeticTypes.contains t.spelling
      || Keyword.typeQualifiers.contains t.spelling) || t.isPunctIn ["*", "&"]) = true)
    (h : t.isPunct op = true) : op ∈ ["*", "&"] := by
  have hKind := kind_of_isPunct h
  have hMark : t.isPunctIn ["*", "&"] = true := by simpa [Token.isIdentifier, hKind] using hType
  obtain ⟨mark, hMark, hToken⟩ := operator?_of_isPunctIn hMark
  rw [operator?_of_isPunct h, Option.some.injEq] at hToken
  rwa [hToken]

/-- A word or mark of a type that is no arithmetic type names none. -/
theorem not_any_arithmetic {words : List String}
    (hWords : words.any Keyword.arithmeticTypes.contains = false)
    (hType : (t.isIdentifier && (Keyword.arithmeticTypes.contains t.spelling
      || Keyword.typeQualifiers.contains t.spelling) || t.isPunctIn ["*", "&"]) = true)
    (h : t.isIdentifier = true → t.spelling ∉ Keyword.arithmeticTypes) :
    (words ++ [t.spelling]).any Keyword.arithmeticTypes.contains = false := by
  have hOther : t.spelling ∉ Keyword.arithmeticTypes := by
    by_cases hName : t.isIdentifier = true
    · exact h hName
    have hMarks : ∀ op ∈ ["*", "&"], op ∉ Keyword.arithmeticTypes := by decide
    have hMark : t.isPunctIn ["*", "&"] = true := by simpa [hName] using hType
    obtain ⟨op, hOp, hPunct⟩ := List.any_eq_true.mp hMark
    obtain ⟨-, hLexeme⟩ : t.kind = .punctuator ∧ t.lexeme = Text.ofString op := by
      simpa [Token.isPunct] using hPunct
    rw [Token.spelling, hLexeme, Text.display_ofString]
    exact hMarks op hOp
  simp [hWords, hOther]

/-- Tokens without the words of an arithmetic type make no cast before a parenthesis is closed. -/
theorem typeWords?_of_typeless {words found : List String} {xs ys : List Token} (hys : Stops ys)
    (hxs : ∀ t ∈ xs, t.isIdentifier = true → t.spelling ∉ Keyword.arithmeticTypes)
    (hWords : words.any Keyword.arithmeticTypes.contains = false)
    (h : typeWords? words i (xs ++ ys) = some (found, rest)) :
    found.any Keyword.arithmeticTypes.contains = false := by
  induction xs generalizing words i with
  | nil =>
      obtain ⟨t, hHead, hPunct⟩ := hys
      obtain ⟨ys, rfl⟩ := List.head?_eq_some_iff.mp hHead
      rw [List.nil_append, typeWords?] at h
      split at h
      · cases h
        exact hWords
      rename_i hClose
      split at h
      · rename_i hType
        have hMarks : ∀ op ∈ [")", ","], op ∉ ["*", "&"] := by decide
        obtain ⟨op, hOp, hToken⟩ := List.any_eq_true.mp hPunct
        exact absurd (mem_marks_of_isPunct hType hToken) (hMarks op hOp)
      · cases h
  | cons t xs ih =>
      rw [List.cons_append, typeWords?] at h
      split at h
      · cases h
        exact hWords
      split at h
      · rename_i hType
        exact ih (fun t ht => hxs t (List.mem_cons_of_mem _ ht))
          (not_any_arithmetic hWords hType (hxs t List.mem_cons_self)) h
      · cases h

theorem stops_image (h : Stops ts) : Stops (f.image ts) := by
  obtain ⟨t, hHead, hPunct⟩ := h
  obtain ⟨ts, rfl⟩ := List.head?_eq_some_iff.mp hHead
  obtain ⟨op, -, hToken⟩ := operator?_of_isPunctIn hPunct
  exact ⟨t, by rw [image_cons (not_fills_of_operator? hToken)]; rfl, hPunct⟩

/-- The words of a type in the image, before something else, are so in the tokens themselves. -/
theorem typeWords?_of_image {words found : List String} (hAdmits : f.Admits ts) (hOff : f.Off ts)
    (hWords : f.tail ≠ [] → words.any Keyword.arithmeticTypes.contains = false)
    (h : typeWords? words j (f.image ts) = some (found, rest))
    (hFound : found.any Keyword.arithmeticTypes.contains = true) (hRest : rest.tokens ≠ []) :
    ∃ m, typeWords? words i ts = some (found, m) ∧ m.tokens ≠ [] := by
  induction ts generalizing words i j with
  | nil =>
      rw [image_nil] at h
      by_cases hTail : f.tail = []
      · rw [hTail] at h
        cases h
      · rw [← List.nil_append f.tail] at h
        rw [typeWords?_of_typeless (f.stops hTail) (fun t ht => absurd ht List.not_mem_nil)
          (hWords hTail) h] at hFound
        cases hFound
  | cons t ts ih =>
      rw [image_cons (hOff t rfl), typeWords?] at h
      rw [typeWords?]
      split at h
      · rename_i hClose
        cases h
        refine ⟨_, if_pos hClose, ?_⟩
        rintro rfl
        rw [hWords hRest] at hFound
        cases hFound
      rename_i hClose
      split at h
      · rename_i hType
        rw [if_neg hClose, if_pos hType]
        have hOther : t.isPunctIn ["(", ","] = false := by
          have hMarks : ∀ op ∈ ["(", ","], op ∉ ["*", "&"] := by decide
          by_contra hPunct
          obtain ⟨op, hOp, hToken⟩ := List.any_eq_true.mp (eq_true_of_ne_false hPunct)
          exact hMarks op hOp (mem_marks_of_isPunct hType hToken)
        refine ih hAdmits.tail (hAdmits.off hOther) (fun hTail => ?_) h
        exact not_any_arithmetic (hWords hTail) hType (hAdmits.noCast hTail t List.mem_cons_self)
      · cases h

theorem castType?_image_eq_none (hAdmits : f.Admits (t :: ts))
    (hNone : (Source.mk i (t :: ts)).castType? = none) :
    (Source.mk j (t :: f.image ts)).castType? = none := by
  by_contra hSome
  obtain ⟨⟨type, rest⟩, hType⟩ := Option.ne_none_iff_exists'.mp hSome
  unfold castType? at hType hNone
  simp only [List.drop_one, List.tail_cons] at hType hNone
  split at hType
  · rename_i words m hWords
    split at hType
    · rename_i hAny
      obtain ⟨hFound, hRest⟩ := Bool.and_eq_true_iff.mp hAny
      by_cases hOff : f.Off ts
      · obtain ⟨m', hWords', hRest'⟩ := typeWords?_of_image (i := i + 1) hAdmits.tail hOff
          (fun _ => rfl) hWords hFound (by simpa using hRest)
        have hNonempty : m'.tokens.isEmpty = false := by simpa using hRest'
        simp [hWords', hFound, hNonempty] at hNone
      · obtain ⟨b, hHead, hFills⟩ : ∃ b ∈ ts.head?, f.Fills b := by simpa [Off] using hOff
        obtain ⟨ts, rfl⟩ := List.head?_eq_some_iff.mp hHead
        rw [image_cons_of_fills hFills] at hWords
        have hStops := stops_image (f := f) (hAdmits.tail.stops hFills)
        rw [typeWords?_of_typeless hStops (f.typeless _ hFills.2) rfl hWords] at hFound
        cases hFound
    · cases hType
  · cases hType

theorem isPlain_image (hAdmits : f.Admits s.tokens) (hOff : f.Off s.tokens) (h : s.IsPlain) :
    (Source.mk j (f.image s.tokens)).IsPlain := by
  obtain ⟨t, hPeek, hHead, hCast⟩ := h
  obtain ⟨i, ts⟩ := s
  obtain ⟨ts, rfl⟩ := List.head?_eq_some_iff.mp hPeek
  rw [image_cons (hOff t rfl)]
  exact ⟨t, rfl, hHead, fun hOpen => castType?_image_eq_none hAdmits (hCast hOpen)⟩

end Filling

end Demacro.Expr
