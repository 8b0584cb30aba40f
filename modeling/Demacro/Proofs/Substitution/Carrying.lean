import Demacro.Proofs.Substitution.Steps

/-!
Reading the image. What the rules read from some tokens they read from the image as well, with the
expressions that are put there in the place of the names.
-/

namespace Demacro.Expr

open Source

/-- A closing parenthesis is no word. -/
theorem operator?_ne_closing {t : Token} (h : t.kind ≠ .punctuator) : operator? t ≠ some ")" := by
  have hWords : ∀ word ∈ Keyword.operatorWords, word.2 ≠ ")" := by decide
  intro hClose
  simp only [operator?] at hClose
  split at hClose
  · exact h ‹_›
  · obtain ⟨words, rest, hSplit, -⟩ := List.lookup_eq_some_iff.mp hClose
    exact hWords (t.spelling, ")") (by simp [hSplit]) rfl
  · cases hClose

/-- No expression starts with a closing parenthesis. -/
theorem Parses.not_closed {g : Goal} {s rest : Source} {es : List Expr} (h : Parses g s es rest)
    (hGoal : g.IsSingle) : s.isAt ")" = false := by
  have hOther : ∀ {i t ts}, operator? t ≠ some ")" → (Source.mk i (t :: ts)).isAt ")" = false :=
      fun hToken =>
    beq_eq_false_iff_ne.mpr hToken
  have hWord : ∀ {i t ts}, t.isIdentifier = true → (Source.mk i (t :: ts)).isAt ")" = false :=
      fun hName =>
    hOther (operator?_ne_closing
      (by simp only [Token.isIdentifier, beq_iff_eq] at hName; simp [hName]))
  have hPunct : ∀ {i t ts op}, t.isPunct op = true → op ≠ ")" →
      (Source.mk i (t :: ts)).isAt ")" = false :=
    fun hToken hOp => hOther (by simpa [operator?_of_isPunct hToken] using hOp)
  induction h with
  | expression _ _ ih | assign _ _ _ _ ih | unassigned _ _ _ ih | conditional _ _ _ _ _ ih
      | unconditional _ _ ih
    | binary _ _ ih | simple _ _ _ ih => exact ih trivial
  | noItem | item | lastOperand | operand | lastSuffix | suffix | bracket | noArguments
      | arguments => cases hGoal
  | atom hAtom =>
      cases hAtom with
      | raise hHead => exact hWord (isIdentifier_of_isNamed hHead)
      | measure hHead => exact hWord (isIdentifier_of_head (.inl hHead))
      | allocate hHead => exact hWord (isIdentifier_of_head (.inr (.inl hHead)))
      | constant hKind =>
          exact hOther (operator?_ne_closing (by rcases hKind with hKind | hKind <;> simp [hKind]))
      | strings hKind => exact hOther (operator?_ne_closing (by simp [hKind]))
      | name hHead => exact hWord hHead
      | qualified hHead => exact hPunct hHead (by decide)
  | prefixed hPrefix =>
      cases hPrefix with
      | throw hHead => exact hWord (isIdentifier_of_isNamed hHead)
      | operator hHead =>
          obtain ⟨symbol, hSymbol, hOp⟩ := head_eq_operator hHead
          refine hOther fun hClose => ?_
          rw [hSymbol, Option.some.injEq] at hClose
          subst hClose
          cases hOp
      | measure hHead => exact hWord (isIdentifier_of_head (.inl hHead))
      | free hHead | freeAll hHead => exact hWord (isIdentifier_of_head (.inr (.inr hHead)))
      | cast hHead => exact hPunct hHead (by decide)
  | enclosed hOpening =>
      cases hOpening with
      | paren hHead => exact hPunct hHead (by decide)
      | cast hHead => exact hWord hHead

namespace Filling

/-- A goal for the image, and the one for the tokens that it stands for. -/
def Suits (f : Filling) (goal : Goal) : Goal → Prop
  | .operands least _ left =>
    ∃ start' left', goal = .operands least start' left' ∧ left'.bare = graft f.names f.tree left
  | .suffixes _ base =>
      ∃ start' base', goal = .suffixes start' base' ∧ base'.bare = graft f.names f.tree base
  | g => goal = g

/-- What was read for a goal is read from the image, but for the places of the nodes. -/
def Carries (f : Filling) (g : Goal) (s : Source) (es : List Expr) (rest : Source) : Prop :=
  ∀ goal j, f.Suits goal g →
    ∃ es' k, Parses goal ⟨j, f.image s.tokens⟩ es' ⟨k, f.image rest.tokens⟩
      ∧ es'.map bare = es.map (graft f.names f.tree)

variable {f : Filling} {s m k l rest : Source} {g goal : Goal} {e base : Expr} {es : List Expr}

theorem Suits.eq_of_atom {build : TokenRange → Expr} (h : f.Suits goal g)
    (hAtom : Atom g s build rest) : goal = g := by
  cases hAtom <;> exact h

theorem Suits.eq_of_prefixed {build : TokenRange → Expr → Expr} (h : f.Suits goal g)
    (hPrefix : Prefix g s build m) : goal = g := by
  cases hPrefix <;> exact h

theorem Suits.of_bracket {opener closer : String} {build : TokenRange → Expr → List Expr → Expr}
    (hBracket : Bracket opener g closer build) : f.Suits g g := by
  cases hBracket <;> rfl

namespace Carries

/-- A goal for one expression. -/
theorem single (h : f.Carries g s [e] rest) (hSuits : f.Suits goal g) (j : Nat) :
    ∃ e' k, Parses goal ⟨j, f.image s.tokens⟩ [e'] ⟨k, f.image rest.tokens⟩
    ∧ e'.bare = graft f.names f.tree e := by
  obtain ⟨es', k, hParses, hBare⟩ := h goal j hSuits
  obtain ⟨e', es', rfl, he, hes⟩ := List.map_eq_cons_iff.mp hBare
  obtain rfl := List.map_eq_nil_iff.mp hes
  exact ⟨e', k, hParses, he⟩

theorem bare_single {e' : Expr} (h : e'.bare = graft f.names f.tree e) :
    [e'].map bare = [e].map (graft f.names f.tree) := by
  rw [List.map_singleton, List.map_singleton, h]

theorem expression (hFirst : f.Carries .assignment s [e] m) (hItems : f.Carries .items m es rest) :
    f.Carries .expression s [listed ⟨s.index, rest.index⟩ e es] rest := by
  rintro _ j rfl
  obtain ⟨e', j', hFirst', he⟩ := hFirst.single rfl j
  obtain ⟨es', k, hItems', hes⟩ := hItems _ j' rfl
  exact ⟨_, k, .expression hFirst' hItems', bare_single (bare_listed he hes)⟩

theorem noItem (hNext : s.isAt "," = false) (hOff : f.Off s.tokens)
    (hEnd : s.tokens ≠ [] ∨ f.tail = []) : f.Carries .items s [] s := by
  rintro _ j rfl
  refine ⟨[], j, .noItem ?_, rfl⟩
  obtain ⟨i, ts⟩ := s
  cases ts with
  | nil =>
      rw [image_nil, hEnd.resolve_left (by simp)]
      rfl
  | cons t ts =>
      rw [image_cons (hOff t rfl)]
      exact hNext

theorem item (hNext : s.isAt "," = true) (hFirst : f.Carries .assignment s.next [e] m)
    (hItems : f.Carries .items m es rest) : f.Carries .items s (e :: es) rest := by
  rintro _ j rfl
  obtain ⟨e', j', hFirst', he⟩ := hFirst.single rfl (j + 1)
  obtain ⟨es', k, hItems', hes⟩ := hItems _ j' rfl
  rw [← next_image (op?_of_isAt hNext)] at hFirst'
  exact ⟨_, k, .item (isAt_image hNext) hFirst' hItems',
    by rw [List.map_cons, List.map_cons, he, hes]⟩

theorem atom {build : TokenRange → Expr} (hAdmits : f.Admits s.tokens) (hStart : f.Off s.tokens)
    (hStop : f.Off rest.tokens) (hAtom : Atom g s build rest) :
    f.Carries g s [build ⟨s.index, rest.index⟩] rest := by
  intro goal j hSuits
  obtain rfl := hSuits.eq_of_atom hAtom
  obtain ⟨⟨k, hAtom'⟩, hBare⟩ := atom_image (j := j) hAdmits hStart hStop hAtom
  exact ⟨_, k, .atom hAtom', bare_single (hBare _ _)⟩

theorem prefixed {build : TokenRange → Expr → Expr} (hAdmits : f.Admits s.tokens)
    (hPrefix : Prefix g s build m) (hOperand : f.Carries g m [e] rest) :
    f.Carries g s [build ⟨s.index, rest.index⟩ e] rest := by
  intro goal j hSuits
  obtain rfl := hSuits.eq_of_prefixed hPrefix
  obtain ⟨⟨j', hPrefix'⟩, -⟩ := prefix_image (j := j) hAdmits hPrefix
  obtain ⟨e', k, hOperand', he⟩ := hOperand.single hSuits j'
  exact ⟨_, k, .prefixed hPrefix' hOperand', bare_single (hPrefix.bare_eq he)⟩

/-- Nothing was put in the place of a token where a word of the language does not come next. -/
theorem not_isAtName (hOff : f.Off s.tokens) (h : s.isAtName "throw" = false) (j : Nat) :
    (Source.mk j (f.image s.tokens)).isAtName "throw" = false := by
  have hHead := forall_head?_image (P := fun t => t.isNamed "throw" = false) hOff
    (fun t ht => by simpa [isAtName, peek?, Option.mem_def.mp ht] using h)
    (fun t hPunct => by
      by_contra hNamed
      rw [not_isPunctIn_of_isIdentifier
        (isIdentifier_of_isNamed (eq_true_of_ne_false hNamed))] at hPunct
      cases hPunct)
  simpa [isAtName, peek?, Option.any_eq_false] using hHead

theorem assign {op : AssignOp} {target value : Expr} (hStart : f.Off s.tokens)
    (hHead : s.isAtName "throw" = false) (hTarget : f.Carries .conditional s [target] m)
    (hOp : m.op?.bind AssignOp.ofSymbol? = some op)
    (hValue : f.Carries .assignment m.next [value] rest) :
    f.Carries .assignment s [.assign ⟨s.index, rest.index⟩ op target value] rest := by
  rintro _ j rfl
  obtain ⟨symbol, hSymbol, hAssign⟩ := op?_of_bind hOp
  obtain ⟨target', j', hTarget', hTargetBare⟩ := hTarget.single rfl j
  obtain ⟨value', k, hValue', hValueBare⟩ := hValue.single rfl (j' + 1)
  rw [← next_image hSymbol] at hValue'
  have hOp' : (Source.mk j' (f.image m.tokens)).op?.bind AssignOp.ofSymbol? = some op := by
    rw [op?_image hSymbol, Option.bind_some, hAssign]
  refine ⟨_, k, .assign (not_isAtName hStart hHead j) hTarget' hOp' hValue', bare_single ?_⟩
  simp only [bare, graft] at hTargetBare hValueBare ⊢
  simp only [rebuild, hTargetBare, hValueBare]

theorem unassigned (hStart : f.Off s.tokens) (hStop : f.Off rest.tokens)
    (hHead : s.isAtName "throw" = false) (hOperand : f.Carries .conditional s [e] rest)
    (hOp : rest.op?.bind AssignOp.ofSymbol? = none) : f.Carries .assignment s [e] rest := by
  rintro _ j rfl
  obtain ⟨e', k, hOperand', he⟩ := hOperand.single rfl j
  have hOp' : (Source.mk k (f.image rest.tokens)).op?.bind AssignOp.ofSymbol? = none := by
    have hOther : ∀ symbol ∈ [")", ","], AssignOp.ofSymbol? symbol = none := by decide
    refine Option.bind_eq_none_iff.mpr fun symbol hSymbol => ?_
    rcases op?_of_image hStop hSymbol with hNext | hClose
    · simpa [hNext] using hOp
    · exact hOther symbol hClose
  exact ⟨_, k, .unassigned (not_isAtName hStart hHead j) hOperand' hOp', bare_single he⟩

theorem conditional {condition whenTrue whenFalse : Expr}
    (hCondition : f.Carries (.binary BinaryOp.or.precedence) s [condition] m)
    (hMark : m.isAt "?" = true) (hTrue : f.Carries .expression m.next [whenTrue] k)
    (hColon : k.expect ":" = .ok l) (hFalse : f.Carries .assignment l [whenFalse] rest) :
    f.Carries .conditional s [.conditional ⟨s.index, rest.index⟩ condition whenTrue whenFalse]
      rest := by
  rintro _ j rfl
  obtain ⟨condition', j', hCondition', hConditionBare⟩ := hCondition.single rfl j
  obtain ⟨whenTrue', j'', hTrue', hTrueBare⟩ := hTrue.single rfl (j' + 1)
  obtain ⟨whenFalse', n, hFalse', hFalseBare⟩ := hFalse.single rfl (j'' + 1)
  rw [← next_image (op?_of_isAt hMark)] at hTrue'
  refine ⟨_, n, .conditional hCondition' (isAt_image hMark) hTrue' (expect_image hColon) hFalse',
    bare_single ?_⟩
  simp only [bare, graft] at hConditionBare hTrueBare hFalseBare ⊢
  simp only [rebuild, hConditionBare, hTrueBare, hFalseBare]

theorem unconditional (hStop : f.Off rest.tokens)
    (hOperand : f.Carries (.binary BinaryOp.or.precedence) s [e] rest)
    (hMark : rest.isAt "?" = false) : f.Carries .conditional s [e] rest := by
  rintro _ j rfl
  obtain ⟨e', k, hOperand', he⟩ := hOperand.single rfl j
  exact ⟨_, k, .unconditional hOperand' (isAt_image_eq_false hStop (by decide) hMark),
    bare_single he⟩

theorem binary {least : Nat} {left : Expr} (hLeft : f.Carries .unary s [left] m)
    (hOperands : f.Carries (.operands least s.index left) m [e] rest) :
    f.Carries (.binary least) s [e] rest := by
  rintro _ j rfl
  obtain ⟨left', j', hLeft', hLeftBare⟩ := hLeft.single rfl j
  obtain ⟨e', k, hOperands', he⟩ := hOperands.single ⟨_, _, rfl, hLeftBare⟩ j'
  exact ⟨_, k, .binary hLeft' hOperands', bare_single he⟩

theorem lastOperand {least start : Nat} {left : Expr} (hStop : f.Off s.tokens)
    (hNext : ∀ op, s.op?.bind BinaryOp.ofSymbol? = some op → op.precedence < least) :
    f.Carries (.operands least start left) s [left] s := by
  rintro _ j ⟨start', left', rfl, hLeftBare⟩
  refine ⟨_, j, .lastOperand fun op hOp => ?_, bare_single hLeftBare⟩
  have hOther : ∀ symbol ∈ [")", ","], BinaryOp.ofSymbol? symbol = none := by decide
  obtain ⟨symbol, hSymbol, hBinary⟩ := op?_of_bind hOp
  rcases op?_of_image hStop hSymbol with hSame | hClose
  · exact hNext op (by rw [hSame, Option.bind_some, hBinary])
  · rw [hOther symbol hClose] at hBinary
    cases hBinary

theorem operand {least start : Nat} {left right : Expr} {op : BinaryOp}
    (hOp : s.op?.bind BinaryOp.ofSymbol? = some op) (hLeast : least ≤ op.precedence)
    (hRight : f.Carries (.binary (op.precedence + 1)) s.next [right] m)
    (hOperands : f.Carries (.operands least start (.binary ⟨start, m.index⟩ op left right)) m
      [e] rest) :
    f.Carries (.operands least start left) s [e] rest := by
  rintro _ j ⟨start', left', rfl, hLeftBare⟩
  obtain ⟨symbol, hSymbol, hBinary⟩ := op?_of_bind hOp
  obtain ⟨right', j', hRight', hRightBare⟩ := hRight.single rfl (j + 1)
  have hNode : (Expr.binary ⟨start', j'⟩ op left' right').bare =
      graft f.names f.tree (.binary ⟨start, m.index⟩ op left right) := by
    simp only [bare, graft] at hLeftBare hRightBare ⊢
    simp only [rebuild, hLeftBare, hRightBare]
  obtain ⟨e', k, hOperands', he⟩ := hOperands.single ⟨start', _, rfl, hNode⟩ j'
  rw [← next_image hSymbol] at hRight'
  have hOp' : (Source.mk j (f.image s.tokens)).op?.bind BinaryOp.ofSymbol? = some op := by
    rw [op?_image hSymbol, Option.bind_some, hBinary]
  exact ⟨_, k, .operand hOp' hLeast hRight' hOperands', bare_single he⟩

theorem simple (hAdmits : f.Admits s.tokens) (hStart : f.Off s.tokens) (hPlain : s.IsPlain)
    (hBase : f.Carries .primary s [base] m)
    (hSuffixes : f.Carries (.suffixes s.index base) m [e] rest) : f.Carries .unary s [e] rest := by
  rintro _ j rfl
  obtain ⟨base', j', hBase', hBaseBare⟩ := hBase.single rfl j
  obtain ⟨e', k, hSuffixes', he⟩ := hSuffixes.single ⟨_, _, rfl, hBaseBare⟩ j'
  exact ⟨_, k, .simple (isPlain_image hAdmits hStart hPlain) hBase' hSuffixes', bare_single he⟩

theorem lastSuffix {start : Nat} (hStop : f.Off s.tokens)
    (hNext : ∀ op, s.op? = some op → op ∉ suffixOperators) :
    f.Carries (.suffixes start base) s [base] s := by
  rintro _ j ⟨start', base', rfl, hBaseBare⟩
  refine ⟨_, j, .lastSuffix fun op hOp => ?_, bare_single hBaseBare⟩
  have hOther : ∀ symbol ∈ [")", ","], symbol ∉ suffixOperators := by decide
  exact (op?_of_image hStop hOp).elim (hNext op) (hOther op)

theorem suffix {start : Nat} {build : TokenRange → Expr → Expr} (hAdmits : f.Admits s.tokens)
    (hSuffix : Suffix s build m)
    (hSuffixes : f.Carries (.suffixes start (build ⟨start, m.index⟩ base)) m [e] rest) :
    f.Carries (.suffixes start base) s [e] rest := by
  rintro _ j ⟨start', base', rfl, hBaseBare⟩
  obtain ⟨j', hSuffix'⟩ := suffix_image (j := j) hAdmits hSuffix
  obtain ⟨e', k, hSuffixes', he⟩ := hSuffixes.single ⟨start', _, rfl, hSuffix.bare_eq hBaseBare⟩ j'
  exact ⟨_, k, .suffix hSuffix' hSuffixes', bare_single he⟩

theorem bracket {start : Nat} {opener closer : String}
    {build : TokenRange → Expr → List Expr → Expr} (hBracket : Bracket opener g closer build)
    (hOpen : s.isAt opener = true) (hInner : f.Carries g s.next es m)
    (hClose : m.expect closer = .ok k)
    (hSuffixes : f.Carries (.suffixes start (build ⟨start, k.index⟩ base es)) k [e] rest) :
    f.Carries (.suffixes start base) s [e] rest := by
  rintro _ j ⟨start', base', rfl, hBaseBare⟩
  obtain ⟨es', j', hInner', hInnerBare⟩ := hInner g (j + 1) (.of_bracket hBracket)
  have hNode : (build ⟨start', j' + 1⟩ base' es').bare = graft f.names f.tree
      (build ⟨start, k.index⟩ base es) :=
    hBracket.bare_eq hBaseBare hInnerBare
  obtain ⟨e', n, hSuffixes', he⟩ := hSuffixes.single ⟨start', _, rfl, hNode⟩ (j' + 1)
  rw [← next_image (op?_of_isAt hOpen)] at hInner'
  exact ⟨_, n, .bracket hBracket (isAt_image hOpen) hInner' (expect_image hClose) hSuffixes',
    bare_single he⟩

theorem noArguments (hNext : s.isAt ")" = true) : f.Carries .arguments s [] s := by
  rintro _ j rfl
  exact ⟨[], j, .noArguments (isAt_image hNext), rfl⟩

theorem arguments (hFirst : f.Carries .assignment s [e] m) (hItems : f.Carries .items m es rest) :
    f.Carries .arguments s (e :: es) rest := by
  rintro _ j rfl
  obtain ⟨e', j', hFirst', he⟩ := hFirst.single rfl j
  obtain ⟨es', k, hItems', hes⟩ := hItems _ j' rfl
  exact ⟨_, k, .arguments (hFirst'.not_closed trivial) hFirst' hItems',
    by rw [List.map_cons, List.map_cons, he, hes]⟩

theorem enclosed {build : TokenRange → Expr → Expr} (hAdmits : f.Admits s.tokens)
    (hOpening : Opening s build m) (hInner : f.Carries .expression m [e] k)
    (hClose : k.expect ")" = .ok rest) :
    f.Carries .primary s [build ⟨s.index, rest.index⟩ e] rest := by
  rintro _ j rfl
  obtain ⟨j', hOpening'⟩ := opening_image (j := j) hAdmits hOpening
  obtain ⟨e', n, hInner', he⟩ := hInner.single rfl j'
  exact ⟨_, n + 1, .enclosed hOpening' hInner' (expect_image hClose),
    bare_single (hOpening.bare_eq he)⟩

/-- A name that something is put in the place of is an expression of its own, and so is what is put
there. -/
theorem filled (hAdmits : f.Admits s.tokens) (hOff : ¬f.Off s.tokens)
    (h : Parses .assignment s [e] rest) : f.Carries .assignment s [e] rest := by
  rintro _ j rfl
  obtain ⟨i, ts⟩ := s
  obtain ⟨t, hHead, hFills⟩ : ∃ t ∈ ts.head?, f.Fills t := by simpa [Off] using hOff
  obtain ⟨ts, rfl⟩ := List.head?_eq_some_iff.mp hHead
  obtain ⟨b, hNext, hPunct⟩ := hAdmits.stops hFills
  obtain ⟨op, hOp, hToken⟩ := operator?_of_isPunctIn hPunct
  have hOp? : (Source.mk (i + 1) ts).op? = some op := by
    rw [op?, peek?, hNext, Option.bind_some, hToken]
  have hClosed : (Source.mk (i + 1) ts).IsClosed := by
    have hOthers : ∀ op ∈ [")", ","], op ∉ "::" :: suffixOperators := by decide
    exact isClosed_of_op? hOp? (hOthers op hOp)
  have hEnds : (Source.mk (i + 1) ts).AssignmentEnds := by
    refine assignmentEnds_of_isAtEnd ?_
    simp only [List.mem_cons, List.not_mem_nil, or_false] at hOp
    rcases hOp with rfl | rfl <;> simp [isAtEnd, peek?, Option.mem_def.mp hNext, hToken]
  obtain ⟨hName, rfl⟩ := h.unique (hFills.isName.assignment hClosed hEnds)
  cases hName
  obtain ⟨e', hParses, hBare⟩ :=
    f.reads t.spelling hFills.2 j (f.image ts) (stops_image ⟨b, hNext, hPunct⟩)
  rw [← image_cons_of_fills hFills] at hParses
  refine ⟨_, _, hParses, bare_single (hBare.trans ?_)⟩
  simp [graft, rebuild, hFills.2]

end Carries

end Filling

/-- What is read from tokens in which everything can be put in its place is read from the image. -/
theorem Parses.carries {f : Filling} {g : Goal} {s rest : Source} {es : List Expr}
    (h : Parses g s es rest) (hAdmits : f.Admits s.tokens) (hStart : g.IsInner → f.Off s.tokens)
    (hStop : f.Off rest.tokens) (hEnd : g.IsListed → rest.tokens ≠ [] ∨ f.tail = []) :
    f.Carries g s es rest := by
  induction h with
  | expression hFirst hItems ihFirst ihItems =>
      have hMiddle := hItems.off trivial hStop
      exact .expression (ihFirst hAdmits nofun hMiddle nofun)
        (ihItems (hAdmits.of_leads hFirst.leads) nofun hStop fun _ => hEnd trivial)
  | noItem hNext => exact .noItem hNext hStop (hEnd trivial)
  | item hNext hFirst hItems ihFirst ihItems =>
      have hNext' := hAdmits.of_leads (leads_next (op?_of_isAt hNext))
      exact .item hNext (ihFirst hNext' nofun (hItems.off trivial hStop) nofun)
        (ihItems (hNext'.of_leads hFirst.leads) nofun hStop fun _ => hEnd trivial)
  | atom hAtom =>
      refine .atom hAdmits ?_ hStop hAtom
      cases hAtom with
      | raise hHead =>
          rintro _ ⟨⟩
          exact Filling.not_fills_of_isNamed (by decide) hHead
      | _ => exact hStart trivial
  | prefixed hPrefix hOperand ih =>
      have hAdmits' := hAdmits.of_leads (isLocal_prefixed _ _ hPrefix).leads
      have hOff := (Filling.prefix_image (j := 0) hAdmits hPrefix).2
      refine .prefixed hAdmits hPrefix (ih hAdmits' (fun _ => hOff) hStop ?_)
      cases hPrefix <;> exact nofun
  | @assign s m rest op target value hHead hTarget hOp hValue ihTarget ihValue =>
      by_cases hOff : f.Off s.tokens
      · obtain ⟨symbol, hSymbol, -⟩ := op?_of_bind hOp
        have hMiddle := (hAdmits.of_leads hTarget.leads).of_leads (leads_next hSymbol)
        exact .assign hOff hHead (ihTarget hAdmits (fun _ => hOff) (Filling.off_of_op? hSymbol)
          nofun) hOp (ihValue hMiddle nofun hStop nofun)
      · exact .filled hAdmits hOff (.assign hHead hTarget hOp hValue)
  | @unassigned s rest e hHead hOperand hOp ih =>
      by_cases hOff : f.Off s.tokens
      · exact .unassigned hOff hStop hHead (ih hAdmits (fun _ => hOff) hStop nofun) hOp
      · exact .filled hAdmits hOff (.unassigned hHead hOperand hOp)
  | conditional hCondition hMark hTrue hColon hFalse ihCondition ihTrue ihFalse =>
      have hMiddle := (hAdmits.of_leads hCondition.leads).of_leads (leads_next (op?_of_isAt hMark))
      obtain ⟨hOff, hSome⟩ := Filling.off_of_expect (f := f) hColon
      have hBranch := (hMiddle.of_leads hTrue.leads).of_leads (leads_expect hColon).1
      have hMark' := Filling.off_of_op? (f := f) (op?_of_isAt hMark)
      exact .conditional (ihCondition hAdmits (fun _ => hStart trivial) hMark' nofun) hMark
        (ihTrue hMiddle nofun hOff fun _ => .inl hSome) hColon (ihFalse hBranch nofun hStop nofun)
  | unconditional hOperand hMark ih =>
      exact .unconditional hStop (ih hAdmits (fun _ => hStart trivial) hStop nofun) hMark
  | binary hLeft hOperands ihLeft ihOperands =>
      exact .binary (ihLeft hAdmits (fun _ => hStart trivial) (hOperands.off trivial hStop) nofun)
        (ihOperands (hAdmits.of_leads hLeft.leads) nofun hStop nofun)
  | lastOperand hNext => exact .lastOperand hStop hNext
  | operand hOp hLeast hRight hOperands ihRight ihOperands =>
      have hOther : ∀ symbol ∈ ["(", ","], BinaryOp.ofSymbol? symbol = none := by decide
      obtain ⟨symbol, hSymbol, hBinary⟩ := op?_of_bind hOp
      have hNext := hAdmits.of_leads (leads_next hSymbol)
      have hOff := Filling.off_next hAdmits hSymbol fun hMem => by
        rw [hOther symbol hMem] at hBinary
        cases hBinary
      exact .operand hOp hLeast (ihRight hNext (fun _ => hOff) (hOperands.off trivial hStop) nofun)
        (ihOperands (hNext.of_leads hRight.leads) nofun hStop nofun)
  | simple hPlain hBase hSuffixes ihBase ihSuffixes =>
      exact .simple hAdmits (hStart trivial) hPlain
        (ihBase hAdmits (fun _ => hStart trivial) (hSuffixes.off trivial hStop) nofun)
        (ihSuffixes (hAdmits.of_leads hBase.leads) nofun hStop nofun)
  | lastSuffix hNext => exact .lastSuffix hStop hNext
  | suffix hSuffix hSuffixes ih =>
      exact .suffix hAdmits hSuffix (ih (hAdmits.of_leads (isLocal_suffix _ hSuffix).leads) nofun
        hStop nofun)
  | bracket hBracket hOpen hInner hClose hSuffixes ihInner ihSuffixes =>
      have hNext := hAdmits.of_leads (leads_next (op?_of_isAt hOpen))
      obtain ⟨hOff, hSome⟩ := Filling.off_of_expect (f := f) hClose
      have hBehind := (hNext.of_leads hInner.leads).of_leads (leads_expect hClose).1
      have hInner' := ihInner hNext (by cases hBracket <;> exact nofun) hOff fun _ => .inl hSome
      exact .bracket hBracket hOpen hInner' hClose (ihSuffixes hBehind nofun hStop nofun)
  | noArguments hNext => exact .noArguments hNext
  | arguments hNext hFirst hItems ihFirst ihItems =>
      exact .arguments (ihFirst hAdmits nofun (hItems.off trivial hStop) nofun)
        (ihItems (hAdmits.of_leads hFirst.leads) nofun hStop fun _ => hEnd trivial)
  | enclosed hOpening hInner hClose ih =>
      obtain ⟨hOff, hSome⟩ := Filling.off_of_expect (f := f) hClose
      exact .enclosed hAdmits hOpening
        (ih (hAdmits.of_leads (passes_opening hOpening).moves.leads) nofun hOff fun _ => .inl hSome)
        hClose

end Demacro.Expr
