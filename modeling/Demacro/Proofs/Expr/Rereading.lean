import Demacro.Proofs.Expr.Fitting

/-!
Reading what is written as what was read from the expansion. Each rule of the grammar carries over
from what it reads to the whole, if the tokens it looks at are written as they are in the expansion.
-/

namespace Demacro.Expr

namespace Use

/-- A goal for what is written, and the one for the expansion that it stands for. -/
def Suits (u : Use) (inner : Expr) (written : Goal) : Goal → Prop
  | .operands least start left =>
    ∃ start' left', written = .operands least start' left' ∧ u.forth start' = start
      ∧ u.Fits inner left' left
  | .suffixes start base =>
    ∃ start' base', written = .suffixes start' base' ∧ u.forth start' = start
      ∧ u.Fits inner base' base
  | g => written = g

/-- What was read from the expansion for a goal is read from what is written, with the name in the
place of what it stands for. -/
def Rereads (u : Use) (inner : Expr) (g : Goal) (s : Source) (es : List Expr) (rest : Source) :
    Prop :=
  ∀ written, u.Suits inner written g →
    ∃ es', Parses written (u.source s.index) es' (u.source rest.index)
      ∧ List.Forall₂ (u.Fits inner) es' es

variable {u : Use} {s m k l rest : Source} {g g' : Goal} {inner e base : Expr} {es : List Expr}

theorem Suits.eq_of_atom {build : TokenRange → Expr} (h : u.Suits inner g' g)
    (hAtom : Atom g s build rest) : g' = g := by
  cases hAtom <;> exact h

theorem Suits.eq_of_prefixed {build : TokenRange → Expr → Expr} (h : u.Suits inner g' g)
    (hPrefix : Prefix g s build m) : g' = g := by
  cases hPrefix <;> exact h

theorem Suits.of_bracket {opener closer : String} {build : TokenRange → Expr → List Expr → Expr}
    (hBracket : Bracket opener g closer build) : u.Suits inner g g := by
  cases hBracket <;> rfl

section

variable (hSize : 0 < u.size) (hName : IsName u.name)

include hSize

theorem expect_source (hk : u.At k) {wanted : String} (h : k.expect wanted = .ok l)
    (hOff : u.Off k.index) : (u.source k.index).expect wanted = .ok (u.source l.index) := by
  have hIndex : l.index = k.index + 1 := by rw [Source.eq_next_of_expect h, Source.next]
  exact step_source hSize hk (Source.passes_expect h) (by omega) trivial

theorem opening_source {build : TokenRange → Expr → Expr} (hs : u.At s) (h : Opening s build m)
    (hApart : u.Apart s.index m.index) : Opening (u.source s.index) build (u.source m.index) :=
  step_source hSize hs (passes_opening h) hApart trivial

include hName

theorem prefix_source {build : TokenRange → Expr → Expr} (hs : u.At s) (h : Prefix g s build m)
    (hApart : u.Apart s.index m.index) : Prefix g (u.source s.index) build (u.source m.index) := by
  have hLt := h.index_lt
  by_cases hPlace : m.index = u.place
  · refine step_source hSize hs (hName.passes_prefixed h) hApart ?_
    rw [hPlace, source_place]
    rfl
  · exact move_source hSize hs (isLocal_prefixed g build h) hApart (by omega)

/-- At the name there is nothing that an operator, a bracket or a word of the language could be. -/
theorem not_isAt_source (hs : u.At s) (hCuts : u.Cuts s.index) {op : String}
    (h : s.isAt op = false) : (u.source s.index).isAt op = false := by
  by_cases hPlace : s.index = u.place
  · rw [hPlace, source_place, Source.isAt, Source.op?, Source.peek?, List.head?_cons,
      Option.bind_some, hName.operator?]
    rfl
  · rw [isAt_source hSize hs (by omega), h]

theorem not_isAtName_source (hs : u.At s) (hCuts : u.Cuts s.index)
    (h : s.isAtName "throw" = false) : (u.source s.index).isAtName "throw" = false := by
  by_cases hPlace : s.index = u.place
  · rw [hPlace, source_place, Source.isAtName, Source.peek?, List.head?_cons, Option.any_some,
      hName.isNamed (by decide)]
  · rw [Source.isAtName_congr (head?_source hSize hs (by omega)), h]

theorem isPlain_source (hs : u.At s) (hCuts : u.Cuts s.index) (hPlain : s.IsPlain) :
    (u.source s.index).IsPlain := by
  by_cases hPlace : s.index = u.place
  · rw [hPlace, source_place]
    exact hName.isPlain
  obtain ⟨t, hPeek, hHead, hCast⟩ := hPlain
  have hPeek' : (u.source s.index).peek? = some t := (head?_source hSize hs (by omega)).trans hPeek
  refine ⟨t, hPeek', hHead, fun hParen => ?_⟩
  have hNone := hCast hParen
  rcases hCuts with hCuts | hCuts
  · have hLt : s.index < u.place := by omega
    obtain ⟨hWritten, hExpanded⟩ := source_before hCuts
    have hBody : u.body ++ u.behind ≠ [] :=
      List.append_ne_nil_of_left_ne_nil (List.ne_nil_of_length_pos hSize) _
    have hSource : s = ⟨s.index, u.expansion.drop s.index⟩ := by rw [← hs]
    rw [hSource, hExpanded, List.drop_eq_getElem_cons hLt, List.cons_append] at hNone
    rw [hWritten, List.drop_eq_getElem_cons hLt, List.cons_append]
    exact castType?_eq_none hName hBody hNone
  · rw [source_behind hSize hCuts, ← hs]
    by_contra hSome
    obtain ⟨⟨type, rest⟩, hType⟩ := Option.ne_none_iff_exists'.mp hSome
    obtain ⟨used, hTokens, -, -, hRest, hMove⟩ := Source.castType?_append hType
    have hMoved := hMove s.index rest.tokens hRest
    rw [← show s.tokens = used ++ rest.tokens from hTokens] at hMoved
    rw [hMoved] at hNone
    cases hNone

end

namespace Rereads

/-- A goal for one expression. -/
theorem single (h : u.Rereads inner g s [e] rest) (hSuits : u.Suits inner g' g) :
    ∃ e', Parses g' (u.source s.index) [e'] (u.source rest.index) ∧ u.Fits inner e' e := by
  obtain ⟨es', hParses, hFits⟩ := h g' hSuits
  cases hFits with
  | cons hHead hTail =>
      cases hTail
      exact ⟨_, hParses, hHead⟩

section

variable (hSize : 0 < u.size)

include hSize

theorem expression (hFirst : u.Rereads inner .assignment s [e] m)
    (hItems : u.Rereads inner .items m es rest) (hStart : u.Cuts s.index)
    (hStop : u.Cuts rest.index) (hOther : es ≠ [] → inner ≠ listed ⟨s.index, rest.index⟩ e es) :
    u.Rereads inner .expression s [listed ⟨s.index, rest.index⟩ e es] rest := by
  rintro _ rfl
  obtain ⟨e', hFirst', hFirstFits⟩ := hFirst.single rfl
  obtain ⟨es', hItems', hItemsFit⟩ := hItems _ rfl
  refine ⟨_, .expression hFirst' hItems', .cons ?_ .nil⟩
  cases hItemsFit with
  | nil => exact hFirstFits
  | cons hHead hTail =>
      refine .node ?_ (.cons hFirstFits (.cons hHead hTail)) (hOther (List.cons_ne_nil _ _))
      rw [fill_listed, hFirstFits.fill_eq, Fits.map_fill (.cons hHead hTail),
        range_source hSize hStart hStop]

theorem noItem (hs : u.At s) (hNext : s.isAt "," = false) (hOff : u.Off s.index) :
    u.Rereads inner .items s [] s := by
  rintro _ rfl
  exact ⟨[], .noItem (by rw [isAt_source hSize hs hOff, hNext]), .nil⟩

theorem item (hs : u.At s) (hNext : s.isAt "," = true)
    (hFirst : u.Rereads inner .assignment s.next [e] m) (hItems : u.Rereads inner .items m es rest)
    (hOff : u.Off s.index) : u.Rereads inner .items s (e :: es) rest := by
  rintro _ rfl
  obtain ⟨e', hFirst', hFirstFits⟩ := hFirst.single rfl
  obtain ⟨es', hItems', hItemsFit⟩ := hItems _ rfl
  rw [show s.next.index = s.index + 1 from rfl, ← next_source hSize hOff] at hFirst'
  rw [← isAt_source hSize hs hOff] at hNext
  exact ⟨_, .item hNext hFirst' hItems', .cons hFirstFits hItemsFit⟩

theorem atom {build : TokenRange → Expr} (hs : u.At s) (hAtom : Atom g s build rest)
    (hApart : u.Apart s.index rest.index) (hStop : u.Off rest.index)
    (hOther : inner ≠ build ⟨s.index, rest.index⟩) :
    u.Rereads inner g s [build ⟨s.index, rest.index⟩] rest := by
  intro g' hSuits
  obtain rfl := hSuits.eq_of_atom hAtom
  have hLt := hAtom.index_lt
  have hAtom' := move_source hSize hs (isLocal_atom g' build hAtom) hApart hStop
  refine ⟨_, .atom hAtom', .cons (.node ?_ ?_ hOther) .nil⟩
  · have hName : (⟨(u.source s.index).index, (u.source rest.index).index⟩ : TokenRange) ≠
        ⟨u.place, u.place + 1⟩ := by
      simp only [source, back, ne_eq, TokenRange.mk.injEq]
      split_ifs <;> omega
    rw [fill_atom hAtom hName, range_source hSize (by omega) (by omega)]
  · rw [hAtom.children_eq, hAtom.children_eq]
    exact .nil

theorem operand {least start : Nat} {left right : Expr} {op : BinaryOp} (hs : u.At s)
    (hOp : s.op?.bind BinaryOp.ofSymbol? = some op) (hLeast : least ≤ op.precedence)
    (hRight : u.Rereads inner (.binary (op.precedence + 1)) s.next [right] m)
    (hOperands : u.Rereads inner (.operands least start (.binary ⟨start, m.index⟩ op left right)) m
      [e] rest)
    (hOff : u.Off s.index) (hMiddle : u.Cuts m.index)
    (hOther : inner ≠ .binary ⟨start, m.index⟩ op left right) :
    u.Rereads inner (.operands least start left) s [e] rest := by
  rintro _ ⟨start', left', rfl, hStart, hLeftFits⟩
  obtain ⟨right', hRight', hRightFits⟩ := hRight.single rfl
  have hNode : u.Fits inner (.binary ⟨start', (u.source m.index).index⟩ op left' right')
      (.binary ⟨start, m.index⟩ op left right) := by
    refine .node ?_ (.cons hLeftFits (.cons hRightFits .nil)) hOther
    rw [fill_binary, hLeftFits.fill_eq, hRightFits.fill_eq, hStart, source,
      forth_back hSize hMiddle]
  obtain ⟨e', hOperands', hFits⟩ := hOperands.single ⟨_, _, rfl, hStart, hNode⟩
  rw [show s.next.index = s.index + 1 from rfl, ← next_source hSize hOff] at hRight'
  rw [← op?_source hSize hs hOff] at hOp
  exact ⟨_, .operand hOp hLeast hRight' hOperands', .cons hFits .nil⟩

theorem lastOperand {least start : Nat} {left : Expr} (hs : u.At s)
    (hNext : ∀ op, s.op?.bind BinaryOp.ofSymbol? = some op → op.precedence < least)
    (hOff : u.Off s.index) : u.Rereads inner (.operands least start left) s [left] s := by
  rintro _ ⟨start', left', rfl, -, hLeftFits⟩
  rw [← op?_source hSize hs hOff] at hNext
  exact ⟨_, .lastOperand hNext, .cons hLeftFits .nil⟩

theorem binary {least : Nat} {left : Expr} (hLeft : u.Rereads inner .unary s [left] m)
    (hOperands : u.Rereads inner (.operands least s.index left) m [e] rest)
    (hStart : u.Cuts s.index) : u.Rereads inner (.binary least) s [e] rest := by
  rintro _ rfl
  obtain ⟨left', hLeft', hLeftFits⟩ := hLeft.single rfl
  obtain ⟨e', hOperands', hFits⟩ := hOperands.single ⟨_, _, rfl, forth_back hSize hStart, hLeftFits⟩
  exact ⟨_, .binary hLeft' hOperands', .cons hFits .nil⟩

theorem lastSuffix {start : Nat} (hs : u.At s)
    (hNext : ∀ op, s.op? = some op → op ∉ suffixOperators) (hOff : u.Off s.index) :
    u.Rereads inner (.suffixes start base) s [base] s := by
  rintro _ ⟨start', base', rfl, -, hBaseFits⟩
  rw [← op?_source hSize hs hOff] at hNext
  exact ⟨_, .lastSuffix hNext, .cons hBaseFits .nil⟩

theorem suffix {start : Nat} {build : TokenRange → Expr → Expr} (hs : u.At s)
    (hSuffix : Suffix s build m)
    (hSuffixes : u.Rereads inner (.suffixes start (build ⟨start, m.index⟩ base)) m [e] rest)
    (hApart : u.Apart s.index m.index) (hMiddle : u.Off m.index)
    (hOther : inner ≠ build ⟨start, m.index⟩ base) :
    u.Rereads inner (.suffixes start base) s [e] rest := by
  rintro _ ⟨start', base', rfl, hStart, hBaseFits⟩
  have hSuffix' := move_source hSize hs (isLocal_suffix build hSuffix) hApart hMiddle
  have hNode : u.Fits inner (build ⟨start', (u.source m.index).index⟩ base')
      (build ⟨start, m.index⟩ base) := by
    refine .node ?_ ?_ hOther
    · rw [fill_suffix hSuffix, hBaseFits.fill_eq, hStart, source, forth_back hSize (by omega)]
    · rw [hSuffix.children_eq, hSuffix.children_eq]
      exact .cons hBaseFits .nil
  obtain ⟨e', hSuffixes', hFits⟩ := hSuffixes.single ⟨_, _, rfl, hStart, hNode⟩
  exact ⟨_, .suffix hSuffix' hSuffixes', .cons hFits .nil⟩

theorem bracket {start : Nat} {opener closer : String}
    {build : TokenRange → Expr → List Expr → Expr} (hs : u.At s) (hm : u.At m)
    (hBracket : Bracket opener g closer build) (hOpen : s.isAt opener = true)
    (hInner : u.Rereads inner g s.next es m) (hClose : m.expect closer = .ok k)
    (hSuffixes : u.Rereads inner (.suffixes start (build ⟨start, k.index⟩ base es)) k [e] rest)
    (hOff : u.Off s.index) (hOff' : u.Off m.index) (hMiddle : u.Cuts k.index)
    (hOther : inner ≠ build ⟨start, k.index⟩ base es) :
    u.Rereads inner (.suffixes start base) s [e] rest := by
  rintro _ ⟨start', base', rfl, hStart, hBaseFits⟩
  obtain ⟨es', hInner', hInnerFit⟩ := hInner g (.of_bracket hBracket)
  have hNode : u.Fits inner (build ⟨start', (u.source k.index).index⟩ base' es')
      (build ⟨start, k.index⟩ base es) := by
    refine .node ?_ ?_ hOther
    · rw [fill_bracket hBracket, hBaseFits.fill_eq, Fits.map_fill hInnerFit, hStart, source,
        forth_back hSize hMiddle]
    · cases hBracket with
      | call => exact .cons hBaseFits hInnerFit
      | subscript =>
          refine .cons hBaseFits (.cons ?_ .nil)
          cases hInnerFit with
          | nil => exact hBaseFits
          | cons hHead => exact hHead
  obtain ⟨e', hSuffixes', hFits⟩ := hSuffixes.single ⟨_, _, rfl, hStart, hNode⟩
  rw [show s.next.index = s.index + 1 from rfl, ← next_source hSize hOff] at hInner'
  rw [← isAt_source hSize hs hOff] at hOpen
  exact ⟨_, .bracket hBracket hOpen hInner' (expect_source hSize hm hClose hOff') hSuffixes',
    .cons hFits .nil⟩

theorem enclosed {build : TokenRange → Expr → Expr} (hs : u.At s) (hk : u.At k)
    (hOpening : Opening s build m) (hInner : u.Rereads inner .expression m [e] k)
    (hClose : k.expect ")" = .ok rest) (hApart : u.Apart s.index m.index) (hOff : u.Off k.index)
    (hStop : u.Cuts rest.index) (hOther : inner ≠ build ⟨s.index, rest.index⟩ e) :
    u.Rereads inner .primary s [build ⟨s.index, rest.index⟩ e] rest := by
  rintro _ rfl
  have hLt := hOpening.index_lt
  obtain ⟨e', hInner', hFits⟩ := hInner.single rfl
  have hOpening' := opening_source hSize hs hOpening hApart
  have hClose' := expect_source hSize hk hClose hOff
  refine ⟨_, .enclosed hOpening' hInner' hClose', .cons (.node ?_ ?_ hOther) .nil⟩
  · rw [fill_opening hOpening, hFits.fill_eq, range_source hSize (by omega) hStop]
  · rw [hOpening.children_eq, hOpening.children_eq]
    exact .cons hFits .nil

theorem noArguments (hs : u.At s) (hNext : s.isAt ")" = true) (hOff : u.Off s.index) :
    u.Rereads inner .arguments s [] s := by
  rintro _ rfl
  exact ⟨[], .noArguments (by rw [isAt_source hSize hs hOff, hNext]), .nil⟩

theorem unconditional (hRest : u.At rest)
    (hOperand : u.Rereads inner (.binary BinaryOp.or.precedence) s [e] rest)
    (hMark : rest.isAt "?" = false) (hOff : u.Off rest.index) :
    u.Rereads inner .conditional s [e] rest := by
  rintro _ rfl
  obtain ⟨e', hOperand', hFits⟩ := hOperand.single rfl
  rw [← isAt_source hSize hRest hOff] at hMark
  exact ⟨_, .unconditional hOperand' hMark, .cons hFits .nil⟩

theorem conditional {condition whenTrue whenFalse : Expr} (hm : u.At m) (hk : u.At k)
    (hCondition : u.Rereads inner (.binary BinaryOp.or.precedence) s [condition] m)
    (hMark : m.isAt "?" = true) (hTrue : u.Rereads inner .expression m.next [whenTrue] k)
    (hColon : k.expect ":" = .ok l) (hFalse : u.Rereads inner .assignment l [whenFalse] rest)
    (hStart : u.Cuts s.index) (hOff : u.Off m.index) (hOff' : u.Off k.index)
    (hStop : u.Cuts rest.index)
    (hOther : inner ≠ .conditional ⟨s.index, rest.index⟩ condition whenTrue whenFalse) :
    u.Rereads inner .conditional s [.conditional ⟨s.index, rest.index⟩ condition whenTrue whenFalse]
      rest := by
  rintro _ rfl
  obtain ⟨condition', hCondition', hConditionFits⟩ := hCondition.single rfl
  obtain ⟨whenTrue', hTrue', hTrueFits⟩ := hTrue.single rfl
  obtain ⟨whenFalse', hFalse', hFalseFits⟩ := hFalse.single rfl
  rw [show m.next.index = m.index + 1 from rfl, ← next_source hSize hOff] at hTrue'
  rw [← isAt_source hSize hm hOff] at hMark
  have hColon' := expect_source hSize hk hColon hOff'
  refine ⟨_, .conditional hCondition' hMark hTrue' hColon' hFalse', .cons (.node ?_ ?_ hOther) .nil⟩
  · rw [fill_conditional, hConditionFits.fill_eq, hTrueFits.fill_eq, hFalseFits.fill_eq,
      range_source hSize hStart hStop]
  · exact .cons hConditionFits (.cons hTrueFits (.cons hFalseFits .nil))

variable (hName : IsName u.name)

include hName

theorem prefixed {build : TokenRange → Expr → Expr} (hs : u.At s) (hPrefix : Prefix g s build m)
    (hOperand : u.Rereads inner g m [e] rest) (hApart : u.Apart s.index m.index)
    (hStop : u.Cuts rest.index) (hOther : inner ≠ build ⟨s.index, rest.index⟩ e) :
    u.Rereads inner g s [build ⟨s.index, rest.index⟩ e] rest := by
  intro g' hSuits
  obtain rfl := hSuits.eq_of_prefixed hPrefix
  have hLt := hPrefix.index_lt
  obtain ⟨e', hOperand', hFits⟩ := hOperand.single hSuits
  have hPrefix' := prefix_source hSize hName hs hPrefix hApart
  refine ⟨_, .prefixed hPrefix' hOperand', .cons (.node ?_ ?_ hOther) .nil⟩
  · rw [fill_prefixed hPrefix, hFits.fill_eq, range_source hSize (by omega) hStop]
  · rw [hPrefix.children_eq, hPrefix.children_eq]
    exact .cons hFits .nil

theorem assign {op : AssignOp} {target value : Expr} (hs : u.At s) (hm : u.At m)
    (hHead : s.isAtName "throw" = false) (hTarget : u.Rereads inner .conditional s [target] m)
    (hOp : m.op?.bind AssignOp.ofSymbol? = some op)
    (hValue : u.Rereads inner .assignment m.next [value] rest) (hStart : u.Cuts s.index)
    (hOff : u.Off m.index) (hStop : u.Cuts rest.index)
    (hOther : inner ≠ .assign ⟨s.index, rest.index⟩ op target value) :
    u.Rereads inner .assignment s [.assign ⟨s.index, rest.index⟩ op target value] rest := by
  rintro _ rfl
  obtain ⟨target', hTarget', hTargetFits⟩ := hTarget.single rfl
  obtain ⟨value', hValue', hValueFits⟩ := hValue.single rfl
  rw [show m.next.index = m.index + 1 from rfl, ← next_source hSize hOff] at hValue'
  rw [← op?_source hSize hm hOff] at hOp
  have hHead' := not_isAtName_source hSize hName hs hStart hHead
  refine ⟨_, .assign hHead' hTarget' hOp hValue', .cons (.node ?_ ?_ hOther) .nil⟩
  · rw [fill_assign, hTargetFits.fill_eq, hValueFits.fill_eq, range_source hSize hStart hStop]
  · exact .cons hTargetFits (.cons hValueFits .nil)

theorem unassigned (hs : u.At s) (hRest : u.At rest) (hHead : s.isAtName "throw" = false)
    (hOperand : u.Rereads inner .conditional s [e] rest)
    (hOp : rest.op?.bind AssignOp.ofSymbol? = none) (hStart : u.Cuts s.index)
    (hOff : u.Off rest.index) : u.Rereads inner .assignment s [e] rest := by
  rintro _ rfl
  obtain ⟨e', hOperand', hFits⟩ := hOperand.single rfl
  rw [← op?_source hSize hRest hOff] at hOp
  have hHead' := not_isAtName_source hSize hName hs hStart hHead
  exact ⟨_, .unassigned hHead' hOperand' hOp, .cons hFits .nil⟩

theorem simple (hs : u.At s) (hPlain : s.IsPlain) (hBase : u.Rereads inner .primary s [base] m)
    (hSuffixes : u.Rereads inner (.suffixes s.index base) m [e] rest) (hStart : u.Cuts s.index) :
    u.Rereads inner .unary s [e] rest := by
  rintro _ rfl
  obtain ⟨base', hBase', hBaseFits⟩ := hBase.single rfl
  obtain ⟨e', hSuffixes', hFits⟩ := hSuffixes.single ⟨_, _, rfl, forth_back hSize hStart, hBaseFits⟩
  exact ⟨_, .simple (isPlain_source hSize hName hs hStart hPlain) hBase' hSuffixes',
    .cons hFits .nil⟩

theorem arguments (hs : u.At s) (hNext : s.isAt ")" = false)
    (hFirst : u.Rereads inner .assignment s [e] m) (hItems : u.Rereads inner .items m es rest)
    (hStart : u.Cuts s.index) : u.Rereads inner .arguments s (e :: es) rest := by
  rintro _ rfl
  obtain ⟨e', hFirst', hFirstFits⟩ := hFirst.single rfl
  obtain ⟨es', hItems', hItemsFit⟩ := hItems _ rfl
  exact ⟨_, .arguments (not_isAt_source hSize hName hs hStart hNext) hFirst' hItems',
    .cons hFirstFits hItemsFit⟩

end

end Rereads

end Use

end Demacro.Expr
