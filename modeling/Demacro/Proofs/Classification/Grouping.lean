import Demacro.Classification.Grouping
import Demacro.Proofs.Expr.Asking
import Demacro.Proofs.Expr.Inside
import Demacro.Proofs.Expr.Leading
import Demacro.Proofs.Expr.Standing
import Demacro.Proofs.Lines

/-!
What the check of the operators around a use is for. A use keeps its grouping if the name, with the
replacement in its place, is read as the expansion is; the check lets a use pass by the tokens
beside it.
-/

namespace Demacro

namespace Expr

/-- An expression without the places of its nodes. -/
def bare : Expr → Expr :=
  rebuild (fun _ => ⟨0, 0⟩) fun _ text => .name ⟨0, 0⟩ text

namespace Use

variable {u : Use} {B T : Expr}

/-- The written tokens are an expression, which becomes that of the expansion once the name is
replaced by the expression `body` that it stands for. -/
def Keeps (u : Use) (body whole : Expr) : Prop :=
  ∃ e, parse u.written = .ok e ∧ u.leaf ∈ e.nodes ∧ u.fill (body.moved u.place) e = whole

/-- An expression that is all of a body covers all its tokens. -/
theorem range_moved_body (h : parse u.body = .ok B) :
    0 < u.size ∧ (B.moved u.place).range = ⟨u.place, u.place + u.size⟩ := by
  have hCovers := (parse_eq_ok_iff.mp h).covers
  exact ⟨hCovers.1, by rw [range_moved, hCovers.range_eq]; rfl⟩

/-- The name is read around what it stands for exactly if the expansion has that as a node. -/
theorem keeps_of_mem_nodes (hBody : parse u.body = .ok B) (hWhole : parse u.expansion = .ok T)
    (hName : IsName u.name) (hMem : B.moved u.place ∈ T.nodes) : u.Keeps B T := by
  obtain ⟨hSize, hRange⟩ := range_moved_body hBody
  have hClosed : (Source.mk u.expansion.length []).IsClosed := nofun
  have hRereads := (parse_eq_ok_iff.mp hWhole).inside hSize hName hRange (List.drop_zero).symm
    (by simpa using hMem) hClosed trivial
  obtain ⟨e, hParses, hFits⟩ := hRereads.single rfl
  have hLength : u.expansion.length + 1 - u.size = u.written.length := by
    simp only [expansion, written, size, List.length_append, List.length_cons]
    omega
  have hStart : u.source 0 = ⟨0, u.written⟩ := by
    rw [source, back, if_pos (Nat.zero_le _), List.drop_zero]
  have hStop : u.source u.expansion.length = ⟨u.written.length, []⟩ := by
    rw [source_behind hSize (by simp [expansion, place, size]), List.drop_length, hLength]
  dsimp only at hParses
  rw [hStart, hStop] at hParses
  exact ⟨e, parse_eq_ok_iff.mpr hParses, hFits.holds hMem, hFits.fill_eq⟩

theorem mem_nodes_of_keeps (h : u.Keeps B T) : B.moved u.place ∈ T.nodes := by
  obtain ⟨e, -, hLeaf, rfl⟩ := h
  refine mem_nodes_rebuild ?_ e hLeaf
  rw [if_pos rfl]
  exact mem_nodes_self _

theorem keeps_iff_mem_nodes (hBody : parse u.body = .ok B) (hWhole : parse u.expansion = .ok T)
    (hName : IsName u.name) : u.Keeps B T ↔ B.moved u.place ∈ T.nodes :=
  ⟨mem_nodes_of_keeps, keeps_of_mem_nodes hBody hWhole hName⟩

end Use

end Expr

namespace Grouping

open Demacro.Expr

variable {u : Use} {B T : Expr}

/-- The check lets a use pass between two tokens. -/
def Passes (before after : Option Token) (body : Expr) : Prop :=
  body.isPrimary = true ∨ splits before after body = false

instance (before after : Option Token) (body : Expr) : Decidable (Passes before after body) :=
  inferInstanceAs (Decidable (_ ∨ _))

/-- No hazard is raised exactly if the check lets every use pass. -/
theorem hazards_eq_nil_iff {code : List PlacedToken} {usages : List Usage} {isConstant : Bool} :
    (findings code B usages isConstant).2 = [] ↔
      ∀ use ∈ usages, Passes ((neighbours code use).1.map (·.toToken))
        ((neighbours code use).2.map (·.toToken)) B := by
  have hLines : ((splitUses code B usages).map Usage.line).isEmpty = true ↔
      ∀ use ∈ usages, splits ((neighbours code use).1.map (·.toToken))
        ((neighbours code use).2.map (·.toToken)) B = false := by
    simp [splitUses]
  unfold findings
  split
  · rename_i hPrimary
    exact ⟨fun _ use _ => .inl hPrimary, fun _ => rfl⟩
  rename_i hPrimary
  have hPasses : ∀ before after, Passes before after B ↔ splits before after B = false :=
    fun before after => or_iff_right hPrimary
  simp only [hPasses, ← hLines]
  split
  · rename_i hNone
    exact ⟨fun _ => hNone, fun _ => rfl⟩
  · rename_i hSome
    exact ⟨fun hNil => absurd hNil (List.cons_ne_nil _ _), fun hNone => absurd hNone hSome⟩

/-- Why a use may pass the check although its expansion is grouped otherwise. The check looks at one
token on each side, and knows of it only which operator between operands it would be. -/
inductive Overlooks (u : Use) (B T : Expr) : Prop where
  /-- No expression starts at the place: what comes first there goes on with a name, a literal, a
  member or a type in front of it, or is skipped with that. -/
  | inside (hNone : ∀ X ∈ T.nodes, X.range.start ≠ u.place)
  /-- In front is a cast, or an operator other than the five that the check knows to stand there. -/
  | inFront {X c : Expr} (hX : X ∈ T.nodes) (hOperand : X.operandBehind? = some c)
      (hStart : c.range.start = u.place) (hLevel : B.precedence < unaryPrecedence)
      (hUnknown : ∀ t ∈ u.before.getLast?,
        t.isPunctIn ["!", "~", "++", "--"] = false ∧ t.isNamed "sizeof" = false)
  /-- In front is an operator that is spelled as a word. -/
  | wordInFront {r : TokenRange} {op : BinaryOp} {a b : Expr} {t : Token}
      (hX : .binary r op a b ∈ T.nodes) (hStart : b.range.start = u.place)
      (hLevel : B.precedence ≤ op.precedence) (ht : t ∈ u.before.getLast?)
      (hWord : t.kind ≠ .punctuator)
  /-- Behind is what can stand behind no expression. -/
  | noFollower {t : Token} (ht : t ∈ u.behind.head?)
      (hNone : ∀ op, Source.operator? t = some op → op ∉ followers)
  /-- Behind is an operator that is spelled as a word. -/
  | wordBehind {t : Token} {op : String} (ht : t ∈ u.behind.head?) (hWord : t.kind ≠ .punctuator)
      (hOp : Source.operator? t = some op) (hLevel : B.precedence < grip op)
  /-- Behind a conditional expression, an assignment or a `throw` is an assignment or a question
  mark, which the check takes to hold no more tightly. -/
  | assigned {t : Token} {op : String} (ht : t ∈ u.behind.head?)
      (hOp : Source.operator? t = some op)
      (hAssign : op = "?" ∨ (AssignOp.ofSymbol? op).isSome) (hLevel : B.precedence = 2)
  /-- Behind is what the operand of a measure takes to itself. -/
  | measured {t : Token} {op : String} (hMeasure : B.isMeasure = true) (ht : t ∈ u.behind.head?)
      (hOp : Source.operator? t = some op) (hSuffix : op ∈ suffixOperators)
  /-- What is behind is read with the words of a type. -/
  | absorbed {X : Expr} (hX : X ∈ B.nodes) (hAbsorbs : Absorbs u.body u.behind X)

section Punctuators

variable {t : Token} {op : String}

theorem isPunctIn_iff (ops : List String) (hKind : t.kind = .punctuator)
    (hOp : Source.operator? t = some op) (hPlain : ∀ op ∈ ops, '\\' ∉ op.toList) :
    t.isPunctIn ops = true ↔ op ∈ ops := by
  constructor
  · intro h
    obtain ⟨op', hMem, hOp'⟩ := operator?_of_isPunctIn h
    cases hOp.symm.trans hOp'
    exact hMem
  · intro hMem
    simp only [Source.operator?, hKind, Option.some.injEq] at hOp
    have hText := Text.eq_ofString_of_display hOp (hPlain op hMem)
    exact List.any_eq_true.mpr ⟨op, hMem, by simp [Token.isPunct, hKind, hText]⟩

theorem spelling_of_operator? (hKind : t.kind = .punctuator) (hOp : Source.operator? t = some op) :
    t.spelling = op := by
  simpa [Source.operator?, hKind] using hOp

/-- What the check takes a punctuator behind a replacement for. -/
theorem precedenceAfter?_eq (hKind : t.kind = .punctuator) (hOp : Source.operator? t = some op) :
    precedenceAfter? t =
      if op ∈ "::" :: suffixOperators then some primaryPrecedence else operatorPrecedence? op := by
  have hIn := isPunctIn_iff ["(", "[", ".", "->", "++", "--", "::"] hKind hOp (by decide)
  have hSame : op ∈ ["(", "[", ".", "->", "++", "--", "::"] ↔ op ∈ "::" :: suffixOperators := by
    simp only [suffixOperators, List.mem_cons, List.not_mem_nil, or_false]
    tauto
  rw [precedenceAfter?, if_pos hKind, spelling_of_operator? hKind hOp]
  simp only [hIn, hSame]
  rfl

/-- What the check takes an operator between operands for that is a punctuator in front of a
replacement. -/
theorem precedenceBefore?_eq {op : BinaryOp} (hKind : t.kind = .punctuator)
    (hOp : Source.operator? t = some op.symbol) :
    precedenceBefore? t = some op.precedence ∧ takesAllBehind t = false := by
  have hOther : op.symbol ∉ ["!", "~", "++", "--", "?", ":"]
      ∧ AssignOp.ofSymbol? op.symbol = none := by
    cases op <;> decide +kernel
  constructor
  · rw [precedenceBefore?, if_pos hKind, not_isPunctIn hOp fun hMem => hOther.1 (by simp_all),
      if_neg Bool.false_ne_true, spelling_of_operator? hKind hOp, operatorPrecedence?,
      BinaryOp.ofSymbol?_symbol]
  · rw [takesAllBehind, spelling_of_operator? hKind hOp, hOther.2,
      not_isPunctIn hOp fun hMem => hOther.1 (by simp_all)]
    rfl

/-- The operators that the check knows to stand in front of their operand. -/
theorem precedenceBefore?_of_known
    (h : t.isPunctIn ["!", "~", "++", "--"] = true ∨ t.isNamed "sizeof" = true) :
    precedenceBefore? t = some unaryPrecedence ∧ takesAllBehind t = false := by
  rcases h with hPunct | hNamed
  · obtain ⟨op, hMem, hOp⟩ := operator?_of_isPunctIn hPunct
    have hKind := kind_of_isPunctIn hPunct
    have hOther : ∀ op ∈ ["!", "~", "++", "--"],
        AssignOp.ofSymbol? op = none ∧ op ∉ ["?", ":"] := by
      decide +kernel
    refine ⟨by rw [precedenceBefore?, if_pos hKind, if_pos hPunct], ?_⟩
    rw [takesAllBehind, spelling_of_operator? hKind hOp, (hOther op hMem).1,
      not_isPunctIn hOp (hOther op hMem).2]
    rfl
  · obtain ⟨hKind, hLexeme⟩ : t.kind = .identifier ∧ t.lexeme = Text.ofString "sizeof" := by
      simpa [Token.isNamed] using hNamed
    have hWord : t.kind ≠ .punctuator := by simp [hKind]
    have hNone : t.isPunctIn ["?", ":"] = false := by simp [Token.isPunctIn, Token.isPunct, hKind]
    refine ⟨by rw [precedenceBefore?, if_neg hWord, if_pos hNamed], ?_⟩
    rw [takesAllBehind, Token.spelling, hLexeme, Text.display_ofString, hNone]
    decide +kernel

end Punctuators

namespace Passes

variable {before after : Option Token} {t : Token} {p : Nat}

/-- What holds together less tightly than a primary expression does so more tightly than the
operator in front asks for. -/
theorem lt_precedence (h : Passes before after B) (ht : t ∈ before)
    (hLevel : precedenceBefore? t = some p) (hTakes : takesAllBehind t = false)
    (hLt : p < primaryPrecedence) : p < B.precedence := by
  rcases h with hPrimary | hSplits
  · rw [isPrimary, beq_iff_eq] at hPrimary
    rwa [hPrimary]
  · cases ht
    simp only [splits, Option.any_some, hLevel, hTakes, Bool.not_false, Bool.and_true,
      Bool.or_eq_false_iff, decide_eq_false_iff_not, Nat.not_le] at hSplits
    exact hSplits.1

theorem le_precedence (h : Passes before after B) (ht : t ∈ after)
    (hLevel : precedenceAfter? t = some p) (hLe : p ≤ primaryPrecedence) : p ≤ B.precedence := by
  rcases h with hPrimary | hSplits
  · rw [isPrimary, beq_iff_eq] at hPrimary
    rwa [hPrimary]
  · cases ht
    simp only [splits, Option.any_some, hLevel, Bool.or_eq_false_iff, decide_eq_false_iff_not,
      Nat.not_lt] at hSplits
    exact hSplits.2.1

end Passes

theorem two_le_precedence (h : B.isComma = false) : 2 ≤ B.precedence := by
  cases B with
  | comma => cases h
  | binary r op => cases op <;> simp [Expr.precedence, BinaryOp.precedence]
  | _ => simp [Expr.precedence, unaryPrecedence, primaryPrecedence]

/-- No word stands for a suffix. -/
theorem isPunctuator_of_suffix {t : Token} {op : String} (hOp : Source.operator? t = some op)
    (hSuffix : op ∈ suffixOperators) : t.kind = .punctuator := by
  have hWords : ∀ word ∈ Keyword.operatorWords, word.2 ∉ suffixOperators := by decide
  cases hKind : t.kind with
  | punctuator => rfl
  | identifier =>
      simp only [Source.operator?, hKind] at hOp
      obtain ⟨words, rest, hMem, -⟩ := List.lookup_eq_some_iff.mp hOp
      exact absurd hSuffix (hWords (t.spelling, op) (by simp [hMem]))
  | _ => simp [Source.operator?, hKind] at hOp

section Grouped

variable (hPasses : Passes u.before.getLast? u.behind.head? B) (hNone : ¬ Overlooks u B T)

include hPasses hNone

/-- What stands behind a use that passes leaves what it stands for alone. -/
theorem bounded_of_passes (hComma : B.isComma = false) : Bounded u.body u.behind B := by
  have hBehind : (Source.mk 0 u.behind).Follows B.precedence := by
    intro t ht
    by_contra hWeak
    obtain ⟨op, hOp, hFollower⟩ : ∃ op, Source.operator? t = some op ∧ op ∈ followers := by
      by_contra hFollower
      exact hNone (.noFollower ht fun op hOp hMem => hFollower ⟨op, hOp, hMem⟩)
    have hLevel : B.precedence < grip op :=
      Nat.not_le.mp fun hGrip => hWeak ⟨op, hOp, hFollower, hGrip⟩
    have hKind : t.kind = .punctuator := by
      by_contra hWord
      exact hNone (.wordBehind ht hWord hOp hLevel)
    have hAfter := precedenceAfter?_eq hKind hOp
    by_cases hSuffix : op ∈ suffixOperators
    · rw [if_pos (List.mem_cons_of_mem _ hSuffix)] at hAfter
      have hLe := hPasses.le_precedence ht hAfter (Nat.le_refl _)
      rw [grip_suffix op hSuffix] at hLevel
      omega
    have hCases : ∀ op ∈ followers, op ∉ suffixOperators → op ≠ "::" ∧ grip op ≤ primaryPrecedence
        ∧ (grip op ≤ 2 ∨ operatorPrecedence? op = some (grip op)
          ∨ (op = "?" ∨ (AssignOp.ofSymbol? op).isSome) ∧ grip op = 3) := by decide +kernel
    obtain ⟨hQualifier, hLe, hCases⟩ := hCases op hFollower hSuffix
    rw [if_neg (by simp [hQualifier, hSuffix])] at hAfter
    have hTwo := two_le_precedence hComma
    rcases hCases with hLoose | hSame | ⟨hAssign, hGrip⟩
    · omega
    · have hLe := hPasses.le_precedence ht (hAfter.trans hSame) hLe
      omega
    · exact hNone (.assigned ht hOp hAssign (by omega))
  refine ⟨hBehind, fun hMeasure t ht => ?_, fun X hX hAbsorbs => hNone (.absorbed hX hAbsorbs)⟩
  obtain ⟨op, hOp, hFollower, -⟩ := hBehind t ht
  refine ⟨op, hOp, hFollower, grip_le_unary op hFollower fun hSuffix => ?_⟩
  exact hNone (.measured hMeasure ht hOp hSuffix)

/-- What is asked for where a use that passes stands is no more than what it stands for. -/
theorem suits_of_passes {g : Goal} (hAsked : g.IsAsked u.expansion T.nodes u.place) :
    g.Suits B := by
  cases g with
  | expression | assignment => trivial
  | unary =>
      obtain ⟨X, hX, c, hOperand, hStart⟩ := hAsked
      by_contra hLevel
      have hLt : B.precedence < unaryPrecedence := Nat.not_le.mp hLevel
      refine hNone (.inFront hX hOperand hStart hLt fun t ht => ?_)
      by_contra hKnown
      obtain ⟨hBefore, hTakes⟩ := precedenceBefore?_of_known (t := t) (by grind)
      have hLevel := hPasses.lt_precedence ht hBefore hTakes (by decide)
      omega
  | binary least =>
      obtain ⟨r, op, a, b, hX, hStart, rfl, i, t, hPlace, ht, hOp⟩ := hAsked
      have hBefore : t ∈ u.before.getLast? := by
        have hLength : u.before.length = i + 1 := hPlace
        rw [Use.expansion, List.getElem?_append_left (by omega)] at ht
        rw [Option.mem_def, List.getLast?_eq_getElem?, hLength, Nat.add_sub_cancel, ht]
      refine ⟨Nat.le_succ_of_le (by cases op <;> decide), ?_⟩
      by_contra hLevel
      have hKind : t.kind = .punctuator := by
        by_contra hWord
        exact hNone (.wordInFront hX hStart (by omega) hBefore hWord)
      obtain ⟨hLevel', hTakes⟩ := precedenceBefore?_eq hKind hOp
      have hLt := hPasses.lt_precedence hBefore hLevel' hTakes
        (Nat.lt_trans (precedence_lt_unary op) (by decide))
      omega
  | _ => cases hAsked

/-- A use that passes is grouped as the name is if nothing is overlooked. -/
theorem mem_nodes_of_passes (hBody : parse u.body = .ok B) (hComma : B.isComma = false)
    (hWhole : parse u.expansion = .ok T) : B.moved u.place ∈ T.nodes := by
  obtain ⟨X, hX, hStart⟩ : ∃ X ∈ T.nodes, X.range.start = u.place := by
    by_contra hInside
    exact hNone (.inside fun X hX hStart => hInside ⟨X, hX, hStart⟩)
  have hParses := parse_eq_ok_iff.mp hWhole
  have hReached : Reached u.expansion T.nodes X := by
    refine .of_start hParses (List.drop_zero).symm trivial (fun Y hY => hY) ?_
    exact hParses.reaches (List.drop_zero).symm (by simpa using hX)
  obtain ⟨g, s, rest, e, hParses, hs, hIndex, hNodes, hAsked⟩ := hReached
  rw [hStart] at hIndex
  have hTokens : s.tokens = u.body ++ u.behind := by
    rw [hs, hIndex, Use.expansion, Use.place, List.drop_left]
  have hSource : s = (Source.mk 0 u.body).extended u.place u.behind := by
    cases s
    simp_all [Source.extended]
  rw [hIndex] at hAsked
  rw [hSource] at hParses
  exact hNodes _ ((bounded_of_passes hPasses hNone hComma).mem_nodes hComma
    (parse_eq_ok_iff.mp hBody) (List.drop_zero).symm rfl (suits_of_passes hPasses hNone hAsked)
    hParses)

end Grouped

theorem wellGrouped_nodes_of_parse {ts : List Token} (h : parse ts = .ok B) :
    ∀ X ∈ B.nodes, X.WellGrouped := by
  simpa using (parse_eq_ok_iff.mp h).wellGrouped trivial

/-- What an operator in front asks for is what stands for a name that is grouped as it is. -/
theorem le_precedence_of_mem_nodes {X : Expr} {q : Nat} (hBody : parse u.body = .ok B)
    (hWhole : parse u.expansion = .ok T) (hMem : B.moved u.place ∈ T.nodes) (hX : X ∈ T.nodes)
    (hAsks : X.Asks u.place q) : q ≤ B.precedence := by
  have hParses := parse_eq_ok_iff.mp hWhole
  have hLevelled : ∀ Y ∈ T.nodes, Y.Levelled := by
    simpa using hParses.levelled trivial (by simp [Goal.held])
  have hSome : T.range.start < T.range.stop := by
    rw [hParses.covers.range_eq]
    exact hParses.covers.1
  have hLevel := Asks.le_precedence (wellGrouped_nodes_of_parse hWhole) hLevelled hSome hMem hX
    (by rwa [(Use.range_moved_body hBody).2])
  rwa [precedence_moved] at hLevel

/-- The tokens behind a use that is grouped as the name is leave the nodes of what it stands for
alone. -/
theorem spared_of_mem_nodes {X : Expr} (hWhole : parse u.expansion = .ok T)
    (hMem : B.moved u.place ∈ T.nodes) (hX : X ∈ B.nodes) :
    Spared u.expansion (X.moved u.place) := by
  have hEnd : (Source.mk u.expansion.length []).Follows 0 := nofun
  have hSpared := (parse_eq_ok_iff.mp hWhole).spared (List.drop_zero).symm hEnd
    (by simp [Goal.held])
  exact hSpared _ (by simpa using mem_nodes_trans (mem_nodes_moved hX) hMem)

/-- Where a use is grouped as the name is, nothing is overlooked. -/
theorem not_overlooks_of_mem_nodes (hBody : parse u.body = .ok B)
    (hWhole : parse u.expansion = .ok T) (hMem : B.moved u.place ∈ T.nodes) :
    ¬ Overlooks u B T := by
  obtain ⟨hSize, hRange⟩ := Use.range_moved_body hBody
  have hSpares : ∀ t ∈ u.behind.head?, ∃ op, Source.operator? t = some op ∧ op ∈ followers
      ∧ (op ∈ suffixOperators → B.isMeasure = false)
      ∧ (op ∉ suffixOperators → grip op ≤ B.precedence) := by
    have hDrop : u.expansion.drop (u.place + u.size) = u.behind := by
      rw [Use.expansion, Use.place, Use.size, List.drop_length_add_append, List.drop_left]
    have hSpares := (spared_of_mem_nodes hWhole hMem (mem_nodes_self B)).spares
    rw [hRange, hDrop] at hSpares
    simpa only [Source.Spares, Source.peek?, isMeasure_moved, precedence_moved] using hSpares
  intro h
  cases h with
  | inside hNone => exact hNone _ hMem (by rw [hRange])
  | inFront hX hOperand hStart hLevel =>
      have hAsks := hStart ▸ Asks.inFront hOperand
      have hLe := le_precedence_of_mem_nodes hBody hWhole hMem hX hAsks
      omega
  | @wordInFront r op a b t hX hStart hLevel =>
      have hAsks : (Expr.binary r op a b).Asks u.place (op.precedence + 1) := hStart ▸ .between
      have hLe := le_precedence_of_mem_nodes hBody hWhole hMem hX hAsks
      omega
  | noFollower ht hNone =>
      obtain ⟨op, hOp, hFollower, -⟩ := hSpares _ ht
      exact hNone op hOp hFollower
  | wordBehind ht hWord hOp hLevel =>
      obtain ⟨op, hOp', -, -, hGrip⟩ := hSpares _ ht
      cases hOp.symm.trans hOp'
      have hLe := hGrip fun hSuffix => hWord (isPunctuator_of_suffix hOp hSuffix)
      omega
  | assigned ht hOp hAssign hLevel =>
      obtain ⟨op, hOp', hFollower, -, hGrip⟩ := hSpares _ ht
      cases hOp.symm.trans hOp'
      have hTight : ∀ op ∈ followers, op = "?" ∨ (AssignOp.ofSymbol? op).isSome →
          op ∉ suffixOperators ∧ grip op = 3 := by decide +kernel
      obtain ⟨hOther, hThree⟩ := hTight _ hFollower hAssign
      have hLe := hGrip hOther
      omega
  | measured hMeasure ht hOp hSuffix =>
      obtain ⟨op, hOp', -, hApart, -⟩ := hSpares _ ht
      cases hOp.symm.trans hOp'
      cases hMeasure.symm.trans (hApart hSuffix)
  | @absorbed X hX hAbsorbs =>
      have hGrouped := wellGrouped_nodes_of_parse hBody
      have hCovers := (parse_eq_ok_iff.mp hBody).covers.range_eq
      have hLt := start_lt_stop hGrouped (by rw [hCovers]; exact hSize) hX
      have hInside := (inside_of_mem_nodes hGrouped hX).2
      rw [hCovers] at hInside
      exact (spared_of_mem_nodes hWhole hMem hX).apart (hAbsorbs.within hLt hInside)

/-- A use that the check lets pass is grouped as the name is exactly if nothing is overlooked. -/
theorem Passes.mem_nodes_iff (hPasses : Passes u.before.getLast? u.behind.head? B)
    (hBody : parse u.body = .ok B) (hComma : B.isComma = false)
    (hWhole : parse u.expansion = .ok T) : B.moved u.place ∈ T.nodes ↔ ¬ Overlooks u B T :=
  ⟨not_overlooks_of_mem_nodes hBody hWhole,
    fun hNone => mem_nodes_of_passes hPasses hNone hBody hComma hWhole⟩

/-- **Grouping.** Where the check lets a use pass, the name is read as the expansion is, with what
it stands for as one of its parts, exactly if the check overlooks nothing there. -/
theorem keeps_iff_of_passes (hBody : parse u.body = .ok B) (hComma : B.isComma = false)
    (hWhole : parse u.expansion = .ok T) (hName : IsName u.name)
    (hPasses : Passes u.before.getLast? u.behind.head? B) : u.Keeps B T ↔ ¬ Overlooks u B T :=
  (Use.keeps_iff_mem_nodes hBody hWhole hName).trans
    (hPasses.mem_nodes_iff hBody hComma hWhole)

/-- Where no hazard is raised, every use whose neighbours are those of the name is read as the
expansion is, if nothing is overlooked there. -/
theorem keeps_iff_of_hazards_eq_nil {code : List PlacedToken} {usages : List Usage} {use : Usage}
    {isConstant : Bool} (hBody : parse u.body = .ok B) (hComma : B.isComma = false)
    (hWhole : parse u.expansion = .ok T) (hName : IsName u.name)
    (hHazards : (findings code B usages isConstant).2 = []) (hUse : use ∈ usages)
    (hBefore : (neighbours code use).1.map (·.toToken) = u.before.getLast?)
    (hBehind : (neighbours code use).2.map (·.toToken) = u.behind.head?) :
    u.Keeps B T ↔ ¬ Overlooks u B T := by
  have hPasses := hazards_eq_nil_iff.mp hHazards use hUse
  rw [hBefore, hBehind] at hPasses
  exact (Use.keeps_iff_mem_nodes hBody hWhole hName).trans
    (hPasses.mem_nodes_iff hBody hComma hWhole)

/-- A token that stands by itself. -/
def alone (kind : TokenKind) (text : String) : Token :=
  ⟨kind, Text.ofString text, ⟨"", 0, 0, 1, 1⟩, false, true⟩

/-- The tokens of `1 + 2`. -/
def sumTokens : List Token :=
  [alone .number "1", alone .punctuator "+", alone .number "2"]

/-- What `1 + 2` is read as at a place. -/
def sumAt (k : Nat) : Expr :=
  .binary ⟨k, k + 3⟩ .add (.literal ⟨k, k + 1⟩ [alone .number "1"])
    (.literal ⟨k + 2, k + 3⟩ [alone .number "2"])

/-- `3 == N`, where `N` stands for `1 + 2`. -/
def compared : Use :=
  ⟨[alone .number "3", alone .punctuator "=="], alone .identifier "N", sumTokens, []⟩

theorem keeps_compared :
    compared.Keeps (sumAt 0)
      (.binary ⟨0, 5⟩ .equal (.literal ⟨0, 1⟩ [alone .number "3"]) (sumAt 2)) := by
  have hBody : parse compared.body = .ok (sumAt 0) := by cbv
  have hWhole : parse compared.expansion =
      .ok (.binary ⟨0, 5⟩ .equal (.literal ⟨0, 1⟩ [alone .number "3"]) (sumAt 2)) := by cbv
  have hName : IsName compared.name := by decide +kernel
  have hPasses : Passes compared.before.getLast? compared.behind.head? (sumAt 0) := by
    decide +kernel
  refine (keeps_iff_of_passes hBody rfl hWhole hName hPasses).mpr
    (not_overlooks_of_mem_nodes hBody hWhole ?_)
  have hMoved : (sumAt 0).moved compared.place = sumAt 2 := rfl
  rw [hMoved, nodes_eq]
  simp [children, mem_nodes_self]

/-- `( int ) N`, where `N` stands for `1 + 2`. The parenthesis is no operator for the check. -/
def converted : Use :=
  ⟨[alone .punctuator "(", alone .identifier "int", alone .punctuator ")"], alone .identifier "N",
    sumTokens, []⟩

theorem regrouped_converted : ¬ ∀ (u : Use) (B T : Expr), parse u.body = .ok B → B.isComma = false →
    parse u.expansion = .ok T → IsName u.name → Passes u.before.getLast? u.behind.head? B →
      ∃ e, parse u.written = .ok e ∧ u.leaf ∈ e.nodes
      ∧ (u.fill (B.moved u.place) e).bare = T.bare := by
  intro h
  have hBody : parse converted.body = .ok (sumAt 0) := by cbv
  have hWhole : parse converted.expansion = .ok (.binary ⟨0, 6⟩ .add
      (.cast ⟨0, 4⟩ (Text.ofString "int") (.literal ⟨3, 4⟩ [alone .number "1"]))
      (.literal ⟨5, 6⟩ [alone .number "2"])) := by
    with_unfolding_all rfl
  have hWritten :
      parse converted.written = .ok (.cast ⟨0, 4⟩ (Text.ofString "int") converted.leaf) := by
    with_unfolding_all rfl
  have hName : IsName converted.name := by decide +kernel
  have hPasses : Passes converted.before.getLast? converted.behind.head? (sumAt 0) := by
    decide +kernel
  obtain ⟨e, hParses, -, hSame⟩ := h converted _ _ hBody rfl hWhole hName hPasses
  rw [hWritten] at hParses
  cases hParses
  cases hSame

end Grouping

end Demacro
