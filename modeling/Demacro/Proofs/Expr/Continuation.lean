import Demacro.Proofs.Expr.Extent
import Demacro.Proofs.Expr.Following

/-!
Expressions with something behind them. What was read up to the end of its tokens is read in the
same way where further tokens follow, if these start with an operator or a bracket that leaves it
alone.
-/

namespace Demacro.Expr

open Source

/-- An expression over tokens that stand `k` places further behind. -/
def moved (k : Nat) : Expr → Expr :=
  rebuild (fun r => ⟨k + r.start, k + r.stop⟩) fun r text => .name ⟨k + r.start, k + r.stop⟩ text

theorem range_moved (k : Nat) (e : Expr) :
    (e.moved k).range = ⟨k + e.range.start, k + e.range.stop⟩ := by
  cases e with
  | measure r keyword operand => cases operand <;> rfl
  | raise r operand => cases operand <;> rfl
  | _ => rfl

/-- The operators and brackets that may stand behind an expression. -/
def followers : List String :=
  BinaryOp.all.map BinaryOp.symbol ++ AssignOp.all.map AssignOp.symbol ++ suffixOperators
    ++ ["?", ":", ",", ")", "]"]

/-- Only what goes on with an operand asks for more than an operator in front of it does. -/
theorem grip_le_unary : ∀ op ∈ followers, op ∉ suffixOperators → grip op ≤ unaryPrecedence := by
  decide +kernel

/-- Words of a type, in parentheses or behind `new`, that are read with more of the tokens once
others follow. -/
def Absorbs (body behind : List Token) : Expr → Prop
  | .allocate r =>
    (Source.mk (r.start + 1) (body.drop (r.start + 1) ++ behind)).skipAllocation
      ≠ .ok ⟨r.stop, body.drop r.stop ++ behind⟩
  | .paren r _ => (Source.mk r.start (body.drop r.start ++ behind)).castType? ≠ none
  | _ => False

variable {g : Goal} {s m k rest : Source} {i n p q : Nat} {r : TokenRange} {e base X : Expr}
  {es : List Expr} {ts tail body : List Token} {t : Token}

namespace Source

/-- A source over tokens that stand further behind, with others behind them. -/
def extended (n : Nat) (tail : List Token) (s : Source) : Source :=
  ⟨n + s.index, s.tokens ++ tail⟩

theorem head?_extended (h : s.tokens ≠ []) :
    (s.extended n tail).tokens.head? = s.tokens.head? :=
  List.head?_append_of_ne_nil _ h

theorem tokens_ne_nil_of_op? {op : String} (h : s.op? = some op) : s.tokens ≠ [] := by
  rintro hNil
  simp [op?, peek?, hNil] at h

theorem next_extended (h : s.tokens ≠ []) :
    (s.extended n tail).next = s.next.extended n tail := by
  obtain ⟨t, ts, hTokens⟩ := List.exists_cons_of_ne_nil h
  simp [next, extended, hTokens, Nat.add_assoc]

/-- A step that was taken is taken with other tokens behind it, if these suit. -/
theorem Passes.extended {P : List Token → Prop} {R : Source → Source → Prop}
    (h : Passes P R s rest) (hBehind : P (rest.tokens ++ tail)) :
    R (s.extended n tail) (rest.extended n tail) := by
  obtain ⟨used, hTokens, hIndex, hMove⟩ := h
  have hRead := hMove (n + s.index) (rest.tokens ++ tail) hBehind
  rwa [← List.append_assoc, ← hTokens, Nat.add_assoc, ← hIndex] at hRead

theorem Moves.extended {R : Source → Source → Prop} (h : Moves R s rest)
    (hRest : rest.tokens ≠ []) : R (s.extended n tail) (rest.extended n tail) :=
  Passes.extended h (List.head?_append_of_ne_nil _ hRest)

/-- A step that was taken is taken over the same tokens where they stand elsewhere. -/
theorem Moves.elsewhere {R : Source → Source → Prop} {j k : Nat} (h : Moves R s rest)
    (hSame : j + rest.index = k + s.index) : R ⟨j, s.tokens⟩ ⟨k, rest.tokens⟩ := by
  obtain ⟨used, hTokens, hIndex, hMove⟩ := h
  have hRead := hMove j rest.tokens rfl
  rwa [← hTokens, show j + used.length = k by omega] at hRead

theorem isAt_extended {op : String} (h : s.isAt op = true) :
    (s.extended n tail).isAt op = true := by
  rwa [isAt_congr (head?_extended (tokens_ne_nil_of_op? (by simpa [isAt] using h)))]

/-- What comes next is an operator or a bracket, and leaves what holds together as tightly as the
number says. -/
def Follows (s : Source) (p : Nat) : Prop :=
  ∀ t ∈ s.peek?, ∃ op, operator? t = some op ∧ op ∈ followers ∧ grip op ≤ p

namespace Follows

theorem mono (h : s.Follows p) (hLe : p ≤ q) : s.Follows q := by
  intro t ht
  obtain ⟨op, hOp, hFollower, hGrip⟩ := h t ht
  exact ⟨op, hOp, hFollower, Nat.le_trans hGrip hLe⟩

theorem congr (h : s.Follows p) (hHead : m.tokens.head? = s.tokens.head?) : m.Follows p := by
  intro t ht
  rw [peek?, hHead] at ht
  exact h t ht

/-- The operator that comes next. -/
theorem of_op? {op : String} (h : s.Follows p) (hOp : s.op? = some op) :
    op ∈ followers ∧ grip op ≤ p := by
  obtain ⟨t, ht, hToken⟩ := Option.bind_eq_some_iff.mp hOp
  obtain ⟨op', hOp', hRest⟩ := h t ht
  rw [hToken, Option.some.injEq] at hOp'
  exact hOp' ▸ hRest

theorem leaves (h : s.Follows p) : s.Leaves p where
  noString t ht hKind := by
    obtain ⟨op, hOp, -⟩ := h t ht
    simp [operator?, hKind] at hOp
  weak _ hOp := (h.of_op? hOp).2

theorem isAtEnd (h : s.Follows 2) : s.isAtEnd = true := by
  have hEnds : ∀ op ∈ followers, grip op ≤ 2 → op ∈ [")", "]", ",", ":"] := by decide +kernel
  unfold Source.isAtEnd
  cases hPeek : s.peek? with
  | none => rfl
  | some t =>
      obtain ⟨op, hOp, hFollower, hGrip⟩ := h t hPeek
      have hEnd := hEnds op hFollower hGrip
      simp only [hOp, Option.any_some, Bool.or_eq_true, beq_iff_eq]
      simpa [or_assoc] using hEnd

theorem not_qualifier (h : s.Follows p) : ∀ t ∈ s.peek?, operator? t ≠ some "::" := by
  intro t ht hQualifier
  obtain ⟨op, hOp, hFollower, -⟩ := h t ht
  rw [hQualifier, Option.some.injEq] at hOp
  subst hOp
  exact absurd hFollower (by decide +kernel)

end Follows

end Source

/-- What may come behind the tokens that something is read from for a goal. -/
def Goal.Permits (tail : Source) : Goal → Prop
  | .assignment | .conditional => tail.Follows 2
  | .binary least | .operands least _ _ => ∃ p < least, p ≤ unaryPrecedence ∧ tail.Follows p
  | .unary | .suffixes .. => tail.Follows unaryPrecedence
  | .primary => tail.Follows primaryPrecedence
  | _ => False

/-- A goal over tokens that stand further behind. -/
def Goal.moved (n : Nat) : Goal → Goal
  | .operands least start left => .operands least (n + start) (left.moved n)
  | .suffixes start base => .suffixes (n + start) (base.moved n)
  | g => g

section Moved

theorem moved_listed : (listed r e es).moved n
    = listed ⟨n + r.start, n + r.stop⟩ (e.moved n) (es.map (moved n)) := by
  cases es with
  | nil => rfl
  | cons => simp [listed, moved, rebuild]

theorem precedence_moved (n : Nat) (e : Expr) : (e.moved n).precedence = e.precedence := by
  cases e with
  | measure r keyword operand => cases operand <;> rfl
  | raise r operand => cases operand <;> rfl
  | _ => rfl

theorem isMeasure_moved (n : Nat) (e : Expr) : (e.moved n).isMeasure = e.isMeasure := by
  cases e with
  | measure r keyword operand => cases operand <;> rfl
  | raise r operand => cases operand <;> rfl
  | _ => rfl

theorem children_moved (n : Nat) (e : Expr) : (e.moved n).children = e.children.map (moved n) := by
  by_cases hName : ∃ r text, e = .name r text
  · obtain ⟨r, text, rfl⟩ := hName
    rfl
  · exact children_rebuild fun r text h => hName ⟨r, text, h⟩

theorem mem_nodes_moved (hX : X ∈ e.nodes) : X.moved n ∈ (e.moved n).nodes := by
  induction e using induct_children with
  | h e ih =>
      rcases mem_nodes.mp hX with rfl | hX
      · exact mem_nodes_self _
      · obtain ⟨c, hc, hX⟩ := List.mem_flatMap.mp hX
        refine mem_nodes_of_child ?_ (ih c hc hX)
        rw [children_moved]
        exact List.mem_map_of_mem hc

theorem Atom.moved_eq {build : TokenRange → Expr} (h : Atom g s build rest) :
    (build r).moved n = build ⟨n + r.start, n + r.stop⟩ := by
  cases h <;> rfl

theorem Prefix.moved_eq {build : TokenRange → Expr → Expr} (h : Prefix g s build m) :
    (build r e).moved n = build ⟨n + r.start, n + r.stop⟩ (e.moved n) := by
  cases h <;> rfl

theorem Opening.moved_eq {build : TokenRange → Expr → Expr} (h : Opening s build m) :
    (build r e).moved n = build ⟨n + r.start, n + r.stop⟩ (e.moved n) := by
  cases h <;> rfl

theorem Suffix.moved_eq {build : TokenRange → Expr → Expr} (h : Suffix s build m) :
    (build r e).moved n = build ⟨n + r.start, n + r.stop⟩ (e.moved n) := by
  cases h <;> rfl

theorem Bracket.moved_eq {opener closer : String} {build : TokenRange → Expr → List Expr → Expr}
    (h : Bracket opener g closer build) : (build r base es).moved n
      = build ⟨n + r.start, n + r.stop⟩ (base.moved n) (es.map (moved n)) := by
  cases h with
  | call => simp [moved, rebuild]
  | subscript => cases es <;> rfl

theorem Goal.moved_of_atom {build : TokenRange → Expr} (h : Atom g s build rest) :
    g.moved n = g := by
  cases h <;> rfl

theorem Goal.moved_of_prefix {build : TokenRange → Expr → Expr} (h : Prefix g s build m) :
    g.moved n = g := by
  cases h <;> rfl

theorem Goal.moved_of_bracket {opener closer : String}
    {build : TokenRange → Expr → List Expr → Expr} (h : Bracket opener g closer build) :
    g.moved n = g := by
  cases h <;> rfl

end Moved

/-- What is no part of a longer expression is read where other tokens follow. -/
theorem Atom.extended {build : TokenRange → Expr} (h : Atom g s build rest)
    (hs : s.tokens = body.drop s.index)
    (hApart : ¬ Absorbs body tail (build ⟨s.index, rest.index⟩))
    (hPermits : rest.tokens = [] → g.Permits (rest.extended n tail)) :
    Atom g (s.extended n tail) build (rest.extended n tail) := by
  by_cases hRest : rest.tokens = []
  swap
  · exact (isLocal_atom g build h).extended hRest
  have hPermits := hPermits hRest
  have hTail : ∀ {p}, (rest.extended n tail).Follows p →
      (Source.mk (n + rest.index) tail).Follows p :=
    fun hFollows => hFollows.congr (by simp [Source.extended, hRest])
  cases h with
  | raise hHead hEnd =>
      dsimp only at hRest
      subst hRest
      exact .raise hHead (hTail hPermits).isAtEnd
  | measure hHead hOpen hGroup =>
      exact .measure hHead (isAt_extended hOpen)
        ((passes_skipGroup "(" ")" hGroup).extended trivial)
  | @allocate i t ts rest hHead hAllocation =>
      have hTokens : body.drop (i + 1) = ts := by
        rw [← List.tail_drop, ← hs, List.tail_cons]
      have hNone : body.drop rest.index = [] := by
        obtain ⟨used, hUsed, hIndex, -⟩ := isLocal_skipAllocation hAllocation
        dsimp only at hUsed hIndex
        rw [hIndex, ← List.drop_drop, hTokens, hUsed, List.drop_left, hRest]
      have hRead := not_not.mp hApart
      rw [hTokens, hNone] at hRead
      refine .allocate hHead
        (?_ : Source.skipAllocation ⟨n + i + 1, ts ++ tail⟩ = .ok ⟨n + rest.index, _⟩)
      rw [hRest]
      exact (isLocal_skipAllocation hRead).elsewhere (by dsimp only; omega)
  | constant hKind => exact .constant hKind
  | @strings i t ts found rest hKind hFound =>
      obtain ⟨j, rs⟩ := rest
      dsimp only at hRest
      subst hRest
      have hNext := (hTail hPermits).leaves.noString
      obtain ⟨rfl, hAppend⟩ := strings_append (j := n + i) hFound hNext
      refine .strings hKind (hAppend.trans ?_)
      rw [Nat.add_assoc]
      rfl
  | @name i t ts text rest hHead hCast hParts =>
      obtain ⟨j, rs⟩ := rest
      dsimp only at hRest
      subst hRest
      obtain ⟨rfl, hAppend⟩ :=
        nameParts_append (j := n + i + 1) hParts (hTail hPermits).not_qualifier
      refine .name hHead hCast (hAppend.trans ?_)
      rw [Nat.add_assoc n, Nat.add_assoc n]
      rfl
  | @qualified i t part ts text rest hHead hPart hParts =>
      obtain ⟨j, rs⟩ := rest
      dsimp only at hRest
      subst hRest
      obtain ⟨rfl, hAppend⟩ :=
        nameParts_append (j := n + i + 2) hParts (hTail hPermits).not_qualifier
      refine .qualified hHead hPart (hAppend.trans ?_)
      rw [Nat.add_assoc n, Nat.add_assoc n]
      rfl

/-- Where tokens stand does not matter for whether a cast starts with them. -/
theorem castType?_eq_none_of_index {j : Nat} (h : (Source.mk i ts).castType? = none) :
    (Source.mk j ts).castType? = none := by
  by_contra hSome
  obtain ⟨⟨type, rest⟩, hType⟩ := Option.ne_none_iff_exists'.mp hSome
  obtain ⟨used, hTokens, -, -, hRest, hMove⟩ := castType?_append hType
  dsimp only at hTokens
  rw [hTokens, hMove i rest.tokens hRest] at h
  cases h

/-- What is read with other tokens behind a body is read with them where the body stands among
others. -/
theorem Absorbs.within {before behind : List Token} (h : Absorbs body behind X)
    (hLt : X.range.start < X.range.stop) (hLe : X.range.stop ≤ body.length) :
    Absorbs (before ++ (body ++ behind)) [] (X.moved before.length) := by
  have hDrop : ∀ j ≤ body.length,
      (before ++ (body ++ behind)).drop (before.length + j) ++ [] = body.drop j ++ behind :=
      fun j hj => by
    rw [List.append_nil, List.drop_length_add_append, List.drop_append_of_le_length hj]
  cases X with
  | allocate r =>
      intro hRead
      dsimp only [moved, rebuild, range] at hRead hLt hLe
      rw [Nat.add_assoc, hDrop _ (Nat.le_trans hLt hLe), hDrop _ hLe] at hRead
      exact h ((isLocal_skipAllocation hRead).elsewhere (by dsimp only; omega))
  | paren r e =>
      intro hNone
      dsimp only [moved, rebuild, range] at hNone hLt hLe
      rw [hDrop _ (Nat.le_trans (Nat.le_of_lt hLt) hLe)] at hNone
      exact h (castType?_eq_none_of_index hNone)
  | _ => cases h

/-- In parentheses stands an expression. -/
theorem Parses.paren_of_isPunct (h : Parses .primary s [base] m) {t : Token} (ht : t ∈ s.peek?)
    (hParen : t.isPunct "(" = true) : ∃ e, base = .paren ⟨s.index, m.index⟩ e := by
  have hKind := kind_of_isPunct hParen
  cases h with
  | atom hAtom =>
      cases hAtom with
      | constant hKind' | strings hKind' =>
          cases ht
          simp [hKind] at hKind'
      | name hHead =>
          cases ht
          simp [Token.isIdentifier, hKind] at hHead
      | qualified hHead =>
          cases ht
          simp only [Token.isPunct, Bool.and_eq_true, beq_iff_eq] at hHead hParen
          exact absurd (hHead.2.symm.trans hParen.2) (by decide)
  | prefixed hPrefix => cases hPrefix
  | enclosed hOpening =>
      cases hOpening with
      | paren => exact ⟨_, rfl⟩
      | cast hHead =>
          cases ht
          simp [Token.isIdentifier, hKind] at hHead

/-- Where an operand starts with neither an operator nor a cast it does so with other tokens behind
it, unless these make one of a parenthesis. -/
theorem Parses.isPlain_extended (h : Parses .primary s [base] m) (hPlain : s.IsPlain)
    (hs : s.tokens = body.drop s.index) (hApart : ¬ Absorbs body tail base) :
    (s.extended n tail).IsPlain := by
  obtain ⟨t, ht, hHead, -⟩ := hPlain
  have hSome : s.tokens ≠ [] := by
    rintro hNil
    simp [peek?, hNil] at ht
  refine ⟨t, by rwa [peek?, head?_extended hSome], hHead, fun hParen => ?_⟩
  obtain ⟨inner, rfl⟩ := h.paren_of_isPunct ht hParen
  exact castType?_eq_none_of_index (by simpa [Absorbs, hs] using hApart)

/-- Something is read for a goal for one expression. -/
theorem Parses.tokens_ne_nil (h : Parses g s es rest) (hSingle : g.IsSingle) : s.tokens ≠ [] := by
  have hCovers := h.covers
  obtain ⟨used, hTokens, hIndex⟩ := h.leads
  have hLt : s.index < rest.index := by
    cases g with
    | items | arguments | operands | suffixes => cases hSingle
    | _ => exact hCovers.1
  rintro hNil
  rw [hNil] at hTokens
  have hUsed := (List.append_eq_nil_iff.mp hTokens.symm).1
  rw [hUsed, List.length_nil] at hIndex
  omega

/-- What was read up to the end of its tokens is read where others follow. -/
theorem Parses.extended (h : Parses g s es rest) (hs : s.tokens = body.drop s.index)
    (hApart : ∀ X ∈ nodesAll es, ¬ Absorbs body tail X)
    (hPermits : rest.tokens = [] → g.Permits (rest.extended n tail)) :
    Parses (g.moved n) (s.extended n tail) (es.map (moved n)) (rest.extended n tail) := by
  induction h with
  | @expression e es s m rest hFirst hItems ihFirst ihItems =>
      have hm : m.tokens ≠ [] := hItems.leads.tokens_ne_nil hPermits
      simp only [nodesAll_singleton] at hApart ihFirst
      have hFirst' := ihFirst hs (fun X hX => hApart X (mem_nodes_listed_of_first hX)) (absurd · hm)
      have hItems' := ihItems (hFirst.leads.drop hs)
        (fun X hX => hApart X (mem_nodes_listed_of_items hX)) hPermits
      rw [List.map_singleton, moved_listed]
      exact .expression hFirst' hItems'
  | @noItem s hNext =>
      refine .noItem ?_
      rwa [isAt_congr (head?_extended hPermits)]
  | @item e es s m rest hNext hFirst hItems ihFirst ihItems =>
      have hm : m.tokens ≠ [] := hItems.leads.tokens_ne_nil hPermits
      have hSome := tokens_ne_nil_of_op? (op?_of_isAt hNext)
      have hn := (leads_next (op?_of_isAt hNext)).drop hs
      simp only [nodesAll_singleton] at ihFirst
      simp only [nodesAll_cons, List.mem_append] at hApart
      have hFirst' := ihFirst hn (fun X hX => hApart X (.inl hX)) (absurd · hm)
      have hItems' := ihItems (hFirst.leads.drop hn) (fun X hX => hApart X (.inr hX)) hPermits
      rw [← next_extended hSome] at hFirst'
      exact .item (isAt_extended hNext) hFirst' hItems'
  | @atom g s rest build hAtom =>
      have hAtom' := hAtom.extended hs (hApart _ (by simpa using mem_nodes_self _)) hPermits
      rw [List.map_singleton, hAtom.moved_eq, Goal.moved_of_atom hAtom]
      exact .atom hAtom'
  | @prefixed g s m rest build e hPrefix hOperand ih =>
      have hLocal := isLocal_prefixed g build hPrefix
      have hm : m.tokens ≠ [] := hOperand.tokens_ne_nil (by cases hPrefix <;> trivial)
      have hOperand' := ih (hLocal.leads.drop hs) (fun X hX => hApart X ?_) hPermits
      swap
      · rw [nodesAll_singleton, mem_nodes_of_children hPrefix.children_eq]
        exact .inr hX
      rw [List.map_singleton, hPrefix.moved_eq]
      rw [Goal.moved_of_prefix hPrefix] at hOperand' ⊢
      exact .prefixed (hLocal.extended hm) hOperand'
  | @assign s m rest op target value hHead hTarget hOp hValue ihTarget ihValue =>
      obtain ⟨symbol, hSymbol, -⟩ := op?_of_bind hOp
      have hm := tokens_ne_nil_of_op? hSymbol
      have hn := (leads_next hSymbol).drop (hTarget.leads.drop hs)
      simp only [nodesAll_singleton] at ihTarget ihValue
      simp only [nodesAll_singleton] at hApart
      have hTarget' := ihTarget hs
        (fun X hX => hApart X (mem_nodes_of_child List.mem_cons_self hX)) (absurd · hm)
      have hValue' := ihValue hn
        (fun X hX => hApart X (mem_nodes_of_child (List.mem_cons_of_mem _ List.mem_cons_self) hX))
        hPermits
      rw [← next_extended hm] at hValue'
      refine .assign ?_ hTarget' ?_ hValue'
      · rwa [isAtName_congr (head?_extended (hTarget.tokens_ne_nil trivial))]
      · rwa [op?_congr (head?_extended hm)]
  | @unassigned s rest e hHead hOperand hOp ih =>
      refine .unassigned ?_ (ih hs hApart hPermits) ?_
      · rwa [isAtName_congr (head?_extended (hOperand.tokens_ne_nil trivial))]
      · by_cases hRest : rest.tokens = []
        · exact (hPermits hRest).leaves.assignmentEnds.2
        · rwa [op?_congr (head?_extended hRest)]
  | @conditional s m k l rest condition whenTrue whenFalse hCondition hMark hTrue hColon hFalse
      ihCondition ihTrue ihFalse =>
      have hSymbol := op?_of_isAt hMark
      have hm := tokens_ne_nil_of_op? hSymbol
      have hk : k.tokens ≠ [] :=
        tokens_ne_nil_of_op? (op?_of_isAt (isAt_of_expect hColon (by decide)))
      have hn := (leads_next hSymbol).drop (hCondition.leads.drop hs)
      have hl := (leads_expect hColon).1.drop (hTrue.leads.drop hn)
      simp only [nodesAll_singleton] at hApart ihCondition ihTrue ihFalse
      have hCondition' := ihCondition hs
        (fun X hX => hApart X (mem_nodes_of_child (by simp [children]) hX)) (absurd · hm)
      have hTrue' := ihTrue hn
        (fun X hX => hApart X (mem_nodes_of_child (c := whenTrue) (by simp [children]) hX))
        (absurd · hk)
      have hFalse' := ihFalse hl
        (fun X hX => hApart X (mem_nodes_of_child (c := whenFalse) (by simp [children]) hX))
        hPermits
      rw [← next_extended hm] at hTrue'
      exact .conditional hCondition' (isAt_extended hMark) hTrue'
        ((passes_expect hColon).extended trivial) hFalse'
  | @unconditional s rest e hOperand hMark ih =>
      have hOperand' := ih hs hApart fun hRest => ⟨2, by decide, by decide, hPermits hRest⟩
      refine .unconditional hOperand' ?_
      by_cases hRest : rest.tokens = []
      · exact (hPermits hRest).leaves.not_isAt (by decide)
      · rwa [isAt_congr (head?_extended hRest)]
  | @binary least s m rest left e hLeft hOperands ihLeft ihOperands =>
      have hLeft' := ihLeft hs (fun X hX => hApart X (hOperands.mem_of_held hX)) fun hm => by
        have hRest := hOperands.leads.tokens_eq_nil hm
        obtain ⟨p, -, hLe, hFollows⟩ := hPermits hRest
        exact (hFollows.mono hLe).congr (by simp [Source.extended, hm, hRest])
      exact .binary hLeft' (ihOperands (hLeft.leads.drop hs) hApart hPermits)
  | @lastOperand least start left s hNext =>
      refine .lastOperand fun op hOp => ?_
      by_cases hRest : s.tokens = []
      · obtain ⟨p, hLt, -, hFollows⟩ := hPermits hRest
        exact hFollows.leaves.binaryEnds hLt op hOp
      · rw [op?_congr (head?_extended hRest)] at hOp
        exact hNext op hOp
  | @operand least start left right e op s m rest hOp hLeast hRight hOperands ihRight ihOperands =>
      obtain ⟨symbol, hSymbol, -⟩ := op?_of_bind hOp
      have hSome := tokens_ne_nil_of_op? hSymbol
      have hn := (leads_next hSymbol).drop hs
      have hHeld : ∀ X ∈ right.nodes, X ∈ nodesAll [e] := fun X hX => hOperands.mem_of_held <| by
        rw [Goal.held, nodesAll_singleton]
        exact mem_nodes_of_child (List.mem_cons_of_mem _ List.mem_cons_self) hX
      have hRight' := ihRight hn (fun X hX => hApart X (hHeld X (by simpa using hX))) fun hm => by
        have hRest := hOperands.leads.tokens_eq_nil hm
        obtain ⟨p, hLt, hLe, hFollows⟩ := hPermits hRest
        refine ⟨p, Nat.lt_succ_of_lt (Nat.lt_of_lt_of_le hLt hLeast), hLe, ?_⟩
        exact hFollows.congr (by simp [Source.extended, hm, hRest])
      rw [← next_extended hSome] at hRight'
      refine .operand ?_ hLeast hRight' (ihOperands (hRight.leads.drop hn) hApart hPermits)
      rwa [op?_congr (head?_extended hSome)]
  | @simple s m rest base e hPlain hBase hSuffixes ihBase ihSuffixes =>
      have hBase' := ihBase hs (fun X hX => hApart X (hSuffixes.mem_of_held hX)) fun hm => by
        have hRest := hSuffixes.leads.tokens_eq_nil hm
        exact ((hPermits hRest).mono (by decide)).congr (by simp [Source.extended, hm, hRest])
      have hSuffixes' := ihSuffixes (hBase.leads.drop hs) hApart hPermits
      have hApart' := hApart base (hSuffixes.mem_of_held (by simp [Goal.held, mem_nodes_self]))
      exact .simple (hBase.isPlain_extended hPlain hs hApart') hBase' hSuffixes'
  | @lastSuffix start base s hNext =>
      refine .lastSuffix fun op hOp => ?_
      by_cases hRest : s.tokens = []
      · exact (hPermits hRest).leaves.not_suffix (by decide) op hOp
      · rw [op?_congr (head?_extended hRest)] at hOp
        exact hNext op hOp
  | @suffix start base e s m rest build hSuffix hSuffixes ih =>
      have hPasses := passes_suffix hSuffix
      have hSuffixes' := ih (hPasses.moves.leads.drop hs) hApart hPermits
      simp only [Goal.moved, hSuffix.moved_eq] at hSuffixes'
      exact .suffix (hPasses.extended trivial) hSuffixes'
  | @bracket start base e es s m k rest g opener closer build hBracket hOpen hInner hClose hSuffixes
      ihInner ihSuffixes =>
      have hSymbol := op?_of_isAt hOpen
      have hSome := tokens_ne_nil_of_op? hSymbol
      have hm : m.tokens ≠ [] :=
        tokens_ne_nil_of_op? (op?_of_isAt (isAt_of_expect hClose (by cases hBracket <;> decide)))
      have hn := (leads_next hSymbol).drop hs
      have hk := (leads_expect hClose).1.drop (hInner.leads.drop hn)
      have hInner' := ihInner hn (fun X hX => hApart X (hSuffixes.mem_of_held ?_)) (absurd · hm)
      · have hSuffixes' := ihSuffixes hk hApart hPermits
        simp only [Goal.moved, hBracket.moved_eq] at hSuffixes'
        rw [← next_extended hSome, Goal.moved_of_bracket hBracket] at hInner'
        exact .bracket hBracket (isAt_extended hOpen) hInner'
          ((passes_expect hClose).extended trivial) hSuffixes'
      · rw [Goal.held, nodesAll_singleton]
        exact hBracket.mem_nodes_of_inner hInner hX
  | @noArguments s hNext => exact .noArguments (isAt_extended hNext)
  | @arguments e es s m rest hNext hFirst hItems ihFirst ihItems =>
      have hm : m.tokens ≠ [] := hItems.leads.tokens_ne_nil hPermits
      simp only [nodesAll_singleton] at ihFirst
      simp only [nodesAll_cons, List.mem_append] at hApart
      have hFirst' := ihFirst hs (fun X hX => hApart X (.inl hX)) (absurd · hm)
      have hItems' := ihItems (hFirst.leads.drop hs) (fun X hX => hApart X (.inr hX)) hPermits
      refine .arguments ?_ hFirst' hItems'
      rwa [isAt_congr (head?_extended (hFirst.leads.tokens_ne_nil hm))]
  | @enclosed s m k rest build e hOpening hInner hClose ih =>
      have hPasses := passes_opening hOpening
      have hk : k.tokens ≠ [] :=
        tokens_ne_nil_of_op? (op?_of_isAt (isAt_of_expect hClose (by decide)))
      have hInner' := ih (hPasses.moves.leads.drop hs) (fun X hX => hApart X ?_) (absurd · hk)
      · rw [List.map_singleton, hOpening.moved_eq]
        exact .enclosed (hPasses.extended trivial) hInner' ((passes_expect hClose).extended trivial)
      · rw [nodesAll_singleton, mem_nodes_of_children hOpening.children_eq]
        exact .inr hX

end Demacro.Expr
