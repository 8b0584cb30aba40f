import Demacro.Proofs.Expr.Rereading

/-!
What is read before, behind and around an expanded name. Away from it what is read is read in the
same way where the name is written. If the expansion is grouped as the name is, the name is read
where it is written, and the rest is read around it as before.
-/

namespace Demacro.Expr

variable {u : Use} {s rest : Source} {g : Goal} {inner e : Expr} {es : List Expr}

theorem Use.ne_of_stop (hInner : inner.range = ⟨u.place, u.place + u.size⟩) {j k : Nat}
    (h : e.range = ⟨j, k⟩) (hStop : k < u.place ∨ u.place + u.size < k) : inner ≠ e := by
  rintro rfl
  rw [hInner] at h
  cases h
  omega

/-- What is read away from an expanded name is read from what is written there. What stood to its
left may have changed. -/
theorem Parses.outside (hSize : 0 < u.size) (hName : IsName u.name)
    (hInner : inner.range = ⟨u.place, u.place + u.size⟩) (h : Parses g s es rest) (hs : u.At s)
    (hApart : rest.index < u.place ∨ u.place + u.size ≤ s.index) : u.Rereads inner g s es rest := by
  have hWhole := h.covers
  induction h with
  | @expression e es s m rest hFirst hItems ihFirst ihItems =>
      have hLe := hFirst.leads.index_le
      have hLe' := hItems.leads.index_le
      have hLt := hWhole.1
      have hm := Use.at_of_leads hs hFirst.leads
      exact .expression hSize (ihFirst hs (by omega) hFirst.covers)
        (ihItems hm (by omega) hItems.covers)
        (by omega) (by omega) fun _ => Use.ne_of_stop hInner hWhole.range_eq (by omega)
  | noItem hNext => exact .noItem hSize hs hNext hApart
  | @item e es s m rest hNext hFirst hItems ihFirst ihItems =>
      have hIndex : s.next.index = s.index + 1 := rfl
      have hLe := hFirst.leads.index_le
      have hLe' := hItems.leads.index_le
      have hn := Use.at_of_leads hs (Source.leads_next (Source.op?_of_isAt hNext))
      have hm := Use.at_of_leads hn hFirst.leads
      exact .item hSize hs hNext (ihFirst hn (by omega) hFirst.covers)
        (ihItems hm (by omega) hItems.covers) (by omega)
  | @atom g s rest build hAtom =>
      have hLt := hAtom.index_lt
      exact .atom hSize hs hAtom (by omega) (by omega)
        (Use.ne_of_stop hInner hAtom.range_eq (by omega))
  | @prefixed g s m rest build e hPrefix hOperand ih =>
      have hLt := hPrefix.index_lt
      have hLe := hOperand.leads.index_le
      have hm := Use.at_of_leads hs (isLocal_prefixed g build hPrefix).leads
      exact .prefixed hSize hName hs hPrefix (ih hm (by omega) hOperand.covers) (by omega)
        (by omega) (Use.ne_of_stop hInner hPrefix.range_eq (by omega))
  | @assign s m rest op target value hHead hTarget hOp hValue ihTarget ihValue =>
      have hIndex : m.next.index = m.index + 1 := rfl
      have hLe := hTarget.leads.index_le
      have hLe' := hValue.leads.index_le
      obtain ⟨symbol, hSymbol, -⟩ := op?_of_bind hOp
      have hm := Use.at_of_leads hs hTarget.leads
      have hn := Use.at_of_leads hm (Source.leads_next hSymbol)
      exact .assign hSize hName hs hm hHead (ihTarget hs (by omega) hTarget.covers) hOp
        (ihValue hn (by omega) hValue.covers) (by omega) (by omega) (by omega)
        (Use.ne_of_stop hInner rfl (by omega))
  | @unassigned s rest e hHead hOperand hOp ih =>
      have hLe := hOperand.leads.index_le
      exact .unassigned hSize hName hs (Use.at_of_leads hs hOperand.leads) hHead
        (ih hs hApart hOperand.covers) hOp (by omega) (by omega)
  | @conditional s m k l rest condition whenTrue whenFalse hCondition hMark hTrue hColon hFalse
      ihCondition ihTrue ihFalse =>
      have hIndex : m.next.index = m.index + 1 := rfl
      have hLe := hCondition.leads.index_le
      have hLe' := hTrue.leads.index_le
      have hColonLt := (Source.leads_expect hColon).2
      have hLe'' := hFalse.leads.index_le
      have hm := Use.at_of_leads hs hCondition.leads
      have hn := Use.at_of_leads hm (Source.leads_next (Source.op?_of_isAt hMark))
      have hk := Use.at_of_leads hn hTrue.leads
      have hl := Use.at_of_leads hk (Source.leads_expect hColon).1
      exact .conditional hSize hm hk (ihCondition hs (by omega) hCondition.covers) hMark
        (ihTrue hn (by omega) hTrue.covers) hColon (ihFalse hl (by omega) hFalse.covers) (by omega)
        (by omega) (by omega) (by omega) (Use.ne_of_stop hInner rfl (by omega))
  | @unconditional s rest e hOperand hMark ih =>
      have hLe := hOperand.leads.index_le
      exact .unconditional hSize (Use.at_of_leads hs hOperand.leads) (ih hs hApart hOperand.covers)
        hMark (by omega)
  | @binary least s m rest left e hLeft hOperands ihLeft ihOperands =>
      have hLe := hLeft.leads.index_le
      have hLe' := hOperands.leads.index_le
      have hm := Use.at_of_leads hs hLeft.leads
      exact .binary hSize (ihLeft hs (by omega) hLeft.covers)
        (ihOperands hm (by omega) hOperands.covers) (by omega)
  | lastOperand hNext => exact .lastOperand hSize hs hNext hApart
  | @operand least start left right e op s m rest hOp hLeast hRight hOperands ihRight ihOperands =>
      have hIndex : s.next.index = s.index + 1 := rfl
      have hLe := hRight.leads.index_le
      have hLe' := hOperands.leads.index_le
      obtain ⟨symbol, hSymbol, -⟩ := op?_of_bind hOp
      have hn := Use.at_of_leads hs (Source.leads_next hSymbol)
      have hm := Use.at_of_leads hn hRight.leads
      exact .operand hSize hs hOp hLeast (ihRight hn (by omega) hRight.covers)
        (ihOperands hm (by omega) hOperands.covers) (by omega) (by omega)
        (Use.ne_of_stop hInner rfl (by omega))
  | @simple s m rest base e hPlain hBase hSuffixes ihBase ihSuffixes =>
      have hLe := hBase.leads.index_le
      have hLe' := hSuffixes.leads.index_le
      have hm := Use.at_of_leads hs hBase.leads
      exact .simple hSize hName hs hPlain (ihBase hs (by omega) hBase.covers)
        (ihSuffixes hm (by omega) hSuffixes.covers) (by omega)
  | lastSuffix hNext => exact .lastSuffix hSize hs hNext hApart
  | @suffix start base e s m rest build hSuffix hSuffixes ih =>
      have hLt := hSuffix.index_lt
      have hLe := hSuffixes.leads.index_le
      have hm := Use.at_of_leads hs (isLocal_suffix build hSuffix).leads
      exact .suffix hSize hs hSuffix (ih hm (by omega) hSuffixes.covers) (by omega) (by omega)
        (Use.ne_of_stop hInner hSuffix.range_eq (by omega))
  | @bracket start base e es s m k rest g opener closer build hBracket hOpen hInside hClose
      hSuffixes ihInside ihSuffixes =>
      have hIndex : s.next.index = s.index + 1 := rfl
      have hLe := hInside.leads.index_le
      have hCloseLt := (Source.leads_expect hClose).2
      have hLe' := hSuffixes.leads.index_le
      have hn := Use.at_of_leads hs (Source.leads_next (Source.op?_of_isAt hOpen))
      have hm := Use.at_of_leads hn hInside.leads
      have hk := Use.at_of_leads hm (Source.leads_expect hClose).1
      exact .bracket hSize hs hm hBracket hOpen (ihInside hn (by omega) hInside.covers) hClose
        (ihSuffixes hk (by omega) hSuffixes.covers) (by omega) (by omega) (by omega)
        (Use.ne_of_stop hInner hBracket.range_eq (by omega))
  | noArguments hNext => exact .noArguments hSize hs hNext hApart
  | @arguments e es s m rest hNext hFirst hItems ihFirst ihItems =>
      have hLe := hFirst.leads.index_le
      have hLe' := hItems.leads.index_le
      have hm := Use.at_of_leads hs hFirst.leads
      exact .arguments hSize hName hs hNext (ihFirst hs (by omega) hFirst.covers)
        (ihItems hm (by omega) hItems.covers) (by omega)
  | @enclosed s m k rest build e hOpening hInside hClose ih =>
      have hLt := hOpening.index_lt
      have hLe := hInside.leads.index_le
      have hCloseLt := (Source.leads_expect hClose).2
      have hm := Use.at_of_leads hs (passes_opening hOpening).moves.leads
      have hk := Use.at_of_leads hm hInside.leads
      exact .enclosed hSize hs hk hOpening (ih hm (by omega) hInside.covers) hClose (by omega)
        (by omega) (by omega) (Use.ne_of_stop hInner hOpening.range_eq (by omega))

variable {X : Expr}

/-- Where a loop goes on behind a node that it made of what was there before. -/
def Goal.Resumes (X : Expr) (s : Source) (es : List Expr) (rest : Source) : Goal → Prop
  | .operands least start left =>
    X ∉ left.nodes → X.range.start = start → start ≤ s.index →
      ∃ m, m.index = X.range.stop ∧ s.Leads m ∧ Parses (.operands least start X) m es rest
  | .suffixes start base =>
    X ∉ base.nodes → X.range.start = start → start ≤ s.index →
      ∃ m, m.index = X.range.stop ∧ s.Leads m ∧ Parses (.suffixes start X) m es rest
  | _ => True

theorem Parses.resumes (h : Parses g s es rest) (hX : X ∈ nodesAll es) : g.Resumes X s es rest := by
  induction h with
  | atom hAtom => cases hAtom <;> trivial
  | prefixed hPrefix => cases hPrefix <;> trivial
  | lastOperand | lastSuffix => exact fun hNot => absurd (by simpa using hX) hNot
  | @operand least start left right e op s m rest hOp hLeast hRight hOperands _ ih =>
      intro hNot hStart hLe
      have hIndex : s.next.index = s.index + 1 := rfl
      have hMiddle := hRight.leads.index_le
      obtain ⟨symbol, hSymbol, -⟩ := op?_of_bind hOp
      have hLeads := (Source.leads_next hSymbol).trans hRight.leads
      by_cases hNew : X = .binary ⟨start, m.index⟩ op left right
      · subst hNew
        exact ⟨m, rfl, hLeads, hOperands⟩
      · have hNotNew : X ∉ (Expr.binary ⟨start, m.index⟩ op left right).nodes := by
          intro hMem
          have hMem := (mem_nodes.mp hMem).resolve_left hNew
          simp only [children, nodesAll_cons, nodesAll_nil, List.append_nil,
            List.mem_append] at hMem
          have hSpans : Within s.next m X := hRight.spans (by simpa using hMem.resolve_left hNot)
          have hFirst := hSpans.1
          omega
        obtain ⟨k, hk, hLeads', hRest⟩ := ih hX hNotNew hStart (by omega)
        exact ⟨k, hk, hLeads.trans hLeads', hRest⟩
  | @suffix start base e s m rest build hSuffix hSuffixes ih =>
      intro hNot hStart hLe
      have hLt := hSuffix.index_lt
      have hLeads := (isLocal_suffix build hSuffix).leads
      by_cases hNew : X = build ⟨start, m.index⟩ base
      · subst hNew
        exact ⟨m, by rw [hSuffix.range_eq], hLeads, hSuffixes⟩
      · have hNotNew : X ∉ (build ⟨start, m.index⟩ base).nodes := by
          rw [mem_nodes_of_children hSuffix.children_eq, nodesAll_singleton]
          exact not_or.mpr ⟨hNew, hNot⟩
        obtain ⟨k, hk, hLeads', hRest⟩ := ih hX hNotNew hStart (by omega)
        exact ⟨k, hk, hLeads.trans hLeads', hRest⟩
  | @bracket start base e es s m k rest g opener closer build hBracket hOpen hInside hClose
      hSuffixes
      _ ih =>
      intro hNot hStart hLe
      have hIndex : s.next.index = s.index + 1 := rfl
      have hMiddle := hInside.leads.index_le
      have hCloseLt := (Source.leads_expect hClose).2
      have hLeads := (Source.leads_next (Source.op?_of_isAt hOpen)).trans
        (hInside.leads.trans (Source.leads_expect hClose).1)
      by_cases hNew : X = build ⟨start, k.index⟩ base es
      · subst hNew
        exact ⟨k, by rw [hBracket.range_eq], hLeads, hSuffixes⟩
      · have hNotNew : X ∉ (build ⟨start, k.index⟩ base es).nodes := by
          intro hMem
          have hMem := ((hBracket.mem_nodes hMem).resolve_left hNew).resolve_left hNot
          have hSpans : Within s.next m X := by
            have hSpans := hInside.spans hMem
            cases hBracket <;> exact hSpans
          have hFirst := hSpans.1
          omega
        obtain ⟨l, hl, hLeads', hRest⟩ := ih hX hNotNew hStart (by omega)
        exact ⟨l, hl, hLeads.trans hLeads', hRest⟩
  | _ => trivial

/-- Where the name is read and what it stands for is read from the expansion, both end alike. -/
theorem Use.Rereads.leaf (hSize : 0 < u.size) (hName : IsName u.name) (hSingle : g.IsSingle)
    (hs : s.index = u.place) (hRest : rest.index = u.place + u.size) (hAt : u.At rest)
    (hEnds : g.Ends s rest) (hClosed : g.Closed rest) : u.Rereads X g s [X] rest := by
  have hBehind : rest.tokens = u.behind := by
    have hTokens := congrArg Source.tokens (Use.source_stop hSize)
    rw [Use.source_behind hSize (Nat.le_refl _)] at hTokens
    rw [hAt, hRest]
    exact hTokens
  obtain ⟨i, ts⟩ := rest
  dsimp only at hRest hBehind
  subst hRest hBehind
  have hParses : Parses g (u.source s.index) [u.leaf] (u.source (u.place + u.size)) := by
    rw [hs, Use.source_place, Use.source_stop hSize]
    refine hName.parses (s := s) hSingle ?_ ?_
    · cases g <;> exact hEnds
    · cases g <;> exact hClosed
  intro g' hSuits
  have hSame : g' = g := by
    cases g with
    | operands | suffixes => cases hSingle
    | _ => exact hSuits
  subst hSame
  exact ⟨[u.leaf], hParses, .cons .leaf .nil⟩

/-- What stands for the name is not among what was read before. -/
def Goal.Later (u : Use) (X : Expr) : Goal → Prop
  | .operands _ start held | .suffixes start held => start < u.place ∧ X ∉ held.nodes
  | _ => True

/-- What is read around a node that covers exactly the expanded name is read around the name. -/
theorem Parses.inside (hSize : 0 < u.size) (hName : IsName u.name)
    (hX : X.range = ⟨u.place, u.place + u.size⟩) (h : Parses g s es rest) (hs : u.At s)
    (hMem : X ∈ nodesAll es) (hClosed : g.Closed rest) (hLater : g.Later u X) :
    u.Rereads X g s es rest := by
  have hStart : X.range.start = u.place := by rw [hX]
  have hStop : X.range.stop = u.place + u.size := by rw [hX]
  have hWhole := h.covers
  have hAt := Use.at_of_leads hs h.leads
  induction h with
  | @expression e es s m rest hFirst hItems ihFirst ihItems =>
      have hEnds := (expression hFirst hItems).ends
      have hm := Use.at_of_leads hs hFirst.leads
      have hLe := hFirst.leads.index_le
      have hLe' := hItems.leads.index_le
      by_cases hNode : X = listed ⟨s.index, rest.index⟩ e es
      · subst hNode
        rw [hWhole.range_eq] at hStart hStop
        exact .leaf hSize hName trivial hStart hStop hAt hEnds hClosed
      simp only [nodesAll_singleton] at hMem ihFirst
      rcases (mem_nodes_listed hMem).resolve_left hNode with hMem | hMem
      · obtain ⟨hLow, hHigh⟩ : Within s m X := hFirst.spans (by simpa using hMem)
        have hFirst' := ihFirst hs hMem (hItems.isClosed_items hClosed) trivial hFirst.covers hm
        have hItems' := hItems.outside hSize hName hX hm (by omega)
        exact .expression hSize hFirst' hItems' (by omega) (by omega) fun _ => hNode
      · obtain ⟨hLow, hHigh⟩ := hItems.spans hMem
        have hFirst' := hFirst.outside hSize hName hX hs (by omega)
        have hItems' := ihItems hm hMem hClosed trivial hItems.covers hAt
        exact .expression hSize hFirst' hItems' (by omega) (by omega) fun _ => hNode
  | noItem | noArguments => cases hMem
  | @item e es s m rest hNext hFirst hItems ihFirst ihItems =>
      have hIndex : s.next.index = s.index + 1 := rfl
      have hn := Use.at_of_leads hs (Source.leads_next (Source.op?_of_isAt hNext))
      have hm := Use.at_of_leads hn hFirst.leads
      have hLe := hFirst.leads.index_le
      have hLe' := hItems.leads.index_le
      simp only [nodesAll_singleton] at ihFirst
      rcases List.mem_append.mp hMem with hMem | hMem
      · obtain ⟨hLow, hHigh⟩ : Within s.next m X := hFirst.spans (by simpa using hMem)
        have hFirst' := ihFirst hn hMem (hItems.isClosed_items hClosed) trivial hFirst.covers hm
        have hItems' := hItems.outside hSize hName hX hm (by omega)
        exact .item hSize hs hNext hFirst' hItems' (by omega)
      · obtain ⟨hLow, hHigh⟩ := hItems.spans hMem
        have hFirst' := hFirst.outside hSize hName hX hn (by omega)
        have hItems' := ihItems hm hMem hClosed trivial hItems.covers hAt
        exact .item hSize hs hNext hFirst' hItems' (by omega)
  | @atom g s rest build hAtom =>
      have hEnds := (atom hAtom).ends
      rw [nodesAll_singleton, mem_nodes_of_children hAtom.children_eq] at hMem
      obtain rfl := hMem.resolve_right List.not_mem_nil
      rw [hAtom.range_eq] at hStart hStop
      exact .leaf hSize hName (by cases hAtom <;> trivial) hStart hStop hAt hEnds hClosed
  | @prefixed g s m rest build e hPrefix hOperand ih =>
      have hEnds := (prefixed hPrefix hOperand).ends
      have hm := Use.at_of_leads hs (isLocal_prefixed g build hPrefix).leads
      have hLt := hPrefix.index_lt
      rw [nodesAll_singleton, mem_nodes_of_children hPrefix.children_eq] at hMem
      by_cases hNode : X = build ⟨s.index, rest.index⟩ e
      · subst hNode
        rw [hPrefix.range_eq] at hStart hStop
        exact .leaf hSize hName (by cases hPrefix <;> trivial) hStart hStop hAt hEnds hClosed
      have hMem := hMem.resolve_left hNode
      obtain ⟨hLow, hHigh⟩ : Within m rest X := by
        have hSpans := hOperand.spans hMem
        cases hPrefix <;> exact hSpans
      have hOperand' := ih hm hMem hClosed hLater hOperand.covers hAt
      exact .prefixed hSize hName hs hPrefix hOperand' (by omega) (by omega) hNode
  | @assign s m rest op target value hHead hTarget hOp hValue ihTarget ihValue =>
      have hEnds := (assign hHead hTarget hOp hValue).ends
      have hIndex : m.next.index = m.index + 1 := rfl
      obtain ⟨symbol, hSymbol, -⟩ := op?_of_bind hOp
      have hm := Use.at_of_leads hs hTarget.leads
      have hn := Use.at_of_leads hm (Source.leads_next hSymbol)
      have hLe := hTarget.leads.index_le
      have hLe' := hValue.leads.index_le
      simp only [nodesAll_singleton] at hMem ihTarget ihValue
      by_cases hNode : X = .assign ⟨s.index, rest.index⟩ op target value
      · subst hNode
        exact .leaf hSize hName trivial hStart hStop hAt hEnds hClosed
      have hMem := (mem_nodes.mp hMem).resolve_left hNode
      simp only [children, nodesAll_cons, nodesAll_nil, List.append_nil, List.mem_append] at hMem
      rcases hMem with hMem | hMem
      · obtain ⟨hLow, hHigh⟩ : Within s m X := hTarget.spans (by simpa using hMem)
        have hTarget' := ihTarget hs hMem (Source.isClosed_of_assign hOp) trivial hTarget.covers hm
        have hValue' := hValue.outside hSize hName hX hn (by omega)
        exact .assign hSize hName hs hm hHead hTarget' hOp hValue' (by omega) (by omega) (by omega)
          hNode
      · obtain ⟨hLow, hHigh⟩ : Within m.next rest X := hValue.spans (by simpa using hMem)
        have hTarget' := hTarget.outside hSize hName hX hs (by omega)
        have hValue' := ihValue hn hMem hClosed trivial hValue.covers hAt
        exact .assign hSize hName hs hm hHead hTarget' hOp hValue' (by omega) (by omega) (by omega)
          hNode
  | @unassigned s rest e hHead hOperand hOp ih =>
      obtain ⟨hLow, hHigh⟩ : Within s rest X := hOperand.spans hMem
      have hOperand' := ih hs hMem hClosed trivial hOperand.covers hAt
      exact .unassigned hSize hName hs hAt hHead hOperand' hOp (by omega) (by omega)
  | @conditional s m k l rest condition whenTrue whenFalse hCondition hMark hTrue hColon hFalse
      ihCondition ihTrue ihFalse =>
      have hEnds := (conditional hCondition hMark hTrue hColon hFalse).ends
      have hIndex : m.next.index = m.index + 1 := rfl
      have hColonLt := (Source.leads_expect hColon).2
      have hm := Use.at_of_leads hs hCondition.leads
      have hn := Use.at_of_leads hm (Source.leads_next (Source.op?_of_isAt hMark))
      have hk := Use.at_of_leads hn hTrue.leads
      have hl := Use.at_of_leads hk (Source.leads_expect hColon).1
      have hLe := hCondition.leads.index_le
      have hLe' := hTrue.leads.index_le
      have hLe'' := hFalse.leads.index_le
      simp only [nodesAll_singleton] at hMem ihCondition ihTrue ihFalse
      by_cases hNode : X = .conditional ⟨s.index, rest.index⟩ condition whenTrue whenFalse
      · subst hNode
        exact .leaf hSize hName trivial hStart hStop hAt hEnds hClosed
      have hMem := (mem_nodes.mp hMem).resolve_left hNode
      simp only [children, nodesAll_cons, nodesAll_nil, List.append_nil, List.mem_append] at hMem
      rcases hMem with hMem | hMem | hMem
      · obtain ⟨hLow, hHigh⟩ : Within s m X := hCondition.spans (by simpa using hMem)
        have hCondition' := ihCondition hs hMem (Source.isClosed_of_isAt hMark (by decide)) trivial
          hCondition.covers hm
        have hTrue' := hTrue.outside hSize hName hX hn (by omega)
        have hFalse' := hFalse.outside hSize hName hX hl (by omega)
        exact .conditional hSize hm hk hCondition' hMark hTrue' hColon hFalse' (by omega) (by omega)
          (by omega) (by omega) hNode
      · obtain ⟨hLow, hHigh⟩ : Within m.next k X := hTrue.spans (by simpa using hMem)
        have hCondition' := hCondition.outside hSize hName hX hs (by omega)
        have hTrue' := ihTrue hn hMem
          (Source.isClosed_of_isAt (Source.isAt_of_expect hColon (by decide)) (by decide)) trivial
          hTrue.covers hk
        have hFalse' := hFalse.outside hSize hName hX hl (by omega)
        exact .conditional hSize hm hk hCondition' hMark hTrue' hColon hFalse' (by omega) (by omega)
          (by omega) (by omega) hNode
      · obtain ⟨hLow, hHigh⟩ : Within l rest X := hFalse.spans (by simpa using hMem)
        have hCondition' := hCondition.outside hSize hName hX hs (by omega)
        have hTrue' := hTrue.outside hSize hName hX hn (by omega)
        have hFalse' := ihFalse hl hMem hClosed trivial hFalse.covers hAt
        exact .conditional hSize hm hk hCondition' hMark hTrue' hColon hFalse' (by omega) (by omega)
          (by omega) (by omega) hNode
  | @unconditional s rest e hOperand hMark ih =>
      obtain ⟨hLow, hHigh⟩ : Within s rest X := hOperand.spans hMem
      have hOperand' := ih hs hMem hClosed trivial hOperand.covers hAt
      exact .unconditional hSize hAt hOperand' hMark (by omega)
  | @binary least s m rest left e hLeft hOperands ihLeft ihOperands =>
      have hm := Use.at_of_leads hs hLeft.leads
      have hLe := hLeft.leads.index_le
      simp only [nodesAll_singleton] at ihLeft
      by_cases hMem' : X ∈ left.nodes
      · obtain ⟨hLow, hHigh⟩ : Within s m X := hLeft.spans (by simpa using hMem')
        have hLeft' := ihLeft hs hMem' (hOperands.isClosed_operands hClosed) trivial hLeft.covers hm
        have hOperands' := hOperands.outside hSize hName hX hm (by omega)
        exact .binary hSize hLeft' hOperands' (by omega)
      obtain ⟨hFirst, -, -⟩ | ⟨hLow, hHigh⟩ := (hOperands.spans hMem).resolve_left hMem'
      -- The name stands for the first operands together, so the loop goes on behind them.
      · obtain ⟨k, hIndex, hLeads, hRest⟩ := hOperands.resumes hMem hMem' hFirst hLe
        have hk := Use.at_of_leads hm hLeads
        have hLeft' : u.Rereads X .unary s [X] k :=
          .leaf hSize hName trivial (by omega) (by omega) hk trivial
            (hRest.isClosed_operands hClosed)
        have hOperands' := hRest.outside hSize hName hX hk (by omega)
        exact .binary hSize hLeft' hOperands' (by omega)
      · have hLeft' := hLeft.outside hSize hName hX hs (by omega)
        have hOperands' := ihOperands hm hMem hClosed ⟨by omega, hMem'⟩ hOperands.covers hAt
        exact .binary hSize hLeft' hOperands' (by omega)
  | lastOperand | lastSuffix => exact absurd (by simpa using hMem) hLater.2
  | @operand least start left right e op s m rest hOp hLeast hRight hOperands ihRight ihOperands =>
      obtain ⟨hBefore, hNot⟩ := hLater
      obtain ⟨symbol, hSymbol, -⟩ := op?_of_bind hOp
      have hIndex : s.next.index = s.index + 1 := rfl
      have hn := Use.at_of_leads hs (Source.leads_next hSymbol)
      have hm := Use.at_of_leads hn hRight.leads
      have hLe := hRight.leads.index_le
      simp only [nodesAll_singleton] at ihRight
      have hNode : X ≠ .binary ⟨start, m.index⟩ op left right := by
        rintro rfl
        exact Nat.ne_of_lt hBefore hStart
      by_cases hMem' : X ∈ right.nodes
      · obtain ⟨hLow, hHigh⟩ : Within s.next m X := hRight.spans (by simpa using hMem')
        have hRight' :=
          ihRight hn hMem' (hOperands.isClosed_operands hClosed) trivial hRight.covers hm
        have hOperands' := hOperands.outside hSize hName hX hm (by omega)
        exact .operand hSize hs hOp hLeast hRight' hOperands' (by omega) (by omega) hNode
      have hNot' : X ∉ (Expr.binary ⟨start, m.index⟩ op left right).nodes := by
        have hChildren : (Expr.binary ⟨start, m.index⟩ op left right).children = [left, right] :=
          rfl
        rw [mem_nodes_of_children hChildren, nodesAll_cons, nodesAll_singleton, List.mem_append]
        exact not_or.mpr ⟨hNode, not_or.mpr ⟨hNot, hMem'⟩⟩
      obtain ⟨hFirst, -, -⟩ | ⟨hLow, hHigh⟩ := (hOperands.spans hMem).resolve_left hNot'
      · omega
      have hRight' := hRight.outside hSize hName hX hn (by omega)
      have hOperands' := ihOperands hm hMem hClosed ⟨hBefore, hNot'⟩ hOperands.covers hAt
      exact .operand hSize hs hOp hLeast hRight' hOperands' (by omega) (by omega) hNode
  | @simple s m rest base e hPlain hBase hSuffixes ihBase ihSuffixes =>
      have hm := Use.at_of_leads hs hBase.leads
      have hLe := hBase.leads.index_le
      simp only [nodesAll_singleton] at ihBase
      by_cases hMem' : X ∈ base.nodes
      · obtain ⟨hLow, hHigh⟩ : Within s m X := hBase.spans (by simpa using hMem')
        have hBase' := ihBase hs hMem' (hSuffixes.isAt_suffixes hClosed) trivial hBase.covers hm
        have hSuffixes' := hSuffixes.outside hSize hName hX hm (by omega)
        exact .simple hSize hName hs hPlain hBase' hSuffixes' (by omega)
      obtain ⟨hFirst, -, -⟩ | ⟨hLow, hHigh⟩ := (hSuffixes.spans hMem).resolve_left hMem'
      -- The name stands for the operand with its first suffixes.
      · obtain ⟨k, hIndex, hLeads, hRest⟩ := hSuffixes.resumes hMem hMem' hFirst hLe
        have hk := Use.at_of_leads hm hLeads
        have hBase' : u.Rereads X .primary s [X] k :=
          .leaf hSize hName trivial (by omega) (by omega) hk trivial (hRest.isAt_suffixes hClosed)
        have hSuffixes' := hRest.outside hSize hName hX hk (by omega)
        exact .simple hSize hName hs hPlain hBase' hSuffixes' (by omega)
      · have hBase' := hBase.outside hSize hName hX hs (by omega)
        have hSuffixes' := ihSuffixes hm hMem hClosed ⟨by omega, hMem'⟩ hSuffixes.covers hAt
        exact .simple hSize hName hs hPlain hBase' hSuffixes' (by omega)
  | @suffix start base e s m rest build hSuffix hSuffixes ih =>
      obtain ⟨hBefore, hNot⟩ := hLater
      have hm := Use.at_of_leads hs (isLocal_suffix build hSuffix).leads
      have hNode : X ≠ build ⟨start, m.index⟩ base := by
        rintro rfl
        rw [hSuffix.range_eq] at hStart
        exact Nat.ne_of_lt hBefore hStart
      have hNot' : X ∉ (build ⟨start, m.index⟩ base).nodes := by
        rw [mem_nodes_of_children hSuffix.children_eq, nodesAll_singleton]
        exact not_or.mpr ⟨hNode, hNot⟩
      obtain ⟨hFirst, -, -⟩ | ⟨hLow, hHigh⟩ := (hSuffixes.spans hMem).resolve_left hNot'
      · omega
      have hSuffixes' := ih hm hMem hClosed ⟨hBefore, hNot'⟩ hSuffixes.covers hAt
      exact .suffix hSize hs hSuffix hSuffixes' (by omega) (by omega) hNode
  | @bracket start base e es s m k rest g opener closer build hBracket hOpen hInside hClose
      hSuffixes ihInside ihSuffixes =>
      obtain ⟨hBefore, hNot⟩ := hLater
      have hIndex : s.next.index = s.index + 1 := rfl
      have hCloseLt := (Source.leads_expect hClose).2
      have hn := Use.at_of_leads hs (Source.leads_next (Source.op?_of_isAt hOpen))
      have hm := Use.at_of_leads hn hInside.leads
      have hk := Use.at_of_leads hm (Source.leads_expect hClose).1
      have hLe := hInside.leads.index_le
      have hNode : X ≠ build ⟨start, k.index⟩ base es := by
        rintro rfl
        rw [hBracket.range_eq] at hStart
        exact Nat.ne_of_lt hBefore hStart
      by_cases hMem' : X ∈ nodesAll es
      · obtain ⟨hLow, hHigh⟩ : Within s.next m X := by
          have hSpans := hInside.spans hMem'
          cases hBracket <;> exact hSpans
        have hInside' : u.Rereads X g s.next es m := by
          refine ihInside hn hMem' ?_ ?_ hInside.covers hm
          · cases hBracket <;>
              exact Source.isClosed_of_isAt (Source.isAt_of_expect hClose (by decide)) (by decide)
          · cases hBracket <;> trivial
        have hSuffixes' := hSuffixes.outside hSize hName hX hk (by omega)
        exact .bracket hSize hs hm hBracket hOpen hInside' hClose hSuffixes' (by omega) (by omega)
          (by omega) hNode
      have hNot' : X ∉ (build ⟨start, k.index⟩ base es).nodes :=
        fun hMem => (((hBracket.mem_nodes hMem).resolve_left hNode).resolve_left hNot) |> hMem'
      obtain ⟨hFirst, -, -⟩ | ⟨hLow, hHigh⟩ := (hSuffixes.spans hMem).resolve_left hNot'
      · omega
      have hInside' := hInside.outside hSize hName hX hn (by omega)
      have hSuffixes' := ihSuffixes hk hMem hClosed ⟨hBefore, hNot'⟩ hSuffixes.covers hAt
      exact .bracket hSize hs hm hBracket hOpen hInside' hClose hSuffixes' (by omega) (by omega)
        (by omega) hNode
  | @arguments e es s m rest hNext hFirst hItems ihFirst ihItems =>
      have hm := Use.at_of_leads hs hFirst.leads
      have hLe := hFirst.leads.index_le
      simp only [nodesAll_singleton] at ihFirst
      rcases List.mem_append.mp hMem with hMem | hMem
      · obtain ⟨hLow, hHigh⟩ : Within s m X := hFirst.spans (by simpa using hMem)
        have hFirst' := ihFirst hs hMem (hItems.isClosed_items hClosed) trivial hFirst.covers hm
        have hItems' := hItems.outside hSize hName hX hm (by omega)
        exact .arguments hSize hName hs hNext hFirst' hItems' (by omega)
      · obtain ⟨hLow, hHigh⟩ := hItems.spans hMem
        have hFirst' := hFirst.outside hSize hName hX hs (by omega)
        have hItems' := ihItems hm hMem hClosed trivial hItems.covers hAt
        exact .arguments hSize hName hs hNext hFirst' hItems' (by omega)
  | @enclosed s m k rest build e hOpening hInside hClose ih =>
      have hOpened := hOpening.index_lt
      have hCloseLt := (Source.leads_expect hClose).2
      have hm := Use.at_of_leads hs (passes_opening hOpening).moves.leads
      have hk := Use.at_of_leads hm hInside.leads
      rw [nodesAll_singleton, mem_nodes_of_children hOpening.children_eq] at hMem
      by_cases hNode : X = build ⟨s.index, rest.index⟩ e
      · subst hNode
        rw [hOpening.range_eq] at hStart hStop
        exact .leaf hSize hName trivial hStart hStop hAt trivial hClosed
      have hMem := hMem.resolve_left hNode
      obtain ⟨hLow, hHigh⟩ : Within m k X := hInside.spans hMem
      have hInside' := ih hm hMem
        (Source.isClosed_of_isAt (Source.isAt_of_expect hClose (by decide)) (by decide)) trivial
        hInside.covers hk
      exact .enclosed hSize hs hk hOpening hInside' hClose (by omega) (by omega) (by omega) hNode

end Demacro.Expr
