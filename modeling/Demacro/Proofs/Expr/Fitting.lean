import Demacro.Proofs.Expr.Extent
import Demacro.Proofs.Expr.Locality
import Demacro.Proofs.Expr.Names
import Demacro.Proofs.Expr.Nodes

/-!
A name among other tokens, and the tokens that stand there once it is expanded. Away from that place
the tokens are the same in both, and what is read there is the same. A written expression fits one
of the expansion if filling in what the name stands for gives that one, and the name is in it
whenever what it stands for is in the other.
-/

namespace Demacro.Expr

/-- A name at a place in a sequence of tokens, and the tokens that it expands to. -/
structure Use where
  before : List Token
  name : Token
  body : List Token
  behind : List Token

namespace Use

/-- The tokens as they are written. -/
def written (u : Use) : List Token :=
  u.before ++ u.name :: u.behind

/-- The tokens with the name expanded. -/
def expansion (u : Use) : List Token :=
  u.before ++ (u.body ++ u.behind)

/-- The place of the name. -/
def place (u : Use) : Nat :=
  u.before.length

/-- How many tokens it expands to. -/
def size (u : Use) : Nat :=
  u.body.length

/-- The place in the expansion of what is written at place `k`. -/
def forth (u : Use) (k : Nat) : Nat :=
  if k ≤ u.place then k else k + u.size - 1

/-- The place where what is at place `k` of the expansion is written. -/
def back (u : Use) (k : Nat) : Nat :=
  if k ≤ u.place then k else k + 1 - u.size

/-- What is written from a place of the expansion on. -/
def source (u : Use) (k : Nat) : Source :=
  ⟨u.back k, u.written.drop (u.back k)⟩

/-- A source is what is left of the expansion. -/
def At (u : Use) (s : Source) : Prop :=
  s.tokens = u.expansion.drop s.index

/-- The same token is written at a place as is in the expansion. -/
abbrev Off (u : Use) (k : Nat) : Prop :=
  k < u.place ∨ u.place + u.size ≤ k

/-- A place is not amid the tokens of the expanded name. -/
abbrev Cuts (u : Use) (k : Nat) : Prop :=
  k ≤ u.place ∨ u.place + u.size ≤ k

/-- None of the tokens of the expanded name is between two places. -/
abbrev Apart (u : Use) (k l : Nat) : Prop :=
  l ≤ u.place ∨ u.place + u.size ≤ k

/-- A written expression with `inner` in the place of the name, over the tokens of the expansion. -/
def fill (u : Use) (inner : Expr) : Expr → Expr :=
  rebuild (fun r => ⟨u.forth r.start, u.forth r.stop⟩) fun r text =>
    if r = ⟨u.place, u.place + 1⟩ then inner else .name ⟨u.forth r.start, u.forth r.stop⟩ text

/-- The name where it is written. -/
def leaf (u : Use) : Expr :=
  .name ⟨u.place, u.place + 1⟩ u.name.spelling

variable {u : Use} {s m rest : Source} {k : Nat} {inner : Expr}

theorem at_of_leads (hs : u.At s) (h : s.Leads rest) : u.At rest := by
  obtain ⟨used, hTokens, hIndex⟩ := h
  have hDrop : rest.tokens = s.tokens.drop used.length := by
    rw [hTokens, List.drop_left]
  rw [At, hDrop, hs, List.drop_drop, hIndex]

theorem source_before (h : k ≤ u.place) :
    u.source k = ⟨k, u.before.drop k ++ u.name :: u.behind⟩
      ∧ u.expansion.drop k = u.before.drop k ++ (u.body ++ u.behind) := by
  rw [source, back, if_pos h, written, expansion, List.drop_append_of_le_length h,
    List.drop_append_of_le_length h]
  exact ⟨rfl, rfl⟩

theorem source_place : u.source u.place = ⟨u.place, u.name :: u.behind⟩ := by
  rw [(source_before (Nat.le_refl u.place)).1, place, List.drop_length, List.nil_append]

section

variable (hSize : 0 < u.size)

include hSize

theorem source_behind (h : u.place + u.size ≤ k) :
    u.source k = ⟨k + 1 - u.size, u.expansion.drop k⟩ := by
  have hPlace : u.before.length = u.place := rfl
  have hBody : u.body.length = u.size := rfl
  have hWritten : u.written.drop (k + 1 - u.size) = u.behind.drop (k - u.place - u.size) := by
    have hCons : k + 1 - u.size - u.before.length = k - u.place - u.size + 1 := by omega
    rw [written, List.drop_append, List.drop_eq_nil_of_le (by omega), List.nil_append, hCons,
      List.drop_succ_cons]
  have hExpanded : u.expansion.drop k = u.behind.drop (k - u.place - u.size) := by
    rw [expansion, List.drop_append, List.drop_eq_nil_of_le (by omega), List.nil_append,
      List.drop_append, List.drop_eq_nil_of_le (by omega), List.nil_append, hPlace, hBody]
  rw [source, back, if_neg (by omega), hWritten, hExpanded]

/-- Behind the expanded name comes what is written behind the name. -/
theorem source_stop : u.source (u.place + u.size) = ⟨u.place + 1, u.behind⟩ := by
  rw [source_behind hSize (Nat.le_refl _), Source.mk.injEq]
  have hLength : u.place + u.size = (u.before ++ u.body).length := List.length_append.symm
  refine ⟨by omega, ?_⟩
  rw [expansion, ← List.append_assoc, hLength, List.drop_left]

theorem forth_back (h : u.Cuts k) : u.forth (u.back k) = k := by
  unfold forth back
  split_ifs <;> omega

/-- Away from the name the same token is written. -/
theorem head?_source (hs : u.At s) (h : u.Off s.index) :
    (u.source s.index).tokens.head? = s.tokens.head? := by
  rw [hs]
  rcases h with h | h
  · obtain ⟨hWritten, hExpanded⟩ := source_before (Nat.le_of_lt h)
    rw [hWritten, hExpanded, List.drop_eq_getElem_cons h]
    rfl
  · rw [source_behind hSize h]

theorem next_source (h : u.Off k) : (u.source k).next = u.source (k + 1) := by
  have hBack : u.back k + 1 = u.back (k + 1) := by
    unfold back
    split_ifs <;> omega
  rw [Source.next, source, source, ← hBack, List.drop_drop]

/-- A step away from the name can be taken over what is written, if that suits behind the step. -/
theorem step_source {P : List Token → Prop} {R : Source → Source → Prop} (hs : u.At s)
    (h : Source.Passes P R s rest) (hApart : u.Apart s.index rest.index)
    (hBehind : P (u.source rest.index).tokens) : R (u.source s.index) (u.source rest.index) := by
  obtain ⟨used, hTokens, hIndex, hMove⟩ := h
  have hRest := at_of_leads hs ⟨used, hTokens, hIndex⟩
  have hBack : u.back rest.index = u.back s.index + used.length := by
    unfold back
    split_ifs <;> omega
  have hWritten : (u.source s.index).tokens = used ++ (u.source rest.index).tokens := by
    rcases hApart with hApart | hApart
    · have hFirst := source_before (u := u) (k := s.index) (by omega)
      have hSecond := source_before (u := u) (k := rest.index) (by omega)
      rw [At, hTokens, hRest, hSecond.2, hFirst.2, ← List.append_assoc] at hs
      rw [hFirst.1, hSecond.1]
      dsimp only
      rw [← List.append_assoc, List.append_cancel_right hs]
    · rw [source_behind hSize hApart, source_behind hSize (by omega)]
      dsimp only
      rw [← hs, hTokens, hRest]
  have hStep := hMove (u.back s.index) _ hBehind
  rw [← hWritten, ← hBack] at hStep
  exact hStep

/-- A step that looks at the next token can be taken if that is written as well. -/
theorem move_source {R : Source → Source → Prop} (hs : u.At s) (h : Source.Moves R s rest)
    (hApart : u.Apart s.index rest.index) (hOff : u.Off rest.index) :
    R (u.source s.index) (u.source rest.index) :=
  step_source hSize hs h hApart (head?_source hSize (at_of_leads hs h.leads) hOff)

theorem op?_source (hs : u.At s) (h : u.Off s.index) : (u.source s.index).op? = s.op? :=
  Source.op?_congr (head?_source hSize hs h)

theorem isAt_source (hs : u.At s) (h : u.Off s.index) (op : String) :
    (u.source s.index).isAt op = s.isAt op :=
  Source.isAt_congr (head?_source hSize hs h) op

end

end Use

namespace Use

variable {u : Use} {s m rest : Source} {g : Goal} {r : TokenRange} {inner e e' : Expr}
  {es es' : List Expr}

theorem fill_listed : u.fill inner (listed r e es) =
    listed ⟨u.forth r.start, u.forth r.stop⟩ (u.fill inner e) (es.map (u.fill inner)) := by
  cases es with
  | nil => rfl
  | cons => simp [listed, fill, rebuild]

theorem fill_assign {op : AssignOp} {target value : Expr} :
    u.fill inner (.assign r op target value) =
      .assign ⟨u.forth r.start, u.forth r.stop⟩ op (u.fill inner target) (u.fill inner value) :=
  rfl

theorem fill_conditional {a b c : Expr} :
    u.fill inner (.conditional r a b c) =
      .conditional ⟨u.forth r.start, u.forth r.stop⟩ (u.fill inner a) (u.fill inner b)
        (u.fill inner c) :=
  rfl

theorem fill_binary {op : BinaryOp} {a b : Expr} :
    u.fill inner (.binary r op a b) =
      .binary ⟨u.forth r.start, u.forth r.stop⟩ op (u.fill inner a) (u.fill inner b) :=
  rfl

theorem fill_atom {build : TokenRange → Expr} (h : Atom g s build rest)
    (hr : r ≠ ⟨u.place, u.place + 1⟩) :
    u.fill inner (build r) = build ⟨u.forth r.start, u.forth r.stop⟩ := by
  cases h with
  | name => exact if_neg hr
  | qualified => exact if_neg hr
  | _ => rfl

theorem fill_prefixed {build : TokenRange → Expr → Expr} (h : Prefix g s build m) :
    u.fill inner (build r e) = build ⟨u.forth r.start, u.forth r.stop⟩ (u.fill inner e) := by
  cases h <;> rfl

theorem fill_opening {build : TokenRange → Expr → Expr} (h : Opening s build m) :
    u.fill inner (build r e) = build ⟨u.forth r.start, u.forth r.stop⟩ (u.fill inner e) := by
  cases h <;> rfl

theorem fill_suffix {build : TokenRange → Expr → Expr} (h : Suffix s build m) :
    u.fill inner (build r e) = build ⟨u.forth r.start, u.forth r.stop⟩ (u.fill inner e) := by
  cases h <;> rfl

theorem fill_bracket {opener closer : String} {build : TokenRange → Expr → List Expr → Expr}
    (h : Bracket opener g closer build) :
    u.fill inner (build r e es) =
      build ⟨u.forth r.start, u.forth r.stop⟩ (u.fill inner e) (es.map (u.fill inner)) := by
  cases h with
  | call => simp [fill, rebuild]
  | subscript => cases es <;> rfl

/-- An expression that is written and one that is read from the expansion for it. -/
structure Fits (u : Use) (inner written expanded : Expr) : Prop where
  fill_eq : u.fill inner written = expanded
  holds : inner ∈ expanded.nodes → u.leaf ∈ written.nodes

theorem Fits.map_fill (h : List.Forall₂ (u.Fits inner) es' es) : es'.map (u.fill inner) = es := by
  induction h with
  | nil => rfl
  | cons hHead _ ih => rw [List.map_cons, hHead.fill_eq, ih]

theorem Fits.holdsAll (h : List.Forall₂ (u.Fits inner) es' es) (hInner : inner ∈ nodesAll es) :
    u.leaf ∈ nodesAll es' := by
  induction h with
  | nil => cases hInner
  | cons hHead _ ih =>
      rw [nodesAll_cons, List.mem_append] at hInner ⊢
      exact hInner.imp hHead.holds ih

/-- An expression other than the one the name stands for fits if its operands do. -/
theorem Fits.node (hFill : u.fill inner e' = e)
    (hChildren : List.Forall₂ (u.Fits inner) e'.children e.children) (hOther : inner ≠ e) :
    u.Fits inner e' e := by
  refine ⟨hFill, fun hInner => mem_nodes.mpr (.inr ?_)⟩
  exact Fits.holdsAll hChildren ((mem_nodes.mp hInner).resolve_left hOther)

/-- The name fits what it stands for. -/
theorem Fits.leaf : u.Fits inner u.leaf inner :=
  ⟨if_pos rfl, fun _ => mem_nodes_self _⟩

/-- The place of a node fits if it starts and ends outside of what the name stands for. -/
theorem range_source (hSize : 0 < u.size) (hStart : u.Cuts s.index) (hStop : u.Cuts rest.index) :
    (⟨u.forth (u.source s.index).index, u.forth (u.source rest.index).index⟩ : TokenRange) =
      ⟨s.index, rest.index⟩ := by
  rw [source, source, forth_back hSize hStart, forth_back hSize hStop]

end Use

end Demacro.Expr
