import Demacro.Expr
import Mathlib.Data.List.Basic

/-!
The nodes of an expression, and expressions made from others by a change of what their nodes cover
and of what stands for their names.
-/

namespace Demacro.Expr

variable {X : Expr} {r : TokenRange} {f : TokenRange → TokenRange} {g : TokenRange → String → Expr}

/-- The nodes of several expressions. -/
def nodesAll (es : List Expr) : List Expr :=
  es.flatMap nodes

@[simp]
theorem nodesAll_nil : nodesAll [] = [] :=
  rfl

@[simp]
theorem nodesAll_cons (e : Expr) (es : List Expr) : nodesAll (e :: es) = e.nodes ++ nodesAll es :=
  List.flatMap_cons

@[simp]
theorem nodesAll_singleton (e : Expr) : nodesAll [e] = e.nodes := by
  rw [nodesAll_cons, nodesAll_nil, List.append_nil]

/-- Whether the expression is a size or an alignment. -/
def isMeasure : Expr → Bool
  | measure .. => true
  | _ => false

/-- The mark on the first node says nothing about the nodes. -/
private theorem map_marked (called : Bool) (e : Expr) :
    (e.marked called).map Prod.snd = e.nodes := by
  cases e with
  | measure r keyword operand => cases operand <;> simp [nodes, marked]
  | raise r operand => cases operand <;> simp [nodes, marked]
  | _ => simp [nodes, marked]

private theorem map_markedAll (es : List Expr) : (markedAll es).map Prod.snd = nodesAll es := by
  induction es with
  | nil => rfl
  | cons e es ih => rw [markedAll, List.map_append, map_marked, ih, nodesAll_cons]

/-- The nodes of an expression are itself and the nodes of its operands. -/
theorem nodes_eq (e : Expr) : e.nodes = e :: nodesAll e.children := by
  unfold nodes
  cases e with
  | measure r keyword operand => cases operand <;> simp [marked, children, map_marked]
  | raise r operand => cases operand <;> simp [marked, children, map_marked]
  | _ => simp [marked, children, map_marked, map_markedAll]

theorem mem_nodes {e : Expr} : X ∈ e.nodes ↔ X = e ∨ X ∈ nodesAll e.children := by
  rw [nodes_eq, List.mem_cons]

theorem mem_nodes_of_children {e : Expr} {es : List Expr} (h : e.children = es) :
    X ∈ e.nodes ↔ X = e ∨ X ∈ nodesAll es := by
  rw [mem_nodes, h]

theorem mem_nodes_self (e : Expr) : e ∈ e.nodes :=
  mem_nodes.mpr (.inl rfl)

theorem mem_nodes_of_child {c e : Expr} (hc : c ∈ e.children) (hX : X ∈ c.nodes) : X ∈ e.nodes :=
  mem_nodes.mpr (.inr (List.mem_flatMap.mpr ⟨c, hc, hX⟩))

theorem mem_nodesAll_of_child {c e : Expr} (hc : c ∈ e.children) (hX : X ∈ c.nodes) :
    X ∈ nodesAll [e] := by
  rw [nodesAll_singleton]
  exact mem_nodes_of_child hc hX

mutual

/-- An expression of the same form, over other tokens and with something else for each name. -/
def rebuild (f : TokenRange → TokenRange) (g : TokenRange → String → Expr) : Expr → Expr
  | literal r tokens => literal (f r) tokens
  | name r text => g r text
  | paren r e => paren (f r) (rebuild f g e)
  | unary r op e => unary (f r) op (rebuild f g e)
  | binary r op a b => binary (f r) op (rebuild f g a) (rebuild f g b)
  | conditional r a b c => conditional (f r) (rebuild f g a) (rebuild f g b) (rebuild f g c)
  | assign r op a b => assign (f r) op (rebuild f g a) (rebuild f g b)
  | comma r es => comma (f r) (rebuildAll f g es)
  | call r e es => call (f r) (rebuild f g e) (rebuildAll f g es)
  | subscript r a b => subscript (f r) (rebuild f g a) (rebuild f g b)
  | member r op e part => member (f r) op (rebuild f g e) part
  | stepped r op e => stepped (f r) op (rebuild f g e)
  | cast r type e => cast (f r) type (rebuild f g e)
  | measure r keyword none => measure (f r) keyword none
  | measure r keyword (some e) => measure (f r) keyword (some (rebuild f g e))
  | allocate r => allocate (f r)
  | free r e => free (f r) (rebuild f g e)
  | raise r none => raise (f r) none
  | raise r (some e) => raise (f r) (some (rebuild f g e))

/-- `rebuild` on each of several expressions. -/
def rebuildAll (f : TokenRange → TokenRange) (g : TokenRange → String → Expr) :
    List Expr → List Expr
  | [] => []
  | e :: es => rebuild f g e :: rebuildAll f g es

end

@[simp]
theorem rebuildAll_eq_map (es : List Expr) : rebuildAll f g es = es.map (rebuild f g) := by
  induction es with
  | nil => rfl
  | cons e es ih => rw [rebuildAll, ih, List.map_cons]

/-- The operands of a rebuilt expression are rebuilt, unless it was a name. -/
theorem children_rebuild {e : Expr} (h : ∀ r text, e ≠ name r text) :
    (e.rebuild f g).children = e.children.map (rebuild f g) := by
  cases e with
  | name r text => exact absurd rfl (h r text)
  | measure r keyword operand => cases operand <;> simp [rebuild, children]
  | raise r operand => cases operand <;> simp [rebuild, children]
  | _ => simp [rebuild, children]

private theorem sizeOf_child {c e : Expr} (h : c ∈ e.children) : sizeOf c < sizeOf e := by
  cases e with
  | literal | name | allocate => cases h
  | paren | unary | member | stepped | cast | free =>
      cases List.mem_singleton.mp h
      simp only [paren.sizeOf_spec, unary.sizeOf_spec, member.sizeOf_spec, stepped.sizeOf_spec,
        cast.sizeOf_spec, free.sizeOf_spec]
      omega
  | binary | assign | subscript | conditional =>
      simp only [children, List.mem_cons, List.not_mem_nil, or_false] at h
      simp only [binary.sizeOf_spec, assign.sizeOf_spec, subscript.sizeOf_spec,
        conditional.sizeOf_spec]
      rcases h with rfl | h
      · omega
      · try rcases h with rfl | h
        all_goals subst_vars
        all_goals omega
  | comma r es =>
      have hSize : sizeOf c < sizeOf es := List.sizeOf_lt_of_mem h
      simp only [comma.sizeOf_spec]
      omega
  | call r e es =>
      rcases List.mem_cons.mp h with rfl | h
      · simp only [call.sizeOf_spec]
        omega
      · have hSize : sizeOf c < sizeOf es := List.sizeOf_lt_of_mem h
        simp only [call.sizeOf_spec]
        omega
  | measure r keyword operand =>
      cases operand with
      | none => cases h
      | some e =>
          cases List.mem_singleton.mp h
          simp only [measure.sizeOf_spec, Option.some.sizeOf_spec]
          omega
  | raise r operand =>
      cases operand with
      | none => cases h
      | some e =>
          cases List.mem_singleton.mp h
          simp only [raise.sizeOf_spec, Option.some.sizeOf_spec]
          omega

/-- What holds of a node if it holds of its operands holds of every expression. -/
theorem induct_children {P : Expr → Prop} (h : ∀ e, (∀ c ∈ e.children, P c) → P e) (e : Expr) :
    P e :=
  h e fun c _ => induct_children h c
termination_by sizeOf e
decreasing_by exact sizeOf_child ‹_›

/-- The nodes of a node are nodes of the whole. -/
theorem mem_nodes_trans {Y e : Expr} (hX : X ∈ Y.nodes) (hY : Y ∈ e.nodes) : X ∈ e.nodes := by
  induction e using induct_children with
  | h e ih =>
      rcases mem_nodes.mp hY with rfl | hY
      · exact hX
      · obtain ⟨c, hc, hY⟩ := List.mem_flatMap.mp hY
        exact mem_nodes_of_child hc (ih c hc hY)

/-- What stands for a name is in the rebuilt expression. -/
theorem mem_nodes_rebuild {text : String} (hX : X ∈ (g r text).nodes) (e : Expr)
    (h : name r text ∈ e.nodes) : X ∈ (e.rebuild f g).nodes := by
  by_cases hName : ∃ r' text', e = name r' text'
  · obtain ⟨r', text', rfl⟩ := hName
    rw [nodes_eq] at h
    simp only [children, nodesAll_nil, List.mem_singleton, name.injEq] at h
    obtain ⟨rfl, rfl⟩ := h
    exact hX
  · have hOther : ∀ r' text', e ≠ name r' text' := fun r' text' h => hName ⟨r', text', h⟩
    rcases mem_nodes.mp h with rfl | h
    · exact absurd rfl (hOther r text)
    · obtain ⟨c, hc, h⟩ := List.mem_flatMap.mp h
      refine mem_nodes.mpr
        (.inr (List.mem_flatMap.mpr ⟨c.rebuild f g, ?_, mem_nodes_rebuild hX c h⟩))
      rw [children_rebuild hOther]
      exact List.mem_map_of_mem hc
termination_by sizeOf e
decreasing_by exact sizeOf_child hc

end Demacro.Expr
