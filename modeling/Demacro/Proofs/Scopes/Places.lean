import Demacro.Scope.Tree
import Mathlib.Data.List.Basic

/-!
Places in a syntax tree. If children lie in the range of their parent, one behind the other, then of
two nodes either one is inside the other or their ranges are apart. The list of all nodes has each
place once, and no node in front of one that it is inside of.
-/

namespace Demacro.SyntaxNode

/-- A node inside a tree: the numbers of the children that lead to it. A place that begins another
one is around it. -/
abbrev Place := List Nat

/-- The node at a place. -/
def nodeAt? (n : SyntaxNode) : Place → Option SyntaxNode
  | [] => some n
  | i :: p => n.children[i]?.bind (nodeAt? · p)

/-- The children of a node lie in its range, one behind the other. -/
structure HoldsChildren (n : SyntaxNode) : Prop where
  inside : ∀ c ∈ n.children, n.start ≤ c.start ∧ c.stop ≤ n.stop
  apart : n.children.Pairwise fun c d => c.stop ≤ d.start

instance (n : SyntaxNode) : Decidable n.HoldsChildren :=
  decidable_of_iff ((∀ c ∈ n.children, n.start ≤ c.start ∧ c.stop ≤ n.stop)
    ∧ n.children.Pairwise fun c d => c.stop ≤ d.start) ⟨fun h => ⟨h.1, h.2⟩, fun h =>
    ⟨h.inside, h.apart⟩⟩

/-- Each node of a tree holds its children. -/
def WellNested (root : SyntaxNode) : Prop :=
  ∀ p n, root.nodeAt? p = some n → n.HoldsChildren

/-- Which child of a node is its body. -/
def bodyIndex? (n : SyntaxNode) : Option Nat :=
  n.children.findIdx? (·.field == some "body")

/-- The node at a place is the body of its parent. -/
def IsBodyAt (root : SyntaxNode) (p : Place) : Prop :=
  ∃ q i n, p = q ++ [i] ∧ root.nodeAt? q = some n ∧ n.bodyIndex? = some i

variable {root n m c : SyntaxNode} {p q : Place} {i : Nat} {isBody : Bool}

private theorem sizeOf_child (h : c ∈ n.children) : sizeOf c < sizeOf n := by
  cases n with
  | mk type start stop field missing children =>
      have hSize : sizeOf c < sizeOf children := List.sizeOf_lt_of_mem h
      simp only [mk.sizeOf_spec]
      omega

/-- What holds of a node if it holds of its children holds of every node. -/
theorem induct_children {P : SyntaxNode → Prop} (h : ∀ n, (∀ c ∈ n.children, P c) → P n)
    (n : SyntaxNode) : P n :=
  h n fun c _ => induct_children h c
termination_by sizeOf n
decreasing_by exact sizeOf_child ‹_›

@[simp]
theorem nodeAt?_nil (n : SyntaxNode) : n.nodeAt? [] = some n :=
  rfl

theorem nodeAt?_cons (n : SyntaxNode) (i : Nat) (p : Place) :
    n.nodeAt? (i :: p) = n.children[i]?.bind (nodeAt? · p) :=
  rfl

theorem nodeAt?_append (n : SyntaxNode) (p q : Place) :
    n.nodeAt? (p ++ q) = (n.nodeAt? p).bind (nodeAt? · q) := by
  induction p generalizing n with
  | nil => rfl
  | cons i p ih =>
      rw [List.cons_append, nodeAt?_cons, nodeAt?_cons, Option.bind_assoc]
      exact congrArg _ (funext fun c => ih c)

theorem nodeAt?_child (hNode : root.nodeAt? p = some n) (hChild : n.children[i]? = some c) :
    root.nodeAt? (p ++ [i]) = some c := by
  rw [nodeAt?_append, hNode, Option.bind_some, nodeAt?_cons, hChild]
  rfl

/-- The body of a node is the child that plays this part first. -/
theorem child?_body (n : SyntaxNode) : n.child? "body" = n.bodyIndex?.bind (n.children[·]?) := by
  unfold child? bodyIndex?
  induction n.children with
  | nil => rfl
  | cons c cs ih =>
      rw [List.find?_cons, List.findIdx?_cons]
      cases hBody : c.field == some "body" with
      | true => rfl
      | false =>
          rw [ih, if_neg (by simp)]
          cases List.findIdx? (fun c => c.field == some "body") cs <;> rfl

theorem exists_body (h : n.child? "body" = some c) :
    ∃ i, n.bodyIndex? = some i ∧ n.children[i]? = some c := by
  rw [child?_body] at h
  exact Option.bind_eq_some_iff.mp h

theorem isBodyAt_nil : ¬ root.IsBodyAt [] := by
  rintro ⟨q, i, n, hPlace, -⟩
  simp at hPlace

theorem isBodyAt_cons : root.IsBodyAt (i :: p) ↔
    (p = [] ∧ root.bodyIndex? = some i) ∨ ∃ c, root.children[i]? = some c ∧ c.IsBodyAt p := by
  constructor
  · rintro ⟨q, j, n, hPlace, hNode, hBody⟩
    cases q with
    | nil =>
        obtain ⟨rfl, rfl⟩ := List.cons.inj hPlace
        exact .inl ⟨rfl, Option.some.inj hNode ▸ hBody⟩
    | cons k q =>
        obtain ⟨rfl, rfl⟩ := List.cons.inj hPlace
        obtain ⟨c, hc, hNode⟩ := Option.bind_eq_some_iff.mp hNode
        exact .inr ⟨c, hc, q, j, n, rfl, hNode, hBody⟩
  · rintro (⟨rfl, hBody⟩ | ⟨c, hc, q, j, n, rfl, hNode, hBody⟩)
    · exact ⟨[], i, root, rfl, rfl, hBody⟩
    · exact ⟨i :: q, j, n, rfl, by rw [nodeAt?_cons, hc]; exact hNode, hBody⟩

namespace WellNested

/-- What is inside a tree is nested as the tree is. -/
theorem below (h : root.WellNested) (hNode : root.nodeAt? p = some n) : n.WellNested := by
  intro q m hInside
  refine h (p ++ q) m ?_
  rw [nodeAt?_append, hNode]
  exact hInside

theorem child (h : root.WellNested) (hChild : root.children[i]? = some c) : c.WellNested :=
  h.below (nodeAt?_child (nodeAt?_nil root) hChild)

/-- A node lies in the range of each that it is inside of. -/
theorem inside (h : root.WellNested) (hNode : root.nodeAt? p = some n) :
    root.start ≤ n.start ∧ n.stop ≤ root.stop := by
  induction p generalizing root with
  | nil =>
      obtain rfl := Option.some.inj hNode
      exact ⟨Nat.le_refl _, Nat.le_refl _⟩
  | cons i p ih =>
      obtain ⟨c, hChild, hBelow⟩ := Option.bind_eq_some_iff.mp hNode
      have hHere := (h [] root rfl).inside c (List.mem_of_getElem? hChild)
      have hBelow := ih (h.child hChild) hBelow
      exact ⟨Nat.le_trans hHere.1 hBelow.1, Nat.le_trans hBelow.2 hHere.2⟩

theorem inside_of_prefix (h : root.WellNested) (hPrefix : p <+: q)
    (hOuter : root.nodeAt? p = some n) (hInner : root.nodeAt? q = some m) :
    n.start ≤ m.start ∧ m.stop ≤ n.stop := by
  obtain ⟨below, rfl⟩ := hPrefix
  rw [nodeAt?_append, hOuter] at hInner
  exact (h.below hOuter).inside hInner

/-- Of two nodes of which none is inside the other, one ends where the other has not started yet. -/
theorem apart (h : root.WellNested) (hn : root.nodeAt? p = some n) (hm : root.nodeAt? q = some m) :
    p <+: q ∨ q <+: p ∨ n.stop ≤ m.start ∨ m.stop ≤ n.start := by
  induction p generalizing root q with
  | nil => exact .inl List.nil_prefix
  | cons i p ih =>
      cases q with
      | nil => exact .inr (.inl List.nil_prefix)
      | cons j q =>
          obtain ⟨c, hc, hn⟩ := Option.bind_eq_some_iff.mp hn
          obtain ⟨d, hd, hm⟩ := Option.bind_eq_some_iff.mp hm
          have hInner := (h.child hc).inside hn
          have hOther := (h.child hd).inside hm
          have hSiblings := List.pairwise_iff_getElem.mp (h [] root rfl).apart
          obtain ⟨hi, rfl⟩ := List.getElem?_eq_some_iff.mp hc
          obtain ⟨hj, rfl⟩ := List.getElem?_eq_some_iff.mp hd
          -- The places part at the first number that differs, where they go into siblings.
          rcases Nat.lt_trichotomy i j with hLess | rfl | hLess
          · have hApart := hSiblings i j hi hj hLess
            omega
          · simp only [List.cons_prefix_cons, true_and]
            exact ih (h.child hc) hn hm
          · have hApart := hSiblings j i hj hi hLess
            omega

end WellNested

mutual

/-- The nodes of a tree with their places, in the order of `nodes`. -/
def placed (isBody : Bool) : SyntaxNode → List (Place × SyntaxNode × Bool)
  | ⟨type, start, stop, field, missing, children⟩ =>
    ([], ⟨type, start, stop, field, missing, children⟩, isBody) :: placedOf 0 false children

/-- The nodes of a list of siblings with their places; the first sibling has the given number. -/
def placedOf (i : Nat) (seen : Bool) : List SyntaxNode → List (Place × SyntaxNode × Bool)
  | [] => []
  | n :: ns =>
    let isBody := !seen && n.field == some "body"
    (placed isBody n).map (fun x => (i :: x.1, x.2)) ++ placedOf (i + 1) (seen || isBody) ns

end

theorem placed_eq (isBody : Bool) (n : SyntaxNode) :
    n.placed isBody = ([], n, isBody) :: placedOf 0 false n.children := by
  cases n
  rfl

theorem nodes_eq (isBody : Bool) (n : SyntaxNode) :
    n.nodes isBody = (n, isBody) :: nodesOf false n.children := by
  cases n
  rfl

theorem map_placed (isBody : Bool) (n : SyntaxNode) :
    (n.placed isBody).map Prod.snd = n.nodes isBody := by
  induction n using induct_children generalizing isBody with
  | h n ih =>
      have hChildren : ∀ ns ⊆ n.children, ∀ i seen, (placedOf i seen ns).map Prod.snd
          = nodesOf seen ns := by
        intro ns hns
        induction ns with
        | nil => exact fun _ _ => rfl
        | cons c cs ihs =>
            intro i seen
            obtain ⟨hc, hcs⟩ := List.cons_subset.mp hns
            rw [placedOf, nodesOf, List.map_append, List.map_map, ihs hcs]
            exact congrArg (· ++ _) (ih c hc _)
      rw [placed_eq, nodes_eq, List.map_cons, hChildren _ (List.Subset.refl _)]

/-- Siblings are numbered, and the first that plays the part of a body is the body. -/
theorem mem_placedOf {x : SyntaxNode × Bool} {k : Nat} {seen : Bool} {ns : List SyntaxNode} :
    (p, x) ∈ placedOf k seen ns ↔ ∃ i q n, p = (k + i) :: q ∧ ns[i]? = some n
      ∧ (q, x) ∈ n.placed (!seen && ns.findIdx? (·.field == some "body") == some i) := by
  induction ns generalizing k seen with
  | nil => simp [placedOf]
  | cons c cs ih =>
      have hFirst : (!seen && c.field == some "body")
          = (!seen && (c :: cs).findIdx? (·.field == some "body") == some 0) := by
        rw [List.findIdx?_cons]
        cases c.field == some "body" <;> simp
      have hLater :
        ∀ i, (!(seen || (!seen && c.field == some "body")) && cs.findIdx? (·.field == some "body")
          == some i)
          = (!seen && (c :: cs).findIdx? (·.field == some "body") == some (i + 1)) := by
        intro i
        rw [List.findIdx?_cons]
        cases seen <;> cases c.field == some "body" <;> simp
      rw [placedOf, List.mem_append, ih]
      constructor
      · rintro (hx | ⟨i, q, n, rfl, hn, h⟩)
        · obtain ⟨⟨q, y⟩, h, hEq⟩ := List.mem_map.mp hx
          obtain ⟨rfl, rfl⟩ := Prod.mk.inj hEq
          exact ⟨0, q, c, rfl, rfl, hFirst ▸ h⟩
        · exact ⟨i + 1, q, n, by rw [Nat.add_right_comm, Nat.add_assoc], hn, hLater i ▸ h⟩
      · rintro ⟨i, q, n, rfl, hn, h⟩
        cases i with
        | zero =>
            obtain rfl := Option.some.inj hn
            exact .inl (List.mem_map.mpr ⟨(q, x), hFirst ▸ h, rfl⟩)
        | succ i => exact .inr ⟨i, q, n,
            by rw [Nat.add_right_comm, Nat.add_assoc], hn, hLater i ▸ h⟩

theorem mem_placed_cons {x : SyntaxNode × Bool} : (i :: p, x) ∈ root.placed isBody ↔
    ∃ c, root.children[i]? = some c ∧ (p, x) ∈ c.placed (root.bodyIndex? == some i) := by
  rw [placed_eq, List.mem_cons, mem_placedOf]
  constructor
  · rintro (h | ⟨j, q, c, hPlace, hc, h⟩)
    · cases h
    · rw [Nat.zero_add] at hPlace
      obtain ⟨rfl, rfl⟩ := List.cons.inj hPlace
      exact ⟨c, hc, h⟩
  · rintro ⟨c, hc, h⟩
    exact .inr ⟨i, p, c, by rw [Nat.zero_add], hc, h⟩

/-- The nodes are what stands at the places of the tree, and those count as bodies that are bodies
of their parents. -/
theorem mem_placed {b : Bool} : (p, n, b) ∈ root.placed isBody ↔
    root.nodeAt? p = some n ∧ (b = true ↔ (p = [] ∧ isBody = true) ∨ root.IsBodyAt p) := by
  induction p generalizing root isBody with
  | nil =>
      have hChildren : ([], n, b) ∉ placedOf 0 false root.children := by
        rw [mem_placedOf]
        rintro ⟨i, q, c, hPlace, -⟩
        cases hPlace
      rw [placed_eq, List.mem_cons, or_iff_left hChildren]
      simp only [Prod.mk.injEq, true_and, nodeAt?_nil, Option.some.injEq, isBodyAt_nil, or_false,
        Bool.coe_iff_coe]
      rw [eq_comm]
  | cons i p ih =>
      rw [mem_placed_cons, nodeAt?_cons, isBodyAt_cons]
      cases hc : root.children[i]? with
      | none => simp
      | some c => simp [ih]

theorem exists_mem_placed (isBody : Bool) (hNode : root.nodeAt? p = some n) :
    ∃ b, (p, n, b) ∈ root.placed isBody := by
  classical
  exact ⟨decide _, mem_placed.mpr ⟨hNode, decide_eq_true_iff⟩⟩

/-- No node stands in front of one that it is inside of, and none is there twice. -/
theorem placed_pairwise (isBody : Bool) (root : SyntaxNode) :
    (root.placed isBody).Pairwise fun x y => ¬ y.1 <+: x.1 := by
  induction root using induct_children generalizing isBody with
  | h n ih =>
      have hChildren : ∀ ns ⊆ n.children, ∀ i seen, (placedOf i seen ns).Pairwise fun x y =>
          ¬ y.1 <+: x.1 := by
        intro ns hns
        induction ns with
        | nil => exact fun _ _ => .nil
        | cons c cs ihs =>
            intro i seen
            obtain ⟨hc, hcs⟩ := List.cons_subset.mp hns
            rw [placedOf, List.pairwise_append]
            refine ⟨?_, ihs hcs _ _, ?_⟩
            · rw [List.pairwise_map]
              exact (ih c hc _).imp fun hNot hPrefix => hNot (List.cons_prefix_cons.mp hPrefix).2
            · rintro x hx ⟨q, y⟩ hy hPrefix
              obtain ⟨x, -, rfl⟩ := List.mem_map.mp hx
              obtain ⟨j, q, d, rfl, -⟩ := mem_placedOf.mp hy
              have hSame := (List.cons_prefix_cons.mp hPrefix).1
              omega
      rw [placed_eq, List.pairwise_cons]
      refine ⟨?_, hChildren _ (List.Subset.refl _) _ _⟩
      rintro ⟨q, y⟩ hy hPrefix
      obtain ⟨j, q, d, rfl, -⟩ := mem_placedOf.mp hy
      exact absurd (List.prefix_nil.mp hPrefix) (List.cons_ne_nil _ _)

/-- It is enough to look at the list of nodes. -/
theorem wellNested_iff : root.WellNested ↔ ∀ x ∈ root.nodes false, x.1.HoldsChildren := by
  rw [← map_placed]
  constructor
  · intro h x hx
    obtain ⟨⟨p, n, b⟩, hPlaced, rfl⟩ := List.mem_map.mp hx
    exact h p n (mem_placed.mp hPlaced).1
  · intro h p n hNode
    obtain ⟨b, hPlaced⟩ := exists_mem_placed false hNode
    exact h (n, b) (List.mem_map_of_mem hPlaced)

instance (root : SyntaxNode) : Decidable root.WellNested :=
  decidable_of_iff' _ wellNested_iff

end Demacro.SyntaxNode
