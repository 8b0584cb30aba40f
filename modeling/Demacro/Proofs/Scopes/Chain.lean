import Demacro.Proofs.Scopes.Places
import Demacro.Proofs.Scopes.Visibility
import Demacro.Proofs.Text

/-!
The scopes around a place by the syntax tree. In a tree whose nodes hold their children, the bodies
that lie around an offset are inside one another, and sorting their scopes by what they cover lists
them from the outermost to the innermost: scopes that cover the same characters stay in the order of
the tree.
-/

namespace Demacro

theorem Access.ofName?_eq_some_iff {name : String} {a : Access} :
    Access.ofName? name = some a ↔ name = a.name := by
  constructor
  · intro h
    have hName := List.find?_some h
    exact (eq_of_beq hName).symm
  · rintro rfl
    cases a <;> decide

namespace Region

open SyntaxNode (Place)

/-- Regions are listed by where they start, and of those that start together the longest first. -/
def isBefore (r s : Region) : Bool :=
  r.start < s.start || (r.start == s.start && s.stop ≤ r.stop)

/-- The body at a place of a tree opens a scope. It is the body of a node, or a block that is no
node's body and does not cover the same characters as a body that opens a scope. -/
inductive Opens (t : Text) (root : SyntaxNode) : Place → Region → Prop
  | body {p : Place} {n : SyntaxNode} {i : Nat} {r : Region} (parent : root.nodeAt? p = some n)
      (isBody : n.bodyIndex? = some i) (opens : ofNode? t t.encode n = some r) :
      Opens t root (p ++ [i]) r
  | block {p : Place} {n : SyntaxNode} {r : Region} (node : root.nodeAt? p = some n)
      (free : ¬ root.IsBodyAt p) (opens : ofBlock? t n false = some r)
      (alone : ∀ q m s, root.nodeAt? q = some m → ofNode? t t.encode m = some s →
        ¬ (s.start = r.start ∧ s.stop = r.stop)) :
      Opens t root p r

/-- A node is an access specifier that spells an access. -/
def SpellsAccess (t : Text) (m : SyntaxNode) (a : Access) : Prop :=
  m.type = "access_specifier" ∧ m.text? t.encode = some a.name

/-- A node is an access specifier of the class with the body at a place: it stands in that body
itself. A function definition that is really a class has none: in its body, which is read as that of
a function, `public:` is a label. -/
structure IsSpecifier (t : Text) (root : SyntaxNode) (p : Place) (m : SyntaxNode) (a : Access) :
    Prop where
  ofClass : ∃ q i n, ∃ key : ClassKey, p = q ++ [i] ∧ root.nodeAt? q = some n
    ∧ n.bodyIndex? = some i
    ∧ n.type = key.name ++ "_specifier"
  inBody : ∃ body, root.nodeAt? p = some body ∧ m ∈ body.children
  spells : SpellsAccess t m a

/-- The access of members at an offset in a class with some specifiers: that of the last one that
ends at the offset or in front of it, or else that of the class key. -/
inductive GivesAccess (t : Text) (specifies : SyntaxNode → Access → Prop) (key : ClassKey)
    (offset : Int) : Access → Prop
  | specified {m : SyntaxNode} {a : Access} (given : specifies m a)
      (before : charIndex t m.stop ≤ offset)
      (last : ∀ other b, specifies other b → charIndex t other.stop ≤ offset →
        other = m ∨ other.stop ≤ m.start) :
      GivesAccess t specifies key offset a
  | unspecified (none : ∀ m a, specifies m a → offset < charIndex t m.stop) :
      GivesAccess t specifies key offset key.defaultAccess

/-- Some regions are the scopes around an offset, opened by the bodies at some places. -/
structure IsChain (t : Text) (root : SyntaxNode) (offset : Int) (places : List Place)
    (regions : List Region) : Prop where
  opened : List.Forall₂ (Opens t root) places regions
  /-- Each body is inside all those before it. -/
  inward : places.Pairwise fun p q => p <+: q ∧ p ≠ q
  within : regions.Pairwise fun outer inner => outer.start ≤ inner.start ∧ inner.stop ≤ outer.stop
  around : ∀ r ∈ regions, (r.start : Int) < offset ∧ offset < r.stop
  complete : ∀ p r, Opens t root p r → (r.start : Int) < offset → offset < r.stop → p ∈ places

variable {t : Text} {root n m : SyntaxNode} {p q : Place} {r s : Region} {offset : Int}

theorem charIndex_mono (t : Text) {i j : Nat} (h : i ≤ j) : charIndex t i ≤ charIndex t j :=
  Int.toNat_le_toNat (Text.charOffset_mono t h)

theorem holds_iff : r.holds offset = true ↔ (r.start : Int) < offset ∧ offset < r.stop := by
  rw [holds, Bool.and_eq_true, decide_eq_true_iff, decide_eq_true_iff]

theorem isBefore_iff :
    r.isBefore s = true ↔ r.start < s.start ∨ (r.start = s.start ∧ s.stop ≤ r.stop) := by
  simp [isBefore]

theorem isBefore_total (r s : Region) : r.isBefore s = true ∨ s.isBefore r = true := by
  rw [isBefore_iff, isBefore_iff]
  omega

theorem isBefore_trans (a b c : Region) (h : a.isBefore b = true) (h' : b.isBefore c = true) :
    a.isBefore c = true := by
  rw [isBefore_iff] at *
  omega

/-- The scope of a node with a body covers the body. -/
theorem exists_body_of_ofNode? {data : List UInt8} (h : ofNode? t data n = some r) :
    ∃ body i, n.bodyIndex? = some i
    ∧ n.children[i]? = some body ∧ r.start = charIndex t body.start
    ∧ r.stop = charIndex t body.stop := by
  unfold ofNode? at h
  cases hBody : n.child? "body" with
  | none =>
      rw [hBody] at h
      cases h
  | some body =>
      obtain ⟨i, hi, hChild⟩ := SyntaxNode.exists_body hBody
      refine ⟨body, i, hi, hChild, ?_⟩
      rw [hBody] at h
      dsimp only at h
      split at h
      case h_5 =>
        unfold ofFunction at h
        split at h
        · cases h
          exact ⟨rfl, rfl⟩
        · split at h <;> (cases h; exact ⟨rfl, rfl⟩)
      case h_6 =>
        split at h <;> cases h
        exact ⟨rfl, rfl⟩
      all_goals
        cases h
        exact ⟨rfl, rfl⟩

theorem ofBlock?_eq_some_iff {isBody : Bool} :
    ofBlock? t n isBody = some r ↔ n.type = "compound_statement" ∧ isBody = false
    ∧ r = ⟨.blockRegion, none, charIndex t n.start, charIndex t n.stop⟩ := by
  unfold ofBlock?
  split
  · rename_i h
    rw [Bool.and_eq_true, beq_iff_eq, Bool.not_eq_true'] at h
    simp [h, eq_comm]
  · rename_i h
    rw [Bool.and_eq_true, beq_iff_eq, Bool.not_eq_true'] at h
    simp only [reduceCtorEq, false_iff]
    exact fun hBlock => h ⟨hBlock.1, hBlock.2.1⟩

/-- A scope covers the body that opens it. -/
theorem Opens.range (h : Opens t root p r) : ∃ body, root.nodeAt? p = some body
    ∧ r.start = charIndex t body.start ∧ r.stop = charIndex t body.stop := by
  cases h with
  | body hParent hBody hOpens =>
      obtain ⟨body, i, hi, hChild, hRange⟩ := exists_body_of_ofNode? hOpens
      obtain rfl := Option.some.inj (hBody.symm.trans hi)
      exact ⟨body, SyntaxNode.nodeAt?_child hParent hChild, hRange⟩
  | block hNode _ hOpens =>
      obtain ⟨-, -, rfl⟩ := ofBlock?_eq_some_iff.mp hOpens
      exact ⟨_, hNode, rfl, rfl⟩

/-- Of two scopes around an offset one is opened by a body around that of the other. It is the
first, if the second would be listed in front of it only where its body is not around that of the
first. -/
theorem Opens.inward (hNested : root.WellNested) (hr : Opens t root p r) (hs : Opens t root q s)
    (hHolds : r.holds offset = true) (hHolds' : s.holds offset = true)
    (hOrder : s.isBefore r = true → ¬ q <+: p) : p <+: q ∧ p ≠ q := by
  obtain ⟨n, hn, hStart, hStop⟩ := hr.range
  obtain ⟨m, hm, hStart', hStop'⟩ := hs.range
  rw [holds_iff] at hHolds hHolds'
  have hAround : ¬ q <+: p := by
    intro hPrefix
    refine hOrder ?_ hPrefix
    obtain ⟨hFirst, hLast⟩ := hNested.inside_of_prefix hPrefix hm hn
    have hFirst := charIndex_mono t hFirst
    have hLast := charIndex_mono t hLast
    rw [isBefore_iff]
    omega
  rcases hNested.apart hn hm with hPrefix | hPrefix | hApart | hApart
  · exact ⟨hPrefix, fun hSame => hAround (hSame ▸ List.prefix_rfl)⟩
  · exact absurd hPrefix hAround
  -- Bodies that are apart have no character between their ends in common.
  all_goals
    have hApart := charIndex_mono t hApart
    omega

theorem Opens.within (hNested : root.WellNested) (hr : Opens t root p r) (hs : Opens t root q s)
    (hPrefix : p <+: q) : r.start ≤ s.start ∧ s.stop ≤ r.stop := by
  obtain ⟨n, hn, hStart, hStop⟩ := hr.range
  obtain ⟨m, hm, hStart', hStop'⟩ := hs.range
  obtain ⟨hFirst, hLast⟩ := hNested.inside_of_prefix hPrefix hn hm
  rw [hStart, hStop, hStart', hStop']
  exact ⟨charIndex_mono t hFirst, charIndex_mono t hLast⟩

/-- The scopes that nodes open for their bodies, with the places of these. -/
def placedBodies (t : Text) (root : SyntaxNode) : List (Place × Region) :=
  (root.placed false).filterMap fun (p, n, _) =>
    n.bodyIndex?.bind fun i => (ofNode? t t.encode n).map fun r => (p ++ [i], r)

/-- The scopes that blocks open which are no bodies, with their places. -/
def placedBlocks (t : Text) (root : SyntaxNode) : List (Place × Region) :=
  ((root.placed false).filterMap fun (p, n, isBody) => (ofBlock? t n isBody).map fun r =>
      (p, r)).filter fun x =>
    !((placedBodies t root).map Prod.snd).any fun r => r.start == x.2.start && r.stop == x.2.stop

theorem map_placedBodies (t : Text) (root : SyntaxNode) :
    (placedBodies t root).map Prod.snd = (root.nodes false).filterMap fun (n, _) =>
    ofNode? t t.encode n := by
  rw [placedBodies, List.map_filterMap, ← SyntaxNode.map_placed, List.filterMap_map]
  congr 1
  funext ⟨p, n, b⟩
  cases hOpens : ofNode? t t.encode n with
  | none => simp [hOpens]
  | some r =>
      obtain ⟨body, i, hi, -⟩ := exists_body_of_ofNode? hOpens
      simp [hOpens, hi]

theorem map_placedBlocks (t : Text) (root : SyntaxNode) : (placedBlocks t root).map Prod.snd
    = ((root.nodes false).filterMap fun (n, isBody) => ofBlock? t n isBody).filter fun b =>
      !((root.nodes false).filterMap fun (n, _) => ofNode? t t.encode n).any fun r =>
        r.start == b.start && r.stop == b.stop := by
  have hBlocks : (root.nodes false).filterMap (fun (n, isBody) => ofBlock? t n isBody)
      = ((root.placed false).filterMap fun (p, n, isBody) => (ofBlock? t n isBody).map fun r =>
        (p, r)).map Prod.snd := by
    rw [List.map_filterMap, ← SyntaxNode.map_placed, List.filterMap_map]
    congr 1
    funext ⟨p, n, b⟩
    cases hOpens : ofBlock? t n b <;> simp [hOpens]
  rw [placedBlocks, map_placedBodies, hBlocks, List.filter_map]
  rfl

/-- The regions of a tree are the scopes with places, sorted. -/
theorem ofTree_eq (t : Text) (root : SyntaxNode) :
    ofTree t root = (Sorting.sort (fun x y => x.2.isBefore y.2)
      (placedBodies t root ++ placedBlocks t root)).map Prod.snd := by
  rw [Sorting.map_sort, List.map_append, map_placedBodies, map_placedBlocks]
  rfl

theorem mem_placedBodies :
    (p, r) ∈ placedBodies t root ↔ ∃ q n i, p = q ++ [i] ∧ root.nodeAt? q = some n
    ∧ n.bodyIndex? = some i ∧ ofNode? t t.encode n = some r := by
  constructor
  · intro h
    obtain ⟨⟨q, n, b⟩, hPlaced, h⟩ := List.mem_filterMap.mp h
    obtain ⟨i, hi, h⟩ := Option.bind_eq_some_iff.mp h
    obtain ⟨s, hOpens, h⟩ := Option.map_eq_some_iff.mp h
    obtain ⟨rfl, rfl⟩ := Prod.mk.inj h
    exact ⟨q, n, i, rfl, (SyntaxNode.mem_placed.mp hPlaced).1, hi, hOpens⟩
  · rintro ⟨q, n, i, rfl, hNode, hi, hOpens⟩
    obtain ⟨b, hPlaced⟩ := SyntaxNode.exists_mem_placed false hNode
    exact List.mem_filterMap.mpr ⟨_, hPlaced, by simp [hi, hOpens]⟩

theorem mem_placedBlocks : (p, r) ∈ placedBlocks t root ↔ ∃ n, root.nodeAt? p = some n
    ∧ ¬ root.IsBodyAt p
    ∧ ofBlock? t n false = some r ∧ ∀ q s, (q, s) ∈ placedBodies t root →
    ¬ (s.start = r.start ∧ s.stop = r.stop) := by
  have hAlone : (!((placedBodies t root).map Prod.snd).any fun s => s.start == r.start
    && s.stop == r.stop) = true
      ↔ ∀ q s, (q, s) ∈ placedBodies t root → ¬ (s.start = r.start ∧ s.stop = r.stop) := by
    simp
  rw [placedBlocks, List.mem_filter, hAlone, List.mem_filterMap]
  constructor
  · rintro ⟨⟨⟨q, n, b⟩, hPlaced, h⟩, hAlone⟩
    obtain ⟨s, hOpens, h⟩ := Option.map_eq_some_iff.mp h
    obtain ⟨rfl, rfl⟩ := Prod.mk.inj h
    obtain ⟨hNode, hBody⟩ := SyntaxNode.mem_placed.mp hPlaced
    obtain rfl := (ofBlock?_eq_some_iff.mp hOpens).2.1
    exact ⟨n, hNode, by simpa using hBody, hOpens, hAlone⟩
  · rintro ⟨n, hNode, hFree, hOpens, hAlone⟩
    exact ⟨⟨(p, n, false), SyntaxNode.mem_placed.mpr ⟨hNode, by simpa using hFree⟩,
      by simp [hOpens]⟩, hAlone⟩

theorem mem_placed_iff : (p, r) ∈ placedBodies t root ++ placedBlocks t root ↔
    Opens t root p r := by
  rw [List.mem_append, mem_placedBodies, mem_placedBlocks]
  constructor
  · rintro (⟨q, n, i, rfl, hNode, hi, hOpens⟩ | ⟨n, hNode, hFree, hOpens, hAlone⟩)
    · exact .body hNode hi hOpens
    · refine .block hNode hFree hOpens fun q m s hm hs => ?_
      obtain ⟨body, i, hi, -⟩ := exists_body_of_ofNode? hs
      exact hAlone (q ++ [i]) s (mem_placedBodies.mpr ⟨q, m, i, rfl, hm, hi, hs⟩)
  · intro h
    cases h with
    | body hNode hi hOpens => exact .inl ⟨_, _, _, rfl, hNode, hi, hOpens⟩
    | block hNode hFree hOpens hAlone =>
        refine .inr ⟨_, hNode, hFree, hOpens, fun q s hBody => ?_⟩
        obtain ⟨q, m, i, rfl, hm, -, hs⟩ := mem_placedBodies.mp hBody
        exact hAlone q m s hm hs

/-- Among the scopes that are sorted, of those that cover the same no one stands in front of one
that it is inside of. -/
theorem placed_pairwise (t : Text) (root : SyntaxNode) :
    (placedBodies t root ++ placedBlocks t root).Pairwise fun x y =>
    x.2.isBefore y.2 = true → y.2.isBefore x.2 = true → ¬ y.1 <+: x.1 := by
  have hNodes := SyntaxNode.placed_pairwise false root
  refine List.pairwise_append.mpr ⟨?_, ?_, ?_⟩
  · refine hNodes.filterMap _ ?_
    rintro ⟨p, n, b⟩ ⟨q, m, c⟩ hNot x hx y hy - - hPrefix
    obtain ⟨i, -, hx⟩ := Option.bind_eq_some_iff.mp hx
    obtain ⟨r, -, rfl⟩ := Option.map_eq_some_iff.mp hx
    obtain ⟨j, -, hy⟩ := Option.bind_eq_some_iff.mp hy
    obtain ⟨s, -, rfl⟩ := Option.map_eq_some_iff.mp hy
    -- A body that is around another one or the same has a parent around the other's parent.
    refine hNot ?_
    rcases List.prefix_concat_iff.mp hPrefix with hSame | hInside
    · exact (List.append_inj_left' hSame rfl) ▸ List.prefix_rfl
    · exact (List.prefix_append q [j]).trans hInside
  · refine (hNodes.filterMap _ ?_).filter _
    rintro ⟨p, n, b⟩ ⟨q, m, c⟩ hNot x hx y hy - -
    obtain ⟨r, -, rfl⟩ := Option.map_eq_some_iff.mp hx
    obtain ⟨s, -, rfl⟩ := Option.map_eq_some_iff.mp hy
    exact hNot
  · -- A block never covers the same as a body.
    rintro ⟨p, r⟩ hBody ⟨q, s⟩ hBlock hBefore hBehind
    obtain ⟨-, -, -, -, hAlone⟩ := mem_placedBlocks.mp hBlock
    dsimp only at hBefore hBehind
    rw [isBefore_iff] at hBefore hBehind
    exact (hAlone p r hBody (by omega)).elim

/-- The scopes around an offset in the order of the regions, with the places of the bodies that open
them. -/
def scopesAround (t : Text) (root : SyntaxNode) (offset : Int) : List (Place × Region) :=
  (Sorting.sort (fun x y => x.2.isBefore y.2)
    (placedBodies t root ++ placedBlocks t root)).filter (·.2.holds offset)

theorem map_scopesAround (t : Text) (root : SyntaxNode) (offset : Int) :
    (scopesAround t root offset).map Prod.snd = (ofTree t root).filter (·.holds offset) := by
  rw [ofTree_eq, List.filter_map]
  rfl

theorem mem_scopesAround :
    (p, r) ∈ scopesAround t root offset ↔ Opens t root p r ∧ r.holds offset = true := by
  rw [scopesAround, List.mem_filter, Sorting.mem_sort, mem_placed_iff]

/-- The bodies around an offset are inside one another. -/
theorem scopesAround_pairwise (hNested : root.WellNested) (offset : Int) :
    (scopesAround t root offset).Pairwise fun x y => x.1 <+: y.1 ∧ x.1 ≠ y.1 := by
  have hOrder := (Sorting.sort_pairwise_tied (fun x y => isBefore_total x.2 y.2)
    (fun x y z => isBefore_trans x.2 y.2 z.2) (placed_pairwise t root)).filter (·.2.holds offset)
  refine List.Pairwise.imp_of_mem ?_ hOrder
  rintro ⟨p, r⟩ ⟨q, s⟩ hr hs hOrder
  obtain ⟨hr, hHolds⟩ := mem_scopesAround.mp hr
  obtain ⟨hs, hHolds'⟩ := mem_scopesAround.mp hs
  exact hr.inward hNested hs hHolds hHolds' hOrder

/-- The regions around an offset form a chain of bodies, each inside the one before it. -/
theorem isChain_scopesAround (t : Text) (hNested : root.WellNested) (offset : Int) :
    IsChain t root offset ((scopesAround t root offset).map Prod.fst)
      ((ofTree t root).filter (·.holds offset)) := by
  have hInward := scopesAround_pairwise (t := t) hNested offset
  rw [← map_scopesAround]
  constructor
  case opened =>
    rw [List.forall₂_map_left_iff, List.forall₂_map_right_iff, List.forall₂_same]
    exact fun x hx => (mem_scopesAround.mp hx).1
  case inward => exact List.pairwise_map.mpr hInward
  case within =>
    refine List.pairwise_map.mpr (hInward.imp_of_mem ?_)
    rintro ⟨p, r⟩ ⟨q, s⟩ hr hs ⟨hPrefix, -⟩
    exact (mem_scopesAround.mp hr).1.within hNested (mem_scopesAround.mp hs).1 hPrefix
  case around =>
    intro s hs
    obtain ⟨⟨p, r⟩, hr, rfl⟩ := List.mem_map.mp hs
    exact holds_iff.mp (mem_scopesAround.mp hr).2
  case complete =>
    intro p r hr hStart hStop
    exact List.mem_map.mpr ⟨(p, r), mem_scopesAround.mpr ⟨hr, holds_iff.mpr ⟨hStart, hStop⟩⟩, rfl⟩

theorem GivesAccess.congr {specifies specifies' : SyntaxNode → Access → Prop} {key : ClassKey}
    {a : Access} (h : GivesAccess t specifies key offset a)
    (hSame : ∀ m a, specifies m a ↔ specifies' m a) : GivesAccess t specifies' key offset a := by
  obtain rfl : specifies = specifies' := funext fun m => funext fun a => propext (hSame m a)
  exact h

/-- The marker of a child of a class body: where an access specifier ends, and its access. -/
def marker? (t : Text) (m : SyntaxNode) : Option (Nat × Access) :=
  if m.type == "access_specifier" then
    ((m.text? t.encode).bind Access.ofName?).map fun a => (charIndex t m.stop, a)
  else none

theorem marker?_eq_some_iff {stop : Nat} {a : Access} :
    marker? t m = some (stop, a) ↔ SpellsAccess t m a ∧ stop = charIndex t m.stop := by
  unfold marker?
  split
  · rename_i hType
    rw [beq_iff_eq] at hType
    simp only [Option.map_eq_some_iff, Option.bind_eq_some_iff, Access.ofName?_eq_some_iff,
      SpellsAccess, hType, true_and]
    constructor
    · rintro ⟨b, ⟨_, hText, rfl⟩, hEq⟩
      obtain ⟨rfl, rfl⟩ := Prod.mk.inj hEq
      exact ⟨hText, rfl⟩
    · rintro ⟨hText, rfl⟩
      exact ⟨a, ⟨_, hText, rfl⟩, rfl⟩
  · rename_i hType
    rw [beq_iff_eq] at hType
    simp [SpellsAccess, hType]

/-- The marker of a child of a class body, if it is not behind an offset. -/
def markerBefore? (t : Text) (offset : Int) (m : SyntaxNode) : Option (Nat × Access) :=
  (marker? t m).filter fun x => x.1 ≤ offset

theorem markerBefore?_eq_some_iff {stop : Nat} {a : Access} :
    markerBefore? t offset m = some (stop, a) ↔
    SpellsAccess t m a ∧ stop = charIndex t m.stop ∧ (charIndex t m.stop : Int) ≤ offset := by
  rw [markerBefore?, Option.filter_eq_some_iff, marker?_eq_some_iff, and_assoc, decide_eq_true_iff]
  exact and_congr_right fun _ => and_congr_right fun hStop => by rw [hStop]

theorem accessAt_markers (key : ClassKey) (body : SyntaxNode) (offset : Int) :
    accessAt key (markers t t.encode body) offset
      = (body.children.reverse.findSome? (markerBefore? t offset)).elim key.defaultAccess
        Prod.snd := by
  have hMarkers : (markers t t.encode body).filter (fun x => x.1 ≤ offset)
      = body.children.filterMap (markerBefore? t offset) := List.filter_filterMap
  rw [accessAt, hMarkers, List.getLast?_filterMap]

/-- Specifiers that stand one behind the other in a body give the access of the last one that is not
behind the offset. -/
theorem givesAccess_markers {body : SyntaxNode} (h : body.HoldsChildren) (key : ClassKey)
    (offset : Int) : GivesAccess t (fun m a => m ∈ body.children ∧ SpellsAccess t m a) key offset
      (accessAt key (markers t t.encode body) offset) := by
  rw [accessAt_markers]
  cases hFound : body.children.reverse.findSome? (markerBefore? t offset) with
  | none =>
      refine .unspecified fun m a ⟨hm, hSpells⟩ => ?_
      have hNone := List.findSome?_eq_none_iff.mp hFound m (List.mem_reverse.mpr hm)
      by_contra hBefore
      rw [markerBefore?_eq_some_iff.mpr ⟨hSpells, rfl, Int.not_lt.mp hBefore⟩] at hNone
      cases hNone
  | some x =>
      obtain ⟨behind, m, front, hSplit, hHere, hNone⟩ := List.findSome?_eq_some_iff.mp hFound
      obtain ⟨hSpells, -, hBefore⟩ := markerBefore?_eq_some_iff.mp hHere
      have hChildren : body.children = front.reverse ++ m :: behind.reverse := by
        simpa using congrArg List.reverse hSplit
      refine .specified ⟨by simp [hChildren], hSpells⟩ hBefore fun other b ⟨hOther,
        hOtherSpells⟩ hOtherBefore => ?_
      have hApart := h.apart
      rw [hChildren, List.pairwise_append] at hApart
      rw [hChildren, List.mem_append, List.mem_cons] at hOther
      rcases hOther with hFront | hSame | hBehind
      · exact .inr (hApart.2.2 other hFront m List.mem_cons_self)
      · exact .inl hSame
      · have hNone := hNone other (List.mem_reverse.mp hBehind)
        rw [markerBefore?_eq_some_iff.mpr ⟨hOtherSpells, rfl, hOtherBefore⟩] at hNone
        cases hNone

/-- A class is a class specifier with the markers in its body, or a function definition without
any. -/
theorem class_of_ofNode? {data : List UInt8} {key : ClassKey} {found : List (Nat × Access)}
    (h : ofNode? t data n = some r) (hShape : r.shape = .classRegion key found) :
    (n.type = key.name ++ "_specifier" ∧ ∃ body, n.child? "body" = some body
      ∧ found = markers t data body)
      ∨ (n.type = "function_definition" ∧ found = []) := by
  unfold ofNode? at h
  cases hBody : n.child? "body" with
  | none =>
      rw [hBody] at h
      cases h
  | some body =>
      rw [hBody] at h
      dsimp only at h
      split at h
      case h_1 =>
        cases h
        cases hShape
      case h_5 hType =>
        refine .inr ⟨hType, ?_⟩
        unfold ofFunction at h
        split at h
        · cases h
          exact (RegionShape.classRegion.inj hShape).2.symm
        · split at h <;> (cases h; cases hShape)
      case h_6 =>
        split at h <;> cases h
        cases hShape
      all_goals
        rename_i hType
        cases h
        obtain ⟨rfl, rfl⟩ := RegionShape.classRegion.inj hShape
        exact .inl ⟨hType, body, rfl, rfl⟩

/-- The access of members of a class. -/
theorem Opens.givesAccess (hNested : root.WellNested) (h : Opens t root p r) {key : ClassKey}
    {found : List (Nat × Access)} (hShape : r.shape = .classRegion key found) (offset : Int) :
    GivesAccess t (IsSpecifier t root p) key offset (accessAt key found offset) := by
  cases h with
  | block _ _ hOpens =>
      obtain ⟨-, -, rfl⟩ := ofBlock?_eq_some_iff.mp hOpens
      cases hShape
  | @body q n i _ hParent hBody hOpens =>
      rcases class_of_ofNode? hOpens hShape with ⟨hType, body, hChild, rfl⟩ | ⟨hType, rfl⟩
      · obtain ⟨j, hj, hAt⟩ := SyntaxNode.exists_body hChild
        obtain rfl := Option.some.inj (hBody.symm.trans hj)
        have hNode := SyntaxNode.nodeAt?_child hParent hAt
        refine (givesAccess_markers (hNested _ _ hNode) key offset).congr fun m a =>
          ⟨fun ⟨hm, hSpells⟩ => ?_, fun h => ?_⟩
        · exact ⟨⟨q, i, n, key, rfl, hParent, hBody, hType⟩, ⟨body, hNode, hm⟩, hSpells⟩
        · obtain ⟨other, hOther, hm⟩ := h.inBody
          obtain rfl := Option.some.inj (hNode.symm.trans hOther)
          exact ⟨hm, h.spells⟩
      · -- The node is no class specifier.
        refine .unspecified fun m a h => ?_
        obtain ⟨q', i', n', key', hPlace, hParent', -, hClass⟩ := h.ofClass
        obtain ⟨rfl, -⟩ := List.append_inj' hPlace rfl
        obtain rfl := Option.some.inj (hParent.symm.trans hParent')
        rw [hType] at hClass
        cases key' <;> exact absurd hClass (by decide)

end Region

/-- A frame is that of the scope that the body at a place opens, as it is at an offset. -/
structure Frame.StandsAt (t : Text) (root : SyntaxNode) (path : String) (offset : Int)
    (p : SyntaxNode.Place) (f : Frame) : Prop where
  opened : ∃ r statementEnd, Region.Opens t root p r ∧ f = r.frame path offset statementEnd
  access : ∀ key access statementEnd, f.shape = .classFrame key access statementEnd →
    Region.GivesAccess t (Region.IsSpecifier t root p) key offset access

theorem Region.Opens.standsAt {t : Text} {root : SyntaxNode} {p : SyntaxNode.Place} {r : Region}
    (hNested : root.WellNested) (h : Opens t root p r) (path : String) (offset : Int)
    (statementEnd : Nat → Option Nat) :
    (r.frame path offset statementEnd).StandsAt t root path offset p := by
  refine ⟨⟨r, statementEnd, h, rfl⟩, fun key access e hShape => ?_⟩
  cases hRegion : r.shape <;> simp only [frame, hRegion] at hShape
  case classRegion key' found =>
    obtain ⟨rfl, rfl, -⟩ := FrameShape.classFrame.inj hShape
    exact h.givesAccess hNested hRegion offset
  all_goals cases hShape

/-- What is known about the scopes of a file of a unit. -/
def FileScopes.ofFile (parse : List UInt8 → SyntaxNode) (u : CompilationUnit) (path : String)
    (t : Text) : FileScopes where
  text := t
  tree := parse t.encode
  regions := Region.ofTree t (parse t.encode)
  hasFault := (parse t.encode).hasFault
  code := u.codeTokens.filter (·.span.path == path)
  tokens := FileTokens.ofCode path (u.codeTokens.filter (·.span.path == path)) t.length

theorem FileScopes.contextAt_tree (f : FileScopes) (path : String) (offset : Int) :
    (f.hasFault = false → (f.contextAt path offset).evidence = .tree)
      ∧ ((f.contextAt path offset).evidence = .tree →
        (f.contextAt path offset).frames = f.treeFrames path offset) := by
  unfold contextAt
  dsimp only
  split
  · rename_i hFault
    refine ⟨fun hSound => absurd (hFault.symm.trans hSound) (by decide), fun hTree => ?_⟩
    split at hTree
    · rename_i hAgree
      rw [if_pos hAgree]
    · cases hTree
  · exact ⟨fun _ => rfl, fun _ => rfl⟩

namespace UnitScopes

variable {parse : List UInt8 → SyntaxNode} {u : CompilationUnit} {path : String} {t : Text}

theorem file?_ofUnit (parse : List UInt8 → SyntaxNode) (u : CompilationUnit) (path : String) :
    (ofUnit parse u).file? path = (u.file? path).map (FileScopes.ofFile parse u path) :=
  lookup_map_value (FileScopes.ofFile parse u) path u.files

/-- **Scopes of a tree.** Where the nodes of the tree hold their children, the regions around an
offset are those of the bodies around it, each inside the one before it. So are the frames, if they
come from the tree, as they do if it has no fault; and a class frame has the access of the last
specifier in its class that is not behind the offset. -/
theorem isChain_contextAt (hFile : u.file? path = some t) (hNested : (parse t.encode).WellNested)
    (offset : Int) :
    let context := (ofUnit parse u).contextAt path offset
    ((parse t.encode).hasFault = false → context.evidence = .tree)
      ∧ ∃ places, Region.IsChain t (parse t.encode) offset places
          ((Region.ofTree t (parse t.encode)).filter (·.holds offset))
        ∧ (context.evidence = .tree →
          List.Forall₂ (Frame.StandsAt t (parse t.encode) path offset) places context.frames
            ∧ context.WellNested ∧ ∀ f ∈ context.frames, (f.start : Int) < offset
            ∧ offset < f.stop) := by
  intro context
  have hContext : context = (FileScopes.ofFile parse u path t).contextAt path offset := by
    simp only [context, contextAt, file?_ofUnit, hFile, Option.map_some, Option.getD_some]
  obtain ⟨hSound, hFrames⟩ := (FileScopes.ofFile parse u path t).contextAt_tree path offset
  have hChain := Region.isChain_scopesAround t hNested offset
  rw [hContext]
  refine ⟨hSound, _, hChain, fun hTree => ?_⟩
  rw [Context.WellNested, hFrames hTree, FileScopes.treeFrames, FileScopes.ofFile]
  refine ⟨?_, ?_, ?_⟩
  · rw [List.forall₂_map_right_iff]
    exact hChain.opened.imp fun p r hOpens => hOpens.standsAt hNested path offset _
  · exact List.pairwise_map.mpr (hChain.within.imp fun hWithin => ⟨rfl, hWithin⟩)
  · intro g hg
    obtain ⟨r, hr, rfl⟩ := List.mem_map.mp hg
    exact hChain.around r hr

end UnitScopes

/-- The tree of a namespace with a class that is read as a function definition, in it a structure
with an access specifier, and in this a function with a block. -/
def SyntaxNode.nestedScopes (bytes : List UInt8) : SyntaxNode :=
  ⟨"translation_unit", 0, bytes.length, none, false,
    [scope "namespace_definition" 0 10 12 82
      [⟨"function_definition", 15, 79, none, false,
        [⟨"identifier", 28, 29, some "declarator", false, []⟩,
          ⟨"compound_statement", 30, 79, some "body", false,
            [scope "struct_specifier" 32 39 40 76
              [⟨"access_specifier", 43, 50, none, false, []⟩,
                ⟨"function_definition", 52, 74, none, false,
                  [⟨"function_declarator", 57, 60, some "declarator", false,
                    [⟨"identifier", 57, 58, some "declarator", false, []⟩]⟩,
                    ⟨"compound_statement", 61, 74, some "body", false,
                      [⟨"compound_statement", 63, 72, none, false, []⟩]⟩]⟩]]⟩]⟩]]⟩

/-- A character of two bytes stands in front of all scopes but the first. -/
theorem UnitScopes.isChain_contextAt_block :
    let text : Text := "namespace é \x7b\nclass EXPORT B \x7b\nstruct A \x7b\nprivate:\n"
      ++ "void f() \x7b \x7b here; \x7d \x7d\n\x7d;\n\x7d;\n\x7d\n"
    let root := SyntaxNode.nestedScopes text.encode
    ∃ u, CompilationUnit.read "unit.cpp" text none = .ok u ∧ u.file? "unit.cpp" = some text
    ∧ root.WellNested
      ∧ let context := (ofUnit .nestedScopes u).contextAt "unit.cpp" 64
        context.frames = [⟨.namespaceFrame, some "é", "unit.cpp", 12, 81⟩,
          ⟨.classFrame .classKey .privateMember (some 79), some "B", "unit.cpp", 29, 78⟩,
          ⟨.classFrame .structKey .privateMember (some 76), some "A", "unit.cpp", 40, 75⟩,
          ⟨.functionFrame none, some "f", "unit.cpp", 60, 73⟩,
          ⟨.blockFrame, none, "unit.cpp", 62, 71⟩]
        ∧ ∃ places, Region.IsChain text root 64 places
          ((Region.ofTree text root).filter (·.holds 64))
          ∧ List.Forall₂ (Frame.StandsAt text root "unit.cpp" 64) places context.frames
          ∧ context.WellNested ∧ ∀ f ∈ context.frames, (f.start : Int) < 64
          ∧ (64 : Int) < f.stop := by
  intro text root
  refine Except.exists_of_passes (fun u => decide (u.file? "unit.cpp" = some text ∧ root.WellNested
    ∧ root.hasFault = false
    ∧ ((ofUnit .nestedScopes u).contextAt "unit.cpp" 64).frames =
    [⟨.namespaceFrame, some "é", "unit.cpp", 12, 81⟩,
          ⟨.classFrame .classKey .privateMember (some 79), some "B", "unit.cpp", 29, 78⟩,
          ⟨.classFrame .structKey .privateMember (some 76), some "A", "unit.cpp", 40, 75⟩,
          ⟨.functionFrame none, some "f", "unit.cpp", 60, 73⟩,
          ⟨.blockFrame, none, "unit.cpp", 62, 71⟩]))
    (by decide +kernel) fun u _ hTest => ?_
  obtain ⟨hFile, hNested, hSound, hFrames⟩ := of_decide_eq_true hTest
  obtain ⟨hTree, places, hChain, hStands⟩ :=
    @isChain_contextAt .nestedScopes u "unit.cpp" text hFile hNested 64
  exact ⟨hFile, hNested, hFrames, places, hChain, hStands (hTree hSound)⟩

end Demacro
