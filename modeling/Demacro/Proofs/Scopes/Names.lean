import Demacro.Scope.Tree

/-!
Names of scopes, and what a qualified name means at a place: its first component is looked up in the
scopes around the place, the innermost first, and the other components are followed from there.
-/

namespace Demacro

namespace QualifiedName

/-- The components of a name. -/
def parts (name : String) : List String :=
  (components name.toList).map String.ofList

/-- A name without what stands between angle brackets; `depth` brackets are open in front of it. -/
def withoutArguments (depth : Nat) : List Char → List Char
  | [] => []
  | c :: cs =>
    if c = '<' then withoutArguments (depth + 1) cs
    else if c = '>' then withoutArguments (depth - 1) cs
    else if depth = 0 then c :: withoutArguments 0 cs
    else withoutArguments depth cs

theorem components_ne_nil (cs : List Char) : components cs ≠ [] := by
  unfold components
  split
  · exact List.cons_ne_nil _ _
  · exact List.cons_ne_nil _ _
  · split <;> exact List.cons_ne_nil _ _

theorem parts_ne_nil (name : String) : parts name ≠ [] := by
  simpa [parts] using components_ne_nil name.toList

end QualifiedName

namespace Frame

/-- The names of the classes and namespaces among some frames. -/
def names (frames : List Frame) : List String :=
  (frames.filter isDeclarative).filterMap name

/-- The names of the classes and namespaces among some frames, one component each: a namespace can
be given more than one at a time. -/
def pathOf (frames : List Frame) : List String :=
  (names frames).flatMap QualifiedName.parts

/-- The class that a function defined outside of its class belongs to, as the function's own name
gives it. -/
def ownerPath? (f : Frame) : Option (List String) :=
  f.owner?.map fun owner =>
    let plain := QualifiedName.withoutArguments 0 (f.name.getD "").toList
    (QualifiedName.parts (String.ofList plain)).takeWhile (· != owner) ++ [owner]

variable {frames others before after : List Frame} {f g : Frame} {name : String}

@[simp]
theorem names_append : names (frames ++ others) = names frames ++ names others := by
  simp [names]

@[simp]
theorem pathOf_append : pathOf (frames ++ others) = pathOf frames ++ pathOf others := by
  simp [pathOf]

theorem names_singleton (hDeclarative : f.isDeclarative = true) (hName : f.name = some name) :
    names [f] = [name] := by
  simp [names, hDeclarative, hName]

/-- A named scope makes the path longer. -/
theorem length_pathOf_lt (before between : List Frame) (hDeclarative : f.isDeclarative = true)
    (hName : f.name ≠ none) :
    (pathOf before).length < (pathOf (before ++ between ++ [f])).length := by
  obtain ⟨name, hName⟩ := Option.ne_none_iff_exists'.mp hName
  have hParts : 0 < (QualifiedName.parts name).length :=
    List.length_pos_iff.mpr (QualifiedName.parts_ne_nil name)
  have hLast : pathOf [f] = QualifiedName.parts name := by
    simp [pathOf, names_singleton hDeclarative hName]
  rw [pathOf_append, pathOf_append, hLast, List.length_append, List.length_append]
  omega

/-- The path of a scope says which one it is, among the scopes around a place. -/
theorem eq_of_pathOf_eq {before' after' : List Frame}
    (hSplit : before ++ f :: after = before' ++ g :: after') (hf : f.isDeclarative = true)
    (hfName : f.name ≠ none) (hg : g.isDeclarative = true) (hgName : g.name ≠ none)
    (h : pathOf (before ++ [f]) = pathOf (before' ++ [g])) : f = g := by
  -- If one stood in front of the other, its path would be shorter.
  rcases List.append_eq_append_iff.mp hSplit with ⟨between, rfl, hBehind⟩ | ⟨between, rfl, hBehind⟩
  · cases between with
    | nil => exact (List.cons.inj hBehind).1
    | cons first between =>
        obtain ⟨rfl, -⟩ := List.cons.inj hBehind
        have hLess := length_pathOf_lt (before ++ [f]) between hg hgName
        rw [h] at hLess
        simp at hLess
  · cases between with
    | nil => exact (List.cons.inj hBehind).1.symm
    | cons first between =>
        obtain ⟨rfl, -⟩ := List.cons.inj hBehind
        have hLess := length_pathOf_lt (before' ++ [g]) between hf hfName
        rw [← h] at hLess
        simp at hLess

/-- The first of the names belong to the scopes down to one of them. -/
theorem exists_of_prefix_names {ns : List String} (h : ns <+: names frames) (hNe : ns ≠ []) :
    ∃ before g after, frames = before ++ g :: after ∧ g.isDeclarative = true ∧ g.name ≠ none
      ∧ names (before ++ [g]) = ns := by
  induction frames generalizing ns with
  | nil => exact absurd (List.prefix_nil.mp h) hNe
  | cons f frames ih =>
      rw [← List.singleton_append, names_append] at h
      by_cases hNamed : f.isDeclarative = true ∧ f.name ≠ none
      · obtain ⟨name, hName⟩ := Option.ne_none_iff_exists'.mp hNamed.2
        rw [names_singleton hNamed.1 hName, List.singleton_append] at h
        obtain ⟨first, ns, rfl⟩ := List.exists_cons_of_ne_nil hNe
        obtain ⟨rfl, hRest⟩ := List.cons_prefix_cons.mp h
        by_cases hLast : ns = []
        · exact ⟨[], f, frames, rfl, hNamed.1, hNamed.2,
            by rw [hLast]; exact names_singleton hNamed.1 hName⟩
        · obtain ⟨before, g, after, rfl, hDeclarative, hNamed', hNames⟩ := ih hRest hLast
          refine ⟨f :: before, g, after, rfl, hDeclarative, hNamed', ?_⟩
          rw [List.cons_append, ← List.singleton_append, names_append, hNames,
            names_singleton hNamed.1 hName]
          rfl
      · have hNone : names [f] = [] := by
          by_cases hDeclarative : f.isDeclarative = true
          · simpa [names, hDeclarative] using hNamed
          · simp [names, hDeclarative]
        rw [hNone, List.nil_append] at h
        obtain ⟨before, g, after, rfl, hDeclarative, hNamed', hNames⟩ := ih h hNe
        refine ⟨f :: before, g, after, rfl, hDeclarative, hNamed', ?_⟩
        rw [List.cons_append, ← List.singleton_append, names_append, hNone, hNames]
        rfl

end Frame

/-- The classes and namespaces around a place, one component each. -/
def Context.path (c : Context) : List String :=
  Frame.pathOf c.frames

/-- At a place in the scope `here` a qualified name means the scope `target`: its first component is
looked up in the scopes around the place, the innermost first, and the others are followed from
there. -/
inductive Leads (scopes : List String → Prop) (here : List String) :
    List String → List String → Prop
  | found {around rest : List String} {first : String} (isAround : around <+: here)
      (innermost : ∀ p, p <+: here → scopes (p ++ [first]) → p.length ≤ around.length)
      (follows : ∀ p, p <+: rest → scopes (around ++ first :: p)) :
      Leads scopes here (first :: rest) (around ++ first :: rest)

namespace Leads

variable {scopes : List String → Prop} {here name target other : List String}

theorem exists_around {first : String} {rest : List String}
    (h : Leads scopes here (first :: rest) target) :
    ∃ around, target = around ++ first :: rest ∧ around <+: here
      ∧ ∀ p, p <+: here → scopes (p ++ [first]) → p.length ≤ around.length := by
  cases h with
  | found isAround innermost _ => exact ⟨_, rfl, isAround, innermost⟩

/-- A name means one scope. -/
theorem eq (h : Leads scopes here name target) (h' : Leads scopes here name other) :
    target = other := by
  cases h with
  | @found around rest first isAround innermost follows =>
      cases h' with
      | @found around' _ _ isAround' innermost' follows' =>
          have hLength : around.length = around'.length := Nat.le_antisymm
            (innermost' around isAround (follows [] List.nil_prefix))
            (innermost around' isAround' (follows' [] List.nil_prefix))
          rw [List.prefix_iff_eq_take.mp isAround, List.prefix_iff_eq_take.mp isAround', hLength]

end Leads

/-- The tree of a scope with a name and, one character behind it, a body. -/
def SyntaxNode.scope (type : String) (start nameStart nameStop stop : Nat)
    (children : List SyntaxNode) : SyntaxNode :=
  ⟨type, start, stop, none, false,
    [⟨"identifier", nameStart, nameStop, some "name", false, []⟩,
      ⟨"declaration_list", nameStop + 1, stop, some "body", false, children⟩]⟩

end Demacro
