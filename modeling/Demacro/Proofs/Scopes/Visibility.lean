import Demacro.Proofs.Analysis
import Demacro.Proofs.Collisions
import Demacro.Proofs.Scopes.Names

/-!
Where a declaration can be named without a qualifier. A place that is said to see the scope of a
definition stands in that scope, or in a member of its class, with two exceptions: members of other
classes with the same last name, and classes that stand where the namespace would.
-/

namespace Demacro

namespace Context

/-- Each scope holds the next one. -/
def WellNested (c : Context) : Prop :=
  c.frames.Pairwise fun outer inner => outer.path = inner.path ∧ outer.start ≤ inner.start
    ∧ inner.stop ≤ outer.stop

instance (c : Context) : Decidable c.WellNested :=
  inferInstanceAs (Decidable (List.Pairwise _ _))

/-- The place is in the very scope. -/
def LiesIn (c : Context) (frame : Frame) : Prop :=
  ∃ g ∈ c.frames, g.same frame = true

/-- The place is in a namespace with the given full name. -/
def LiesInNamespace (c : Context) (path : List String) : Prop :=
  ∃ before g after, c.frames = before ++ g :: after ∧ g.kind = .namespaceScope ∧ g.name ≠ none
    ∧ Frame.pathOf (before ++ [g]) = path

/-- The place is in the body of a function whose name puts it into the class with the given full
name. -/
def LiesInMember (scopes : List String → Prop) (c : Context) (path : List String) : Prop :=
  ∃ before body after owner, c.frames = before ++ body :: after ∧ body.ownerPath? = some owner
    ∧ Leads scopes (Frame.pathOf before) owner path

/-- The place is where a declaration made at `home` can be named: in its scope, in the same
namespace, or in a member of the same class. -/
def Reaches (scopes : List String → Prop) (c home : Context) : Prop :=
  ∀ frame, home.scope? = some frame → c.LiesIn frame
    ∨ frame.kind = .namespaceScope ∧ c.LiesInNamespace home.path
    ∨ frame.kind = .classScope ∧ c.LiesInMember scopes home.path

/-- The place is taken for one where a declaration made at `home` can be named, because of a
name. -/
inductive Confuses (scopes : List String → Prop) (c home : Context) : Prop
  /-- The innermost function with an owner belongs to a class of the same last name, and no function
  around the place to the class itself. -/
  | member {frame body : Frame} {before after : List Frame} {name : String}
      (scope : home.scope? = some frame) (kind : frame.kind = .classScope)
      (outside : ¬c.LiesIn frame) (named : frame.name = some name)
      (split : c.frames = before ++ body :: after)
      (owner : body.owner? = some (QualifiedName.last name))
      (innermost : ∀ g ∈ after, g.owner? = none) (other : ¬c.LiesInMember scopes home.path)
  /-- A class has the names that the namespace has. -/
  | namesake {frame g : Frame} {before after : List Frame} (scope : home.scope? = some frame)
      (kind : frame.kind = .namespaceScope) (outside : ¬c.LiesIn frame)
      (split : c.frames = before ++ g :: after)
      (isClass : g.kind = .classScope) (named : g.name ≠ none)
      (alike : Frame.names (before ++ [g]) = home.scopePath)

variable {scopes : List String → Prop} {c home : Context} {frame : Frame}

theorem any_same_iff : c.frames.any (·.same frame) = true ↔ c.LiesIn frame := by
  simp [LiesIn]

/-- The owner is that of the innermost function that has one. -/
theorem owner?_eq_some_iff {owner : String} : c.owner? = some owner ↔ ∃ before body after,
    c.frames = before ++ body :: after ∧ body.owner? = some owner
    ∧ ∀ g ∈ after, g.owner? = none := by
  rw [Context.owner?, List.findSome?_eq_some_iff]
  constructor
  · rintro ⟨after, body, before, hSplit, hOwner, hNone⟩
    refine ⟨before.reverse, body, after.reverse, ?_, hOwner,
      fun g hg => hNone g (List.mem_reverse.mp hg)⟩
    simpa using congrArg List.reverse hSplit
  · rintro ⟨before, body, after, hSplit, hOwner, hNone⟩
    refine ⟨after.reverse, body, before.reverse, ?_, hOwner,
      fun g hg => hNone g (List.mem_reverse.mp hg)⟩
    simp [hSplit]

/-- The class of a member is named in full by some of the scopes around the place, and the owner in
the function's name. -/
theorem LiesInMember.exists_owner {path : List String} (h : c.LiesInMember scopes path) :
    ∃ body ∈ c.frames, ∃ owner, body.ownerPath? = some owner ∧ ∃ around, around <+: c.path
    ∧ path = around ++ owner := by
  obtain ⟨before, body, after, owner, hSplit, hOwner, hLeads⟩ := h
  refine ⟨body, by simp [hSplit], owner, hOwner, ?_⟩
  cases hLeads with
  | @found around rest first isAround _ _ =>
      refine ⟨around, isAround.trans ?_, rfl⟩
      rw [path, hSplit, Frame.pathOf_append]
      exact List.prefix_append _ _

theorem sees_iff_of_class (hScope : home.scope? = some frame) (hKind : frame.kind = .classScope) :
    c.sees home = true ↔ c.LiesIn frame ∨ ∃ name, frame.name = some name
    ∧ c.owner? = some (QualifiedName.last name) := by
  simp only [sees, hScope, hKind, seesClass, Bool.or_eq_true, any_same_iff]
  refine or_congr_right ?_
  split
  · rename_i owner name hOwner hName
    simp [hOwner, hName]
  · rename_i hNone
    simp only [Bool.false_eq_true, false_iff, not_exists, not_and]
    exact fun name hName hOwner => hNone _ _ hOwner hName

theorem sees_iff_of_namespace (hScope : home.scope? = some frame)
    (hKind : frame.kind = .namespaceScope) :
    c.sees home = true ↔ c.LiesIn frame ∨ home.scopePath <+: c.scopePath := by
  simp only [sees, hScope, hKind, Bool.or_eq_true, any_same_iff, List.isPrefixOf_iff_prefix]

theorem sees_iff_of_other (hScope : home.scope? = some frame) (hClass : frame.kind ≠ .classScope)
    (hNamespace : frame.kind ≠ .namespaceScope) : c.sees home = true ↔ c.LiesIn frame := by
  unfold sees
  rw [hScope]
  dsimp only
  split
  · rename_i hKind
    exact absurd hKind hClass
  · rename_i hKind
    exact absurd hKind hNamespace
  · exact any_same_iff

theorem reaches_iff (hScope : home.scope? = some frame) : c.Reaches scopes home ↔ c.LiesIn frame
    ∨ frame.kind = .namespaceScope ∧ c.LiesInNamespace home.path
    ∨ frame.kind = .classScope ∧ c.LiesInMember scopes home.path := by
  simp [Reaches, hScope]

/-- A namespace that declarations belong to has a name. -/
theorem scopePath_ne_nil (hScope : home.scope? = some frame)
    (hKind : frame.kind = .namespaceScope) : home.scopePath ≠ [] := by
  have hFound := List.find?_some hScope
  have hMem : frame ∈ home.frames := List.mem_reverse.mp (List.mem_of_find?_eq_some hScope)
  obtain ⟨name, hName⟩ : ∃ name, frame.name = some name := by
    simpa [Frame.isTransparent, hKind, Option.isSome_iff_exists] using hFound
  refine List.ne_nil_of_mem (List.mem_filterMap.mpr ⟨frame, List.mem_filter.mpr ⟨hMem, ?_⟩, hName⟩)
  simp [Frame.isDeclarative, hKind]

/-- From outside of a class only a function with an owner of its name sees it. -/
theorem confuses_iff_of_class (hScope : home.scope? = some frame)
    (hClass : frame.kind = .classScope) :
    c.sees home = true ∧ ¬c.Reaches scopes home ↔ c.Confuses scopes home := by
  rw [sees_iff_of_class hScope hClass, reaches_iff hScope]
  constructor
  · rintro ⟨hSees, hNot⟩
    obtain ⟨name, hName, hOwner⟩ := hSees.resolve_left fun hLies => hNot (.inl hLies)
    obtain ⟨before, body, after, hSplit, hBody, hInnermost⟩ := owner?_eq_some_iff.mp hOwner
    exact .member hScope hClass (fun hLies => hNot (.inl hLies)) hName hSplit hBody hInnermost
      fun hLies => hNot (.inr (.inr ⟨hClass, hLies⟩))
  · intro h
    cases h with
    | member hFrame hKind hOutside hName hSplit hBody hInnermost hOther =>
        obtain rfl := Option.some.inj (hScope.symm.trans hFrame)
        refine ⟨.inr ⟨_, hName, owner?_eq_some_iff.mpr ⟨_, _, _, hSplit, hBody, hInnermost⟩⟩, ?_⟩
        rintro (hLies | ⟨hNamespace, -⟩ | ⟨-, hLies⟩)
        · exact hOutside hLies
        · rw [hClass] at hNamespace
          cases hNamespace
        · exact hOther hLies
    | namesake hFrame hKind =>
        obtain rfl := Option.some.inj (hScope.symm.trans hFrame)
        rw [hClass] at hKind
        cases hKind

/-- From outside of a namespace only a scope with the same names sees it. -/
theorem confuses_iff_of_namespace (hScope : home.scope? = some frame)
    (hNamespace : frame.kind = .namespaceScope) :
    c.sees home = true ∧ ¬c.Reaches scopes home ↔ c.Confuses scopes home := by
  have hPathOf : ∀ frames, Frame.names frames = home.scopePath →
      Frame.pathOf frames = home.path := by
    intro frames hNames
    rw [Frame.pathOf, hNames]
    rfl
  rw [sees_iff_of_namespace hScope hNamespace, reaches_iff hScope]
  constructor
  · rintro ⟨hSees, hNot⟩
    obtain ⟨before, g, after, hSplit, hDeclarative, hNamed, hNames⟩ := Frame.exists_of_prefix_names
      (hSees.resolve_left fun hLies => hNot (.inl hLies)) (scopePath_ne_nil hScope hNamespace)
    refine .namesake hScope hNamespace (fun hLies => hNot (.inl hLies)) hSplit ?_ hNamed hNames
    by_contra hOther
    have hKind : g.kind = .namespaceScope := by
      simpa [Frame.isDeclarative, hOther] using hDeclarative
    exact hNot (.inr (.inl ⟨hNamespace, before, g, after, hSplit, hKind, hNamed, hPathOf _ hNames⟩))
  · intro h
    cases h with
    | member hFrame hKind =>
        obtain rfl := Option.some.inj (hScope.symm.trans hFrame)
        rw [hNamespace] at hKind
        cases hKind
    | @namesake _ g before after hFrame _ hOutside hSplit hIsClass hNamed hNames =>
        obtain rfl := Option.some.inj (hScope.symm.trans hFrame)
        refine ⟨.inr ?_, ?_⟩
        · change home.scopePath <+: Frame.names c.frames
          have hFrames : c.frames = before ++ [g] ++ after := by
            simpa using hSplit
          rw [← hNames, hFrames, @Frame.names_append (before ++ [g])]
          exact List.prefix_append _ _
        · rintro (hLies | ⟨-, before', g', after', hSplit', hKind', hNamed', hPath⟩ | ⟨hKind, -⟩)
          · exact hOutside hLies
          · have hSame : g = g' := by
              refine Frame.eq_of_pathOf_eq (hSplit.symm.trans hSplit') ?_ hNamed ?_ hNamed' ?_
              · simp [Frame.isDeclarative, hIsClass]
              · simp [Frame.isDeclarative, hKind']
              · rw [hPath, hPathOf _ hNames]
            rw [← hSame, hIsClass] at hKind'
            cases hKind'
          · rw [hNamespace] at hKind
            cases hKind

/-- Seeing the scope of a definition goes wrong exactly where a name is taken for another one. -/
theorem sees_not_reaches_iff (scopes : List String → Prop) (c home : Context) :
    c.sees home = true ∧ ¬c.Reaches scopes home ↔ c.Confuses scopes home := by
  have hFrame : ∀ frame, home.scope? = some frame → c.Confuses scopes home →
      frame.kind = .classScope ∨ frame.kind = .namespaceScope := by
    intro frame hScope h
    cases h with
    | member hOther hKind =>
        exact .inl (Option.some.inj (hScope.symm.trans hOther) ▸ hKind)
    | namesake hOther hKind =>
        exact .inr (Option.some.inj (hScope.symm.trans hOther) ▸ hKind)
  cases hScope : home.scope? with
  | none =>
      refine iff_of_false (fun h => h.2 fun frame hOther => ?_) fun h => ?_
      · rw [hScope] at hOther
        cases hOther
      · cases h with
        | member hOther | namesake hOther =>
            rw [hScope] at hOther
            cases hOther
  | some frame =>
      by_cases hClass : frame.kind = .classScope
      · exact confuses_iff_of_class hScope hClass
      by_cases hNamespace : frame.kind = .namespaceScope
      · exact confuses_iff_of_namespace hScope hNamespace
      -- A function or a block is told by its place.
      rw [sees_iff_of_other hScope hClass hNamespace, reaches_iff hScope]
      exact iff_of_false (fun h => h.2 (.inl h.1)) fun h =>
        (hFrame frame hScope h).elim hClass hNamespace

end Context

/-- The tree of two namespaces with a class of one name in each, and a member function of the second
class. -/
def SyntaxNode.twoClasses (bytes : List UInt8) : SyntaxNode :=
  ⟨"translation_unit", 0, bytes.length, none, false,
    [scope "namespace_definition" 0 10 11 40 [scope "class_specifier" 14 20 21 37 []],
      scope "namespace_definition" 41 51 52 103 [scope "class_specifier" 55 61 62 75 [],
        ⟨"function_definition", 77, 101, none, false,
          [⟨"function_declarator", 81, 87, some "declarator", false,
            [⟨"qualified_identifier", 81, 85, some "declarator", false,
              [⟨"namespace_identifier", 81, 82, some "scope", false, []⟩]⟩]⟩,
            ⟨"compound_statement", 88, 101, some "body", false, []⟩]⟩]]⟩

/-- A member function of one class sees the private constant of the other. -/
theorem Analysis.not_reaches_twoClasses :
    ∃ a, ofText .twoClasses {} (fun _ => .error .notFound) "unit.cpp"
        ("namespace a \x7b\nclass C \x7b\n#define N 1\n\x7d;\n\x7d\n"
          ++ "namespace b \x7b\nclass C \x7b int f(); \x7d;\nint C::f() \x7b return N; \x7d\n\x7d\n")
        = .ok a
      ∧ ∃ c ∈ a.classifications, ∃ home ∈ c.context, ∃ w ∈ c.usages, home.WellNested
      ∧ w.context.WellNested
        ∧ w.context.sees home = true ∧ ∀ scopes, ¬w.context.Reaches scopes home := by
  refine Except.exists_of_passes
    (fun a => decide (∃ c ∈ a.classifications, ∃ home ∈ c.context, ∃ w ∈ c.usages,
    home.frames = [⟨.namespaceFrame, some "a", "unit.cpp", 12, 40⟩,
      ⟨.classFrame .classKey .privateMember (some 38), some "C", "unit.cpp", 22, 37⟩]
    ∧ w.context.frames = [⟨.namespaceFrame, some "b", "unit.cpp", 53, 103⟩,
      ⟨.functionFrame (some "C"), some "C::f", "unit.cpp", 88, 101⟩])) (by
        decide +kernel) fun a _ hTest => ?_
  obtain ⟨c, hc, home, hHome, w, hw, hFrames, hUse⟩ := of_decide_eq_true hTest
  have hScope : home.scope? = some ⟨.classFrame .classKey .privateMember (some 38), some "C",
      "unit.cpp", 22, 37⟩ := by
    rw [Context.scope?, hFrames]
    decide
  -- The owner of the function is `C`, and the only scope around it is `b`.
  have hOther : ∀ scopes, ¬w.context.LiesInMember scopes home.path := by
    intro scopes hLies
    obtain ⟨body, hBody, owner, hOwner, around, hAround, hPath⟩ := hLies.exists_owner
    have hOwners : ∀ body ∈ w.context.frames, ∀ owner ∈ body.ownerPath?, owner = ["C"] := by
      rw [hUse]
      decide +kernel
    obtain rfl := hOwners body hBody owner hOwner
    have hHome : home.path = ["a", "C"] := by
      rw [Context.path, hFrames]
      decide +kernel
    have hHere : w.context.path = ["b"] := by
      rw [Context.path, hUse]
      decide +kernel
    obtain rfl : ["a"] = around := List.append_cancel_right (hHome.symm.trans hPath)
    rw [hHere] at hAround
    exact absurd hAround (by decide)
  have hConfuses : ∀ scopes, w.context.Confuses scopes home := by
    have hOutside : ¬w.context.LiesIn ⟨.classFrame .classKey .privateMember (some 38), some "C",
        "unit.cpp", 22, 37⟩ := by
      rw [Context.LiesIn, hUse]
      decide
    exact fun scopes => @Context.Confuses.member scopes w.context home _ _ [_]
      [] _ hScope rfl hOutside rfl hUse (by decide +kernel) (by simp) (hOther scopes)
  have hSees := fun scopes => (Context.confuses_iff_of_class hScope rfl).mpr (hConfuses scopes)
  refine ⟨c, hc, home, hHome, w, hw, ?_, ?_, (hSees fun _ => True).1,
    fun scopes => (hSees scopes).2⟩
  · rw [Context.WellNested, hFrames]
    decide
  · rw [Context.WellNested, hUse]
    decide

end Demacro
