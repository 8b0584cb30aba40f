import Demacro.Proofs.InForce
import Demacro.Proofs.Success

/-!
The names that a table lists. Each name with a definition is listed once, in the order of the first
directives about the names. That is the order of their first definitions unless a name is undefined
in front of all that is said about another name and defined behind the first definition of that one.
-/

namespace Demacro

namespace Event

/-- The first directive about a name. -/
def firstMention? (es : List Event) (name : String) : Option Event :=
  es.find? (·.directive.name == name)

/-- The first directive that defines a name, in a disabled branch or not. -/
def firstDefinition? (es : List Event) (name : String) : Option Event :=
  es.find? fun e => e.directive.name == name && e.directive.isDefine

/-- Each name of the list is defined first in front of the next ones. -/
def InDefinitionOrder (es : List Event) (names : List String) : Prop :=
  names.Pairwise fun a b => ∀ e o, firstDefinition? es a = some e → firstDefinition? es b = some o →
    e.position < o.position

instance (es : List Event) (names : List String) : Decidable (InDefinitionOrder es names) :=
  decidable_of_iff (names.Pairwise fun a b => ∀ e ∈ firstDefinition? es a,
    ∀ o ∈ firstDefinition? es b, e.position < o.position) (List.Pairwise.iff fun _ _ => by
      simp only [Option.mem_def]
      exact ⟨fun h e o he ho => h e he o ho, fun h e he o ho => h e o he ho⟩)

/-- An `#undef` of `a` stands in front of all directives about `b`, but the first definition of `b`
stands in front of that of `a`. -/
structure Overtakes (es : List Event) (a b : String) (undefine : Event) : Prop where
  first : firstMention? es a = some undefine
  undefines : undefine.directive.isDefine = false
  ahead : ∀ o, firstMention? es b = some o → undefine.position < o.position
  behind : ∃ e o, firstDefinition? es a = some e ∧ firstDefinition? es b = some o
    ∧ o.position < e.position

variable {es : List Event} {e o : Event} {a b name : String}

/-- Where positions increase, the first directive of a kind is the one with the least position. -/
theorem find?_eq_some_iff_first (hOrder : es.Pairwise (·.position < ·.position))
    (p : Event → Bool) :
    es.find? p = some e ↔ e ∈ es ∧ p e = true ∧ ∀ o ∈ es, p o = true → e.position ≤ o.position := by
  induction es with
  | nil => simp
  | cons x es ih =>
      obtain ⟨hFirst, hRest⟩ := List.pairwise_cons.mp hOrder
      cases hTest : p x with
      | true =>
          rw [List.find?_cons_of_pos hTest]
          constructor
          · rintro ⟨⟩
            refine ⟨List.mem_cons_self, hTest, fun o ho _ => ?_⟩
            rcases List.mem_cons.mp ho with rfl | ho
            · exact Nat.le_refl _
            · exact Nat.le_of_lt (hFirst o ho)
          · rintro ⟨hMem, -, hLeast⟩
            rcases List.mem_cons.mp hMem with rfl | hMem
            · rfl
            · have hLe := hLeast x List.mem_cons_self hTest
              exact absurd (hFirst e hMem) (Nat.not_lt_of_le hLe)
      | false =>
          rw [List.find?_cons_of_neg (by simp [hTest]), ih hRest]
          constructor
          · rintro ⟨hMem, hHolds, hLeast⟩
            refine ⟨List.mem_cons_of_mem x hMem, hHolds, fun o ho hOther => ?_⟩
            rcases List.mem_cons.mp ho with rfl | ho
            · rw [hTest] at hOther
              cases hOther
            · exact hLeast o ho hOther
          · rintro ⟨hMem, hHolds, hLeast⟩
            rcases List.mem_cons.mp hMem with rfl | hMem
            · rw [hTest] at hHolds
              cases hHolds
            · exact ⟨hMem, hHolds, fun o ho => hLeast o (List.mem_cons_of_mem x ho)⟩

theorem firstMention?_eq_some_iff (hOrder : es.Pairwise (·.position < ·.position)) :
    firstMention? es name = some e
      ↔ e ∈ es ∧ e.directive.name = name ∧ ∀ o ∈ es, o.directive.name = name →
      e.position ≤ o.position := by
  simpa only [firstMention?, beq_iff_eq] using find?_eq_some_iff_first hOrder
    (·.directive.name == name)

theorem firstDefinition?_eq_some_iff (hOrder : es.Pairwise (·.position < ·.position)) :
    firstDefinition? es name = some e
      ↔ e ∈ es ∧ (e.directive.name = name ∧ e.directive.isDefine = true)
        ∧ ∀ o ∈ es, o.directive.name = name ∧ o.directive.isDefine = true →
        e.position ≤ o.position := by
  simpa only [firstDefinition?, Bool.and_eq_true, beq_iff_eq] using
    find?_eq_some_iff_first hOrder fun e => e.directive.name == name && e.directive.isDefine

/-- A name that is defined is mentioned, no later than it is defined. -/
theorem exists_firstMention?_of_firstDefinition? (hOrder : es.Pairwise (·.position < ·.position))
    (h : firstDefinition? es name = some e) :
    ∃ o, firstMention? es name = some o ∧ o.position ≤ e.position := by
  obtain ⟨hMem, ⟨hName, -⟩, -⟩ := (firstDefinition?_eq_some_iff hOrder).mp h
  obtain ⟨o, hFirst⟩ := Option.isSome_iff_exists.mp
    (List.find?_isSome.mpr ⟨e, hMem, beq_iff_eq.mpr hName⟩ : (firstMention? es name).isSome = true)
  exact ⟨o, hFirst, ((firstMention?_eq_some_iff hOrder).mp hFirst).2.2 e hMem hName⟩

/-- A name whose first directive defines it is defined there first. -/
theorem firstDefinition?_eq_firstMention? (hOrder : es.Pairwise (·.position < ·.position))
    (h : firstMention? es name = some o) (hDefine : o.directive.isDefine = true) :
    firstDefinition? es name = some o := by
  obtain ⟨hMem, hName, hFirst⟩ := (firstMention?_eq_some_iff hOrder).mp h
  exact (firstDefinition?_eq_some_iff hOrder).mpr
    ⟨hMem, ⟨hName, hDefine⟩, fun e he hAlike => hFirst e he hAlike.1⟩

/-- Different names are not defined first at the same position. -/
theorem position_ne_of_firstDefinition? (hOrder : es.Pairwise (·.position < ·.position))
    (hNe : a ≠ b) (ha : firstDefinition? es a = some e) (hb : firstDefinition? es b = some o) :
    e.position ≠ o.position := by
  obtain ⟨hMem, ⟨rfl, -⟩, -⟩ := (firstDefinition?_eq_some_iff hOrder).mp ha
  obtain ⟨hOther, ⟨rfl, -⟩, -⟩ := (firstDefinition?_eq_some_iff hOrder).mp hb
  have hDiffer : e ≠ o := fun hSame => hNe (hSame ▸ rfl)
  rcases hOrder.or_of_ne hMem hOther hDiffer with hLess | hLess
  · exact Nat.ne_of_lt hLess
  · exact Nat.ne_of_gt hLess

end Event

/-- A list that is in order stays as it is. -/
theorem Sorting.sort_eq_self {α : Type} {le : α → α → Bool} {as : List α}
    (h : as.Pairwise (le · · = true)) : Sorting.sort le as = as := by
  induction as with
  | nil => rfl
  | cons a as ih =>
      obtain ⟨hFirst, hRest⟩ := List.pairwise_cons.mp h
      rw [Sorting.sort, ih hRest]
      cases as with
      | nil => rfl
      | cons b bs => rw [Sorting.insert, if_pos (hFirst b List.mem_cons_self)]

namespace MacroTable

variable {es : List Event} {e : Event} {name : String}

theorem firstEvents_sublist (seen : List String) (es : List Event) :
    (firstEvents seen es).Sublist es := by
  induction es generalizing seen with
  | nil => exact .slnil
  | cons e es ih =>
      unfold firstEvents
      split
      · exact (ih seen).cons e
      · exact (ih _).cons_cons e

/-- What is found as the first directive about its name is one about no name that was seen before,
and the first one about it. -/
theorem firstMention?_of_mem_firstEvents {seen : List String} (h : e ∈ firstEvents seen es) :
    e.directive.name ∉ seen ∧ Event.firstMention? es e.directive.name = some e := by
  induction es generalizing seen with
  | nil => cases h
  | cons x es ih =>
      unfold firstEvents at h
      split at h
      · rename_i hSeen
        obtain ⟨hNew, hFirst⟩ := ih h
        have hOther : x.directive.name ≠ e.directive.name := by
          rintro hSame
          exact hNew (by simpa [hSame] using hSeen)
        exact ⟨hNew, (List.find?_cons_of_neg (by simpa using hOther)).trans hFirst⟩
      · rename_i hNew
        rcases List.mem_cons.mp h with rfl | h
        · exact ⟨by simpa using hNew, List.find?_cons_of_pos (by simp)⟩
        · obtain ⟨hNotSeen, hFirst⟩ := ih h
          obtain ⟨hOther, hNotSeen⟩ := not_or.mp (List.mem_cons.not.mp hNotSeen)
          exact ⟨hNotSeen, (List.find?_cons_of_neg (by simpa using Ne.symm hOther)).trans hFirst⟩

/-- Where positions increase, names are listed in the order of the first directives about them. -/
theorem names_pairwise_firstMention? (hOrder : es.Pairwise (·.position < ·.position)) :
    (ofEvents es).names.Pairwise fun a b => ∀ e o, Event.firstMention? es a = some e →
      Event.firstMention? es b = some o → e.position < o.position := by
  have hSorted : ((firstEvents [] (ofEvents es).events).filter fun e =>
      ((ofEvents es).history e.directive.name).any (·.directive.isDefine)).Pairwise
        (·.position < ·.position) := by
    rw [ofEvents_events]
    exact hOrder.sublist (List.filter_sublist.trans (firstEvents_sublist [] es))
  rw [names, Sorting.sort_eq_self (hSorted.imp fun hLess => by simp [hLess]), List.pairwise_map]
  refine hSorted.imp_of_mem fun {e o} he ho hLess e' o' he' ho' => ?_
  rw [ofEvents_events] at he ho
  rw [(firstMention?_of_mem_firstEvents (List.mem_of_mem_filter he)).2] at he'
  rw [(firstMention?_of_mem_firstEvents (List.mem_of_mem_filter ho)).2] at ho'
  obtain ⟨rfl⟩ := Option.some.inj he'
  obtain ⟨rfl⟩ := Option.some.inj ho'
  exact hLess

theorem mem_names_of_firstDefinition? (h : Event.firstDefinition? es name = some e) :
    name ∈ (ofEvents es).names := by
  have hTest := List.find?_some h
  simp only [Bool.and_eq_true, beq_iff_eq] at hTest
  refine mem_names.mpr ⟨e, ?_, hTest⟩
  rw [ofEvents_events]
  exact List.mem_of_find?_eq_some h

/-- Names are listed in the order of their first definitions exactly if none overtakes another. -/
theorem inDefinitionOrder_names_iff (hOrder : es.Pairwise (·.position < ·.position)) :
    Event.InDefinitionOrder es (ofEvents es).names ↔ ¬ ∃ a b u, Event.Overtakes es a b u := by
  have hMentions := names_pairwise_firstMention? hOrder
  constructor
  · rintro hDefinitions ⟨a, b, u, hFirst, -, hAhead, e, o, ha, hb, hLess⟩
    have hNe : a ≠ b := by
      rintro rfl
      obtain rfl := Option.some.inj (ha.symm.trans hb)
      exact Nat.lt_irrefl _ hLess
    obtain ⟨m, hm, -⟩ := Event.exists_firstMention?_of_firstDefinition? hOrder hb
    rcases (hMentions.and hDefinitions).or_of_ne (mem_names_of_firstDefinition? ha)
      (mem_names_of_firstDefinition? hb) hNe with hListed | hListed
    · exact absurd (hListed.2 e o ha hb) (Nat.lt_asymm hLess)
    · exact absurd (hListed.1 m u hm hFirst) (Nat.lt_asymm (hAhead m hm))
  · intro hNone
    refine (hMentions.and (names_nodup (ofEvents es))).imp fun {a b} ⟨hMention, hNe⟩ e o ha hb => ?_
    by_contra hNotLess
    have hLess : o.position < e.position := Nat.lt_of_le_of_ne (Nat.le_of_not_lt hNotLess)
      (Event.position_ne_of_firstDefinition? hOrder hNe ha hb).symm
    obtain ⟨u, hu, -⟩ := Event.exists_firstMention?_of_firstDefinition? hOrder ha
    refine hNone ⟨a, b, u, hu, ?_, fun m hm => hMention u m hu hm, e, o, ha, hb, hLess⟩
    -- Were `u` a definition, it would be the first one, in front of all that is said about `b`.
    by_contra hDefine
    obtain ⟨m, hm, hLe⟩ := Event.exists_firstMention?_of_firstDefinition? hOrder hb
    have hSame := Event.firstDefinition?_eq_firstMention? hOrder hu (Bool.not_eq_false _ ▸ hDefine)
    obtain rfl := Option.some.inj (ha.symm.trans hSame)
    have hAhead := hMention e m hu hm
    omega

/-- A table of directives at increasing positions lists each name with a definition once and no
other, in the order of the first directives about the names. It lists them in the order of their
first definitions exactly if no name is undefined in front of all that is said about another one and
defined behind that one. -/
theorem names_inDefinitionOrder_iff (hOrder : es.Pairwise (·.position < ·.position)) :
    (ofEvents es).names.Nodup
      ∧ (∀ name, name ∈ (ofEvents es).names
        ↔ ∃ e ∈ es, e.directive.name = name ∧ e.directive.isDefine = true)
      ∧ ((ofEvents es).names.Pairwise fun a b => ∀ e o, Event.firstMention? es a = some e →
        Event.firstMention? es b = some o → e.position < o.position)
      ∧ (Event.InDefinitionOrder es (ofEvents es).names ↔ ¬ ∃ a b u, Event.Overtakes es a b u) := by
  refine ⟨names_nodup _, fun name => ?_, names_pairwise_firstMention? hOrder,
    inDefinitionOrder_names_iff hOrder⟩
  rw [mem_names, ofEvents_events]

/-- A name that is undefined before each definition, one that is defined in a disabled branch, and
one that is never defined: none overtakes another. -/
theorem names_inDefinitionOrder_undefinedBefore :
    ∃ u, CompilationUnit.read "unit.cpp"
        "#undef C\n#undef A\n#define A 1\n#if 0\n#define D\n#endif\n#define B A\n#undef A\n#define A 2\n"
        none = .ok u
      ∧ u.events.Pairwise (·.position < ·.position) ∧ (ofEvents u.events).names = ["A", "D", "B"]
      ∧ ¬ ∃ a b e, Event.Overtakes u.events a b e := by
  refine Except.exists_of_passes (fun u => decide ((ofEvents u.events).names = ["A", "D", "B"]
    ∧ Event.InDefinitionOrder u.events (ofEvents u.events).names)) (by
      decide +kernel) fun u _ hTest => ?_
  obtain ⟨hNames, hInOrder⟩ := of_decide_eq_true hTest
  have hOrder := positions_of_inOrder (CompilationUnit.events_inOrder u)
  exact ⟨hOrder, hNames, (names_inDefinitionOrder_iff hOrder).2.2.2.mp hInOrder⟩

/-- A name that is undefined first and defined last is listed in front of the one that is defined
between. -/
theorem not_inDefinitionOrder_undefinedFirst :
    ∃ u, CompilationUnit.read "unit.cpp" "#undef A\n#define B 1\n#define A 2\n" none = .ok u
      ∧ u.events.Pairwise (·.position < ·.position) ∧ (ofEvents u.events).names = ["A", "B"]
      ∧ ¬ Event.InDefinitionOrder u.events (ofEvents u.events).names := by
  refine Except.exists_of_passes (fun u => decide ((ofEvents u.events).names = ["A", "B"]
    ∧ ¬ Event.InDefinitionOrder u.events (ofEvents u.events).names)) (by
      decide +kernel) fun u _ hTest => ?_
  obtain ⟨hNames, hNotInOrder⟩ := of_decide_eq_true hTest
  exact ⟨positions_of_inOrder (CompilationUnit.events_inOrder u), hNames, hNotInOrder⟩

end MacroTable

end Demacro
