import Demacro.MacroTable
import Demacro.Proofs.Lists

/-!
The macro table of a sequence of directives. Recording forgets no directive, and there is one span
for each definition, whatever closes it later.
-/

namespace Demacro

/-- The definition of a span with the place of its directive. -/
def ActiveSpan.origin (s : ActiveSpan) : Definition × Nat × Reachability :=
  (s.definition, s.position, s.reachability)

/-- The definition of a directive with its place, if it defines a macro. -/
def Event.origin? (e : Event) : Option (Definition × Nat × Reachability) :=
  match e.directive with
  | .define d => some (d, e.position, e.reachability)
  | .undef .. => none

namespace MacroTable

variable {t : MacroTable} {e : Event} {es : List Event} {name : String} {d : Definition}

theorem close_origins (name : String) (position : Int) (by_ : Option Event) :
    (t.close name position by_).spans.map ActiveSpan.origin = t.spans.map ActiveSpan.origin := by
  simp only [close, List.map_map]
  refine List.map_congr_left fun s _ => ?_
  simp only [Function.comp_apply, ActiveSpan.close]
  split <;> rfl

theorem record_events : (t.record e).events = t.events ++ [e] := by
  unfold record
  dsimp only
  split
  · split
    · rfl
    · split <;> rfl
  · split <;> rfl

/-- A directive opens a span exactly if it defines a macro. -/
theorem record_origins : (t.record e).spans.map ActiveSpan.origin =
    t.spans.map ActiveSpan.origin ++ e.origin?.toList := by
  unfold record
  dsimp only
  split
  · rename_i d hDirective
    split
    · simp [ActiveSpan.origin, Event.origin?, hDirective]
    · simp only [List.map_append, close_origins]
      split <;> simp [ActiveSpan.origin, Event.origin?, hDirective]
  · rename_i hDirective
    split <;> simp [close_origins, Event.origin?, hDirective]

theorem foldl_record (t : MacroTable) (es : List Event) :
    (es.foldl record t).events = t.events ++ es
      ∧ (es.foldl record t).spans.map ActiveSpan.origin =
          t.spans.map ActiveSpan.origin ++ es.filterMap Event.origin? := by
  induction es generalizing t with
  | nil => simp
  | cons e es ih =>
      rw [List.foldl_cons]
      obtain ⟨hEvents, hOrigins⟩ := ih (t.record e)
      rw [hEvents, hOrigins, record_events, record_origins]
      cases h : e.origin? <;> simp [h]

@[simp]
theorem ofEvents_events : (ofEvents es).events = es := by
  simpa [ofEvents] using (foldl_record {} es).1

theorem ofEvents_origins :
    (ofEvents es).spans.map ActiveSpan.origin = es.filterMap Event.origin? := by
  simpa [ofEvents] using (foldl_record {} es).2

theorem mem_definitions {s : ActiveSpan} :
    s ∈ t.definitions name ↔ s ∈ t.spans ∧ s.definition.name = name := by
  simp [definitions]

theorem mem_history : e ∈ t.history name ↔ e ∈ t.events ∧ e.directive.name = name := by
  simp [history]

theorem mem_liveDefinitions : d ∈ t.liveDefinitions name ↔
    ∃ e ∈ t.history name, e.directive = .define d ∧ e.reachability ≠ .disabled := by
  simp only [liveDefinitions, List.mem_filterMap]
  refine exists_congr fun e => and_congr_right fun _ => ?_
  split
  · rename_i other hDirective
    simp only [hDirective, Directive.define.injEq]
    split
    · simp_all
    · simp_all
  · rename_i hDirective
    simp [hDirective]

/-- The live definitions of a name are those in directives outside disabled branches. -/
theorem mem_liveDefinitions_ofEvents : d ∈ (ofEvents es).liveDefinitions name ↔
    ∃ e ∈ es, e.directive = .define d ∧ d.name = name ∧ e.reachability ≠ .disabled := by
  rw [mem_liveDefinitions]
  constructor
  · rintro ⟨e, he, hDefine, hLive⟩
    obtain ⟨hMem, hName⟩ := mem_history.mp he
    rw [ofEvents_events] at hMem
    rw [hDefine] at hName
    exact ⟨e, hMem, hDefine, hName, hLive⟩
  · rintro ⟨e, he, hDefine, hName, hLive⟩
    refine ⟨e, mem_history.mpr ⟨?_, ?_⟩, hDefine, hLive⟩
    · rwa [ofEvents_events]
    · rw [hDefine]
      exact hName

/-- A directive that defines a macro opens a span. -/
theorem exists_span_of_event (he : e ∈ es) (hDefine : e.directive = .define d) :
    ∃ s ∈ (ofEvents es).definitions d.name, s.definition = d ∧ s.position = e.position
      ∧ s.reachability = e.reachability := by
  have hMem : (d, e.position, e.reachability) ∈ (ofEvents es).spans.map ActiveSpan.origin := by
    rw [ofEvents_origins]
    exact List.mem_filterMap.mpr ⟨e, he, by simp [Event.origin?, hDefine]⟩
  obtain ⟨s, hs, hOrigin⟩ := List.mem_map.mp hMem
  simp only [ActiveSpan.origin, Prod.mk.injEq] at hOrigin
  exact ⟨s, mem_definitions.mpr ⟨hs, by rw [hOrigin.1]⟩, hOrigin⟩

/-- A span was opened by a directive that defines a macro. -/
theorem exists_event_of_span {s : ActiveSpan} (hs : s ∈ (ofEvents es).spans) :
    ∃ e ∈ es, e.directive = .define s.definition ∧ e.position = s.position
      ∧ e.reachability = s.reachability := by
  have hMem := List.mem_map_of_mem (f := ActiveSpan.origin) hs
  rw [ofEvents_origins] at hMem
  obtain ⟨e, he, hOrigin⟩ := List.mem_filterMap.mp hMem
  unfold Event.origin? at hOrigin
  split at hOrigin
  · rename_i d hDirective
    simp only [ActiveSpan.origin, Option.some.injEq, Prod.mk.injEq] at hOrigin
    exact ⟨e, he, hOrigin.1 ▸ hDirective, hOrigin.2⟩
  · cases hOrigin

/-- The spans of a name outside disabled branches are those of its live definitions. -/
theorem mem_liveDefinitions_iff_exists_span : d ∈ (ofEvents es).liveDefinitions name ↔
    ∃ s ∈ (ofEvents es).definitions name, s.definition = d ∧ s.reachability ≠ .disabled := by
  constructor
  · intro h
    obtain ⟨e, hEvent, hDirective, hName, hLive⟩ := mem_liveDefinitions_ofEvents.mp h
    obtain ⟨s, hs, hDefinition, -, hReach⟩ := exists_span_of_event hEvent hDirective
    exact ⟨s, hName ▸ hs, hDefinition, hReach ▸ hLive⟩
  · rintro ⟨s, hs, rfl, hLive⟩
    obtain ⟨hs, hName⟩ := mem_definitions.mp hs
    obtain ⟨e, he, hDirective, -, hReach⟩ := exists_event_of_span hs
    exact mem_liveDefinitions_ofEvents.mpr ⟨e, he, hDirective, hName, hReach ▸ hLive⟩

/-- The spans of a name come in the order of their directives. -/
theorem definitions_pairwise (t : MacroTable) (name : String) :
    (t.definitions name).Pairwise (·.position ≤ ·.position) := by
  have hSorted := Sorting.sort_pairwise (fun a b : ActiveSpan => decide (a.position ≤ b.position))
    (fun a b => by simpa using Nat.le_total a.position b.position)
    (fun a b c => by simpa using Nat.le_trans) (t.spans.filter (·.definition.name == name))
  exact hSorted.imp of_decide_eq_true

/-- All live definitions of a name that is not ambiguous are alike. -/
theorem signature_eq_of_not_isAmbiguous (h : t.isAmbiguous name = false) {d d' : Definition}
    (hd : d ∈ t.liveDefinitions name) (hd' : d' ∈ t.liveDefinitions name) :
    d.signature = d'.signature := by
  unfold isAmbiguous at h
  split at h
  · rename_i hNone
    rw [hNone] at hd
    cases hd
  · rename_i first others hSome
    rw [hSome] at hd hd'
    have hFirst : ∀ x ∈ first :: others, x.signature = first.signature := by
      intro x hx
      rcases List.mem_cons.mp hx with rfl | hx
      · rfl
      · simpa using (List.any_eq_false.mp h x hx)
    exact (hFirst d hd).trans (hFirst d' hd').symm

private theorem exists_mem_firstEvents (seen : List String) :
    (∃ e ∈ firstEvents seen es, e.directive.name = name) ↔
      name ∉ seen ∧ ∃ e ∈ es, e.directive.name = name := by
  induction es generalizing seen with
  | nil => simp [firstEvents]
  | cons e es ih =>
      unfold firstEvents
      split
      · rename_i hSeen
        rw [ih]
        refine and_congr_right fun hName => ?_
        have hOther : e.directive.name ≠ name := by
          rintro rfl
          exact hName (by simpa using hSeen)
        simp [hOther]
      · rename_i hSeen
        simp only [List.mem_cons, exists_eq_or_imp, ih, not_or]
        by_cases hName : e.directive.name = name
        · subst hName
          simpa using hSeen
        · simp [hName, Ne.symm hName]

/-- The names of a table are those that some directive defines, disabled or not. -/
theorem mem_names : name ∈ t.names ↔
    ∃ e ∈ t.events, e.directive.name = name ∧ e.directive.isDefine = true := by
  simp only [names, List.mem_map, Sorting.mem_sort, List.mem_filter, List.any_eq_true, mem_history]
  constructor
  · rintro ⟨e, ⟨-, other, ⟨hMem, hName⟩, hDefine⟩, rfl⟩
    exact ⟨other, hMem, hName, hDefine⟩
  · rintro ⟨e, hMem, hName, hDefine⟩
    obtain ⟨first, hFirst, hFirstName⟩ :=
      (exists_mem_firstEvents []).mpr ⟨List.not_mem_nil, e, hMem, hName⟩
    exact ⟨first, ⟨hFirst, e, ⟨hMem, hName.trans hFirstName.symm⟩, hDefine⟩, hFirstName⟩

private theorem names_firstEvents_nodup (seen : List String) :
    ((firstEvents seen es).map (·.directive.name)).Nodup := by
  induction es generalizing seen with
  | nil => exact .nil
  | cons e es ih =>
      unfold firstEvents
      split
      · exact ih seen
      · refine List.nodup_cons.mpr ⟨fun hMem => ?_, ih _⟩
        obtain ⟨other, hOther, hName⟩ := List.mem_map.mp hMem
        exact ((exists_mem_firstEvents _).mp ⟨other, hOther, hName⟩).1 List.mem_cons_self

/-- A table lists each name once. -/
theorem names_nodup (t : MacroTable) : t.names.Nodup := by
  have hDefined : (((firstEvents [] t.events).filter fun e =>
      (t.history e.directive.name).any (·.directive.isDefine)).map (·.directive.name)).Nodup :=
    (names_firstEvents_nodup []).sublist (List.filter_sublist.map _)
  exact ((Sorting.sort_perm _).map _).nodup_iff.mpr hDefined

theorem contains_of_mem_names (h : name ∈ t.names) : t.contains name = true := by
  obtain ⟨e, hMem, hName, -⟩ := mem_names.mp h
  simp only [contains, List.any_eq_true]
  exact ⟨e, hMem, by simpa using hName⟩

theorem mem_names_of_mem_liveDefinitions (h : d ∈ t.liveDefinitions name) : name ∈ t.names := by
  obtain ⟨e, he, hDirective, -⟩ := mem_liveDefinitions.mp h
  obtain ⟨hMem, hName⟩ := mem_history.mp he
  exact mem_names.mpr ⟨e, hMem, hName, by rw [hDirective]; rfl⟩

end MacroTable

end Demacro
