import Demacro.Proofs.MacroTable
import Demacro.Proofs.Unit

/-!
What a macro name means at a position: what the last live directive about it in front of the
position says. The spans of the table of a sequence of directives are those between a definition and
the next live directive about its name, so that looking up a name in the table comes to the same.
-/

namespace Demacro

theorem Directive.exists_of_isDefine {x : Directive} (h : x.isDefine = true) :
    ∃ d, x = .define d := by
  cases x with
  | define d => exact ⟨d, rfl⟩
  | undef name span => cases h

namespace Event

/-- The directive has an effect on the name. -/
def Changes (name : String) (e : Event) : Prop :=
  e.directive.name = name ∧ e.reachability ≠ .disabled

instance (name : String) (e : Event) : Decidable (e.Changes name) :=
  inferInstanceAs (Decidable (_ ∧ _))

/-- The directive is the last one in front of the position that changes the name. -/
structure Decides (es : List Event) (name : String) (position : Nat) (e : Event) : Prop where
  mem : e ∈ es
  changes : e.Changes name
  before : e.position < position
  last : ∀ other ∈ es, other.Changes name → other.position < position → other.position ≤ e.position

/-- The directive is the first one behind the position that changes the name. -/
structure Ends (es : List Event) (name : String) (position : Nat) (e : Event) : Prop where
  mem : e ∈ es
  changes : e.Changes name
  behind : position < e.position
  first : ∀ other ∈ es, other.Changes name → position < other.position → e.position ≤ other.position

/-- The directives stand one behind the other. -/
structure InOrder (es : List Event) : Prop where
  apart : es.Pairwise fun e e' => e.lastPosition < e'.position
  forward : ∀ e ∈ es, e.position ≤ e.lastPosition

/-- The position is that of no token of a directive about the name. -/
def Outside (es : List Event) (name : String) (position : Nat) : Prop :=
  ∀ e ∈ es, e.directive.name = name → position < e.position ∨ e.lastPosition < position

/-- The first position behind the directive. -/
def behind (e : Event) : Int :=
  (max e.position e.lastPosition : Nat) + 1

/-- The span that a definition opens, if the given directive is the next one that changes its
name. -/
def span (e : Event) (d : Definition) (next : Option Event) : ActiveSpan :=
  if e.reachability = .disabled then ⟨d, e.position, e.reachability, e.behind, some e.behind, none⟩
  else ⟨d, e.position, e.reachability, e.behind, next.map (·.position), next⟩

@[simp]
theorem span_definition (e : Event) (d : Definition) (next : Option Event) :
    (e.span d next).definition = d := by
  unfold span
  split <;> rfl

@[simp]
theorem span_reachability (e : Event) (d : Definition) (next : Option Event) :
    (e.span d next).reachability = e.reachability := by
  unfold span
  split <;> rfl

/-- A definition in a disabled branch is in force nowhere. -/
theorem isActiveAt_span_of_disabled {e : Event} (h : e.reachability = .disabled) (d : Definition)
    (next : Option Event) (position : Int) : (e.span d next).isActiveAt position = false := by
  simp only [span, if_pos h, ActiveSpan.isActiveAt, Option.all_some, Bool.and_eq_false_iff,
    decide_eq_false_iff_not]
  omega

end Event

namespace MacroTable

variable {t : MacroTable} {e o : Event} {es : List Event} {name : String} {d : Definition}
  {s : ActiveSpan}

/-- The next directive that changes the name. -/
def next? (name : String) (es : List Event) : Option Event :=
  es.find? fun e => decide (e.Changes name)

/-- The spans that the definitions of a sequence open, each up to the next change of its name. -/
def spansOf : List Event → List ActiveSpan
  | [] => []
  | e :: es =>
    match e.directive with
    | .define d => e.span d (next? d.name es) :: spansOf es
    | .undef .. => spansOf es

/-- A directive ends an open span whose name it changes. -/
def meet (s : ActiveSpan) (e : Event) : ActiveSpan :=
  if e.Changes s.definition.name then s.close s.definition.name e.position (some e) else s

theorem meet_of_closed (h : s.stop ≠ none) (e : Event) : meet s e = s := by
  unfold meet ActiveSpan.close
  simp [h]

theorem foldl_meet_of_closed (h : s.stop ≠ none) (es : List Event) : es.foldl meet s = s := by
  induction es with
  | nil => rfl
  | cons e es ih => rw [List.foldl_cons, meet_of_closed h, ih]

/-- The span of a definition goes up to the next change of its name. -/
theorem foldl_meet_span (e : Event) (d : Definition) (es : List Event) :
    es.foldl meet (e.span d none) = e.span d (next? d.name es) := by
  by_cases hDisabled : e.reachability = .disabled
  · simp only [Event.span, if_pos hDisabled]
    exact foldl_meet_of_closed (by simp) es
  · induction es with
    | nil => rfl
    | cons o es ih =>
        rw [List.foldl_cons]
        by_cases hChanges : o.Changes d.name
        · have hMeet : meet (e.span d none) o = e.span d (some o) := by
            simp [meet, Event.span, hDisabled, hChanges, ActiveSpan.close]
          have hNext : next? d.name (o :: es) = some o := by
            simp [next?, hChanges]
          rw [hMeet, hNext]
          exact foldl_meet_of_closed (by simp [Event.span, hDisabled]) es
        · have hMeet : meet (e.span d none) o = e.span d none := by
            simp [meet, Event.span, hDisabled, hChanges]
          have hNext : next? d.name (o :: es) = next? d.name es := by
            simp [next?, hChanges]
          rw [hMeet, hNext, ih]

theorem meet_of_disabled (h : e.reachability = .disabled) (s : ActiveSpan) : meet s e = s := by
  simp [meet, Event.Changes, h]

theorem close_eq_meet (h : e.reachability ≠ .disabled) (s : ActiveSpan) :
    s.close e.directive.name e.position (some e) = meet s e := by
  by_cases hName : e.directive.name = s.definition.name
  · rw [meet, if_pos ⟨hName, h⟩, hName]
  · rw [meet, if_neg (fun hChanges => hName hChanges.1), ActiveSpan.close,
      if_neg (fun hOpen => hName hOpen.1.symm)]

/-- Recording a directive ends the open span of its name and opens one for a definition. -/
theorem record_spans (t : MacroTable) (e : Event) :
    (t.record e).spans = t.spans.map (meet · e) ++ spansOf [e] := by
  by_cases hDisabled : e.reachability = .disabled
  · have hMeet : t.spans.map (meet · e) = t.spans := by
      simp [meet_of_disabled hDisabled]
    cases hDirective : e.directive <;>
      simp [record, hDirective, hDisabled, hMeet, spansOf, Event.span, Event.behind]
  · have hMeet : t.spans.map (fun s => s.close e.directive.name e.position (some e))
        = t.spans.map (meet · e) := by
      simp [close_eq_meet hDisabled]
    cases hDirective : e.directive with
    | define d =>
        rw [hDirective] at hMeet
        simp only [record, hDirective, hDisabled, if_false, spansOf, Event.span, Event.behind,
          next?]
        rw [← hMeet]
        split <;> rfl
    | undef name span =>
        rw [hDirective] at hMeet
        simp only [record, hDirective, hDisabled, if_false, spansOf, List.append_nil]
        rw [← hMeet]
        rfl

/-- The spans of the table of a sequence of directives. -/
theorem ofEvents_spans (es : List Event) : (ofEvents es).spans = spansOf es := by
  have hFold : ∀ t : MacroTable, (es.foldl record t).spans = t.spans.map (es.foldl meet)
      ++ spansOf es := by
    induction es with
    | nil => simp [spansOf]
    | cons e es ih =>
        intro t
        rw [List.foldl_cons, ih, record_spans, List.map_append, List.map_map, List.append_assoc]
        congr 1
        simp only [spansOf]
        split
        · simp [foldl_meet_span, next?]
        · simp
  simpa [ofEvents] using hFold {}

/-- Each definition opens a span, up to the next change among the directives behind it. -/
theorem mem_spansOf : s ∈ spansOf es ↔ ∃ before e after d, es = before ++ e :: after
    ∧ e.directive = .define d ∧ s = e.span d (next? d.name after) := by
  induction es with
  | nil => simp [spansOf]
  | cons e es ih =>
      constructor
      · intro h
        unfold spansOf at h
        split at h
        · rename_i d hDefine
          rcases List.mem_cons.mp h with rfl | h
          · exact ⟨[], e, es, d, rfl, hDefine, rfl⟩
          · obtain ⟨before, o, after, d', rfl, hDefine', rfl⟩ := ih.mp h
            exact ⟨e :: before, o, after, d', rfl, hDefine', rfl⟩
        · obtain ⟨before, o, after, d', rfl, hDefine', rfl⟩ := ih.mp h
          exact ⟨e :: before, o, after, d', rfl, hDefine', rfl⟩
      · rintro ⟨before, o, after, d, hSplit, hDefine, rfl⟩
        cases before with
        | nil =>
            cases hSplit
            simp [spansOf, hDefine]
        | cons x before =>
            cases hSplit
            have hMem := ih.mpr ⟨before, o, after, d, rfl, hDefine, rfl⟩
            unfold spansOf
            split
            · exact List.mem_cons_of_mem _ hMem
            · exact hMem

/-- Directives that stand one behind the other come in the order of their positions. -/
theorem positions_of_inOrder (h : Event.InOrder es) : es.Pairwise (·.position < ·.position) := by
  apply h.apart.imp_of_mem
  intro e e' he _ hApart
  exact Nat.lt_of_le_of_lt (h.forward e he) hApart

/-- The first change in a row of directives is the one with the least position. -/
theorem next?_eq_some_iff (h : es.Pairwise (·.position < ·.position)) : next? name es = some e ↔
    e ∈ es ∧ e.Changes name ∧ ∀ o ∈ es, o.Changes name → e.position ≤ o.position := by
  induction es with
  | nil => simp [next?]
  | cons x es ih =>
      rw [List.pairwise_cons] at h
      obtain ⟨hLess, hRest⟩ := h
      by_cases hChanges : x.Changes name
      · have hNext : next? name (x :: es) = some x := by
          simp [next?, hChanges]
        rw [hNext, Option.some.injEq]
        constructor
        · rintro rfl
          refine ⟨List.mem_cons_self, hChanges, fun o ho _ => ?_⟩
          rcases List.mem_cons.mp ho with rfl | ho
          · exact Nat.le_refl _
          · exact Nat.le_of_lt (hLess o ho)
        · rintro ⟨hMem, -, hFirst⟩
          rcases List.mem_cons.mp hMem with rfl | hMem
          · rfl
          · have hLater := hLess e hMem
            have hEarlier := hFirst x List.mem_cons_self hChanges
            omega
      · have hNext : next? name (x :: es) = next? name es := by
          simp [next?, hChanges]
        rw [hNext, ih hRest, List.mem_cons]
        constructor
        · rintro ⟨hMem, hEvent, hFirst⟩
          refine ⟨.inr hMem, hEvent, fun o ho hOther => ?_⟩
          rcases List.mem_cons.mp ho with rfl | ho
          · exact absurd hOther hChanges
          · exact hFirst o ho hOther
        · rintro ⟨hMem | hMem, hEvent, hFirst⟩
          · exact absurd (hMem ▸ hEvent) hChanges
          · exact ⟨hMem, hEvent, fun o ho => hFirst o (List.mem_cons_of_mem x ho)⟩

/-- The next change among the directives behind one is the first one behind its position. -/
theorem next?_behind {before after : List Event} (h : es.Pairwise (·.position < ·.position))
    (hEvents : es = before ++ e :: after) :
    next? name after = some o ↔ Event.Ends es name e.position o := by
  subst hEvents
  rw [List.pairwise_append, List.pairwise_cons] at h
  obtain ⟨-, ⟨hBehind, hAfter⟩, hBefore⟩ := h
  have hMem : ∀ x, x ∈ after ↔ x ∈ before ++ e :: after ∧ e.position < x.position := by
    intro x
    simp only [List.mem_append, List.mem_cons]
    constructor
    · intro hx
      exact ⟨.inr (.inr hx), hBehind x hx⟩
    · rintro ⟨hx | rfl | hx, hPosition⟩
      · exact absurd (hBefore x hx e List.mem_cons_self) (Nat.not_lt_of_lt hPosition)
      · exact absurd hPosition (Nat.lt_irrefl _)
      · exact hx
  rw [next?_eq_some_iff hAfter]
  constructor
  · rintro ⟨ho, hChanges, hFirst⟩
    obtain ⟨ho, hPosition⟩ := (hMem o).mp ho
    exact ⟨ho, hChanges, hPosition, fun x hx hOther hx' => hFirst x ((hMem x).mpr ⟨hx, hx'⟩) hOther⟩
  · rintro ⟨ho, hChanges, hPosition, hFirst⟩
    refine ⟨(hMem o).mpr ⟨ho, hPosition⟩, hChanges, fun x hx hOther => ?_⟩
    obtain ⟨hx, hPosition'⟩ := (hMem x).mp hx
    exact hFirst x hx hOther hPosition'

/-- Each definition opens a span, which goes up to the next change of its name. -/
theorem exists_span_of_mem (h : es.Pairwise (·.position < ·.position)) (he : e ∈ es)
    (hDefine : e.directive = .define d) : ∃ next, e.span d next ∈ (ofEvents es).definitions d.name
      ∧ ∀ o, next = some o ↔ Event.Ends es d.name e.position o := by
  obtain ⟨before, after, hEvents⟩ := List.append_of_mem he
  refine ⟨next? d.name after, mem_definitions.mpr ⟨?_, ?_⟩, fun o => next?_behind h hEvents⟩
  · rw [ofEvents_spans, mem_spansOf]
    exact ⟨before, e, after, d, hEvents, hDefine, rfl⟩
  · rw [Event.span_definition]

/-- Each span goes from a definition up to the next change of its name. -/
theorem exists_event_of_mem_definitions (h : es.Pairwise (·.position < ·.position))
    (hs : s ∈ (ofEvents es).definitions name) :
    ∃ e ∈ es, ∃ d next, e.directive = .define d ∧ d.name = name
      ∧ s = e.span d next ∧ ∀ o, next = some o ↔ Event.Ends es name e.position o := by
  obtain ⟨hs, hName⟩ := mem_definitions.mp hs
  rw [ofEvents_spans, mem_spansOf] at hs
  obtain ⟨before, e, after, d, hEvents, hDefine, rfl⟩ := hs
  rw [Event.span_definition] at hName
  subst hName
  exact ⟨e, by simp [hEvents], d, _, hDefine, rfl, rfl, fun o => next?_behind h hEvents⟩

/-- The next change behind a definition is the one that the definition decides for. -/
theorem ends_iff_decides (ho : o ∈ es) (hChanges : o.Changes name) (he : e ∈ es)
    (hOther : e.Changes name) :
    Event.Ends es name o.position e ↔ Event.Decides es name e.position o := by
  constructor
  · intro h
    refine ⟨ho, hChanges, h.behind, fun x hx hxChanges hBefore => ?_⟩
    by_contra hLater
    have hFirst := h.first x hx hxChanges (Nat.lt_of_not_le hLater)
    omega
  · intro h
    refine ⟨he, hOther, h.before, fun x hx hxChanges hBehind => ?_⟩
    by_contra hEarlier
    have hLast := h.last x hx hxChanges (Nat.lt_of_not_le hEarlier)
    omega

/-- A directive ends a span of its name exactly if a definition is in force in front of it. -/
theorem exists_closedBy_iff (h : es.Pairwise (·.position < ·.position)) (he : e ∈ es)
    (hChanges : e.Changes name) : (∃ s ∈ (ofEvents es).definitions name, s.closedBy = some e)
      ↔ ∃ o, Event.Decides es name e.position o ∧ o.directive.isDefine = true := by
  constructor
  · rintro ⟨s, hs, hClosed⟩
    obtain ⟨o, ho, d, next, hDefine, rfl, rfl, hNext⟩ := exists_event_of_mem_definitions h hs
    unfold Event.span at hClosed
    split at hClosed
    · cases hClosed
    · rename_i hLive
      have hDefines : o.Changes d.name := ⟨by rw [hDefine]; rfl, hLive⟩
      refine ⟨o, ?_, by rw [hDefine]; rfl⟩
      exact (ends_iff_decides ho hDefines he hChanges).mp ((hNext e).mp hClosed)
  · rintro ⟨o, hDecides, hDefines⟩
    obtain ⟨d, hDefine⟩ := Directive.exists_of_isDefine hDefines
    obtain rfl : d.name = name := by
      rw [← hDecides.changes.1, hDefine]
      rfl
    obtain ⟨next, hs, hNext⟩ := exists_span_of_mem h hDecides.mem hDefine
    refine ⟨_, hs, ?_⟩
    rw [Event.span, if_neg hDecides.changes.2]
    exact (hNext e).mpr ((ends_iff_decides hDecides.mem hDecides.changes he hChanges).mpr hDecides)

/-- Behind a position there is a first change of a name if there is one at all. -/
theorem exists_ends {position : Nat} (ho : o ∈ es) (hChanges : o.Changes name)
    (hBehind : position < o.position) : ∃ e, Event.Ends es name position e := by
  induction hPosition : o.position using Nat.strongRecOn generalizing o with
  | ind n ih =>
      by_cases hFirst : ∀ x ∈ es, x.Changes name → position < x.position → o.position ≤ x.position
      · exact ⟨o, ho, hChanges, hBehind, hFirst⟩
      · simp only [not_forall] at hFirst
        obtain ⟨x, hx, hxChanges, hxBehind, hLess⟩ := hFirst
        exact ih x.position (by omega) hx hxChanges hxBehind rfl

/-- A span holds a position exactly if its definition decides there. -/
theorem isActiveAt_span_iff {position : Nat} {next : Option Event} (h : Event.InOrder es)
    (hOutside : Event.Outside es name position) (he : e ∈ es) (hName : e.directive.name = name)
    (hNext : ∀ o, next = some o ↔ Event.Ends es name e.position o) :
    (e.span d next).isActiveAt position = true ↔ Event.Decides es name position e := by
  by_cases hDisabled : e.reachability = .disabled
  · rw [Event.isActiveAt_span_of_disabled hDisabled]
    exact iff_of_false Bool.false_ne_true fun hDecides => hDecides.changes.2 hDisabled
  have hForward := h.forward e he
  constructor
  · intro hActive
    simp only [Event.span, if_neg hDisabled, Event.behind, ActiveSpan.isActiveAt, Bool.and_eq_true,
      decide_eq_true_eq] at hActive
    obtain ⟨hStart, hStop⟩ := hActive
    refine ⟨he, ⟨hName, hDisabled⟩, by omega, fun x hx hChanges hBefore => ?_⟩
    by_contra hLater
    obtain ⟨o, hEnds⟩ := exists_ends hx hChanges (Nat.lt_of_not_le hLater)
    have hFirst := hEnds.first x hx hChanges (Nat.lt_of_not_le hLater)
    rw [(hNext o).mpr hEnds] at hStop
    simp only [Option.map_some, Option.all_some, decide_eq_true_eq] at hStop
    omega
  · intro hDecides
    have hBehind : e.lastPosition < position := by
      rcases hOutside e he hName with hFront | hBehind
      · exact absurd hDecides.before (Nat.not_lt_of_lt hFront)
      · exact hBehind
    simp only [Event.span, if_neg hDisabled, Event.behind, ActiveSpan.isActiveAt, Bool.and_eq_true,
      decide_eq_true_eq]
    refine ⟨by omega, ?_⟩
    cases next with
    | none => rfl
    | some o =>
        have hEnds := (hNext o).mp rfl
        have hLater : ¬ o.position < position := by
          intro hBefore
          have hLast := hDecides.last o hEnds.mem hEnds.changes hBefore
          exact absurd hEnds.behind (Nat.not_lt_of_le hLast)
        have hEvent := h.forward o hEnds.mem
        simp only [Option.map_some, Option.all_some, decide_eq_true_eq]
        rcases hOutside o hEnds.mem hEnds.changes.1 with hFront | hBack <;> omega

/-- A definition that is in force somewhere is live. -/
theorem mem_liveDefinitions_of_activeAt? {position : Int}
    (h : es.Pairwise (·.position < ·.position))
    (hs : (ofEvents es).activeAt? name position = some s) :
    s.definition ∈ (ofEvents es).liveDefinitions name := by
  have hMem := List.mem_of_find?_eq_some hs
  refine mem_liveDefinitions_iff_exists_span.mpr ⟨s, hMem, rfl, fun hDisabled => ?_⟩
  obtain ⟨e, -, d, next, -, -, rfl, -⟩ := exists_event_of_mem_definitions h hMem
  rw [Event.span_reachability] at hDisabled
  have hActive := List.find?_some hs
  rw [Event.isActiveAt_span_of_disabled hDisabled] at hActive
  cases hActive

/-- One directive decides at a position. -/
theorem eq_of_decides {position : Nat} (h : es.Pairwise (·.position < ·.position))
    (hDecides : Event.Decides es name position e) (hOther : Event.Decides es name position o) :
    e = o := by
  have hLast := hDecides.last o hOther.mem hOther.changes hOther.before
  have hOtherLast := hOther.last e hDecides.mem hDecides.changes hDecides.before
  by_contra hNe
  rcases h.or_of_ne hDecides.mem hOther.mem hNe with hLess | hLess <;> omega

/-- The table gives a definition for a name at a position exactly if it decides there. -/
theorem activeAt?_iff {position : Nat} (h : Event.InOrder es)
    (hOutside : Event.Outside es name position) :
    (∃ s, (ofEvents es).activeAt? name position = some s ∧ s.definition = d)
      ↔ ∃ e, Event.Decides es name position e ∧ e.directive = .define d := by
  have hPositions := positions_of_inOrder h
  -- What is found is a span of the directive that decides.
  have hFound : ∀ s, (ofEvents es).activeAt? name position = some s →
      ∃ e, Event.Decides es name position e ∧ e.directive = .define s.definition := by
    intro s hs
    obtain ⟨e, he, d, next, hDefine, hName, rfl, hNext⟩ :=
      exists_event_of_mem_definitions hPositions (List.mem_of_find?_eq_some hs)
    have hActive := List.find?_some hs
    refine ⟨e, (isActiveAt_span_iff h hOutside he (by rw [hDefine]; exact hName) hNext).mp hActive,
      ?_⟩
    rw [hDefine, Event.span_definition]
  constructor
  · rintro ⟨s, hs, rfl⟩
    exact hFound s hs
  · rintro ⟨e, hDecides, hDefine⟩
    obtain rfl : d.name = name := by
      rw [← hDecides.changes.1, hDefine]
      rfl
    obtain ⟨next, hMem, hNext⟩ := exists_span_of_mem hPositions hDecides.mem hDefine
    have hActive :=
      (isActiveAt_span_iff (d := d) h hOutside hDecides.mem hDecides.changes.1 hNext).mpr hDecides
    have hSome : ((ofEvents es).activeAt? d.name position).isSome = true :=
      List.find?_isSome.mpr ⟨_, hMem, hActive⟩
    obtain ⟨s, hs⟩ := Option.isSome_iff_exists.mp hSome
    obtain ⟨o, hOther, hOtherDefine⟩ := hFound s hs
    obtain rfl := eq_of_decides hPositions hDecides hOther
    rw [hDefine, Directive.define.injEq] at hOtherDefine
    exact ⟨s, hs, hOtherDefine.symm⟩

end MacroTable

namespace CompilationUnit

variable {u : CompilationUnit}

/-- The macro directives of a unit stand one behind the other. -/
theorem events_inOrder (u : CompilationUnit) : Event.InOrder u.events := by
  constructor
  · apply List.Pairwise.filterMap _ _ (numbered_pairwise 0 u.lines)
    intro l l' hLess e he e' he'
    dsimp only at he he'
    split at he
    · split at he'
      · cases he
        cases he'
        exact hLess
      · cases he'
    · cases he
  · intro e he
    obtain ⟨l, -, _, _, -, hPosition, hLast, -⟩ := exists_line_of_mem_events he
    omega

/-- Code stands outside the macro directives. -/
theorem outside_of_mem_codeTokens {t : PlacedToken} (ht : t ∈ u.codeTokens) (name : String) :
    Event.Outside u.events name t.position := by
  intro e he _
  obtain ⟨l, hl, hCode, hFrom, hTo⟩ := exists_line_of_mem_codeTokens ht
  obtain ⟨l', hl', _, _, hRole, hPosition, hLast, -⟩ := exists_line_of_mem_events he
  have hNe : l ≠ l' := by
    rintro rfl
    rw [hCode] at hRole
    cases hRole
  have hApart := apart_of_mem_placedLines hl hl' hNe
  omega

end CompilationUnit

end Demacro
