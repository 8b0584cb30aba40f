import Demacro.Proofs.InForce

/-!
Looking up a name in the table of a sequence of directives. At every position, also at one inside a
directive, the table gives what the last live directive about the name up to there says: the
definition it opens, if it is a definition that has ended in front of the position, and nothing
otherwise.
-/

namespace Demacro

namespace Event

/-- The directive is the last one up to the position that changes the name. -/
structure Governs (es : List Event) (name : String) (position : Int) (e : Event) : Prop where
  mem : e ∈ es
  changes : e.Changes name
  reached : e.position ≤ position
  last : ∀ other ∈ es, other.Changes name → other.position ≤ position → other.position ≤ e.position

/-- The span is the one that a live definition opens: it holds from behind the directive up to the
next directive that changes the name. -/
structure Opens (es : List Event) (e : Event) (s : ActiveSpan) : Prop where
  define : e.directive = .define s.definition
  live : e.reachability ≠ .disabled
  position : s.position = e.position
  reachability : s.reachability = e.reachability
  start : s.start = e.lastPosition + 1
  closedBy : ∀ o, s.closedBy = some o ↔ Ends es s.definition.name e.position o
  stop : s.stop = s.closedBy.map fun e => (e.position : Int)

variable {es : List Event} {e o : Event} {name : String} {position : Int} {s s' : ActiveSpan}

namespace Opens

theorem changes (h : Opens es e s) : e.Changes s.definition.name :=
  ⟨by rw [h.define]; rfl, h.live⟩

/-- A directive opens one span. -/
theorem eq (h : Opens es e s) (h' : Opens es e s') : s = s' := by
  have hDefinition : s.definition = s'.definition := by
    simpa [h.define] using h'.define
  have hClosedBy : s.closedBy = s'.closedBy :=
    Option.ext fun o => by rw [h.closedBy, h'.closedBy, hDefinition]
  have hStop : s.stop = s'.stop := by
    rw [h.stop, h'.stop, hClosedBy]
  have hStart := h.start.trans h'.start.symm
  have hPosition := h.position.trans h'.position.symm
  have hReachability := h.reachability.trans h'.reachability.symm
  cases s
  cases s'
  simp_all

/-- A span holds exactly the positions behind its directive that the directive governs. -/
theorem isActiveAt_iff (h : Opens es e s) (hOrder : InOrder es) (he : e ∈ es) :
    s.isActiveAt position = true
      ↔ Governs es s.definition.name position e ∧ e.lastPosition < position := by
  have hForward := hOrder.forward e he
  simp only [ActiveSpan.isActiveAt, h.start, h.stop, Bool.and_eq_true, decide_eq_true_eq]
  constructor
  · rintro ⟨hStart, hStop⟩
    refine ⟨⟨he, h.changes, by omega, fun other hOther hChanges hReached => ?_⟩, by omega⟩
    -- A later change would have closed the span in front of the position.
    by_contra hLater
    obtain ⟨next, hEnds⟩ := MacroTable.exists_ends hOther hChanges (Nat.lt_of_not_le hLater)
    have hFirst := hEnds.first other hOther hChanges (Nat.lt_of_not_le hLater)
    rw [(h.closedBy next).mpr hEnds] at hStop
    simp only [Option.map_some, Option.all_some, decide_eq_true_eq] at hStop
    omega
  · rintro ⟨hGoverns, hBehind⟩
    refine ⟨by omega, ?_⟩
    cases hNext : s.closedBy with
    | none => rfl
    | some next =>
        have hEnds := (h.closedBy next).mp hNext
        simp only [Option.map_some, Option.all_some, decide_eq_true_eq]
        by_contra hReached
        have hLast := hGoverns.last next hEnds.mem hEnds.changes (by omega)
        exact absurd hEnds.behind (Nat.not_lt_of_le hLast)

end Opens

/-- One directive governs a position. -/
theorem Governs.eq (hOrder : InOrder es) (h : Governs es name position e)
    (h' : Governs es name position o) : e = o := by
  have hLast := h.last o h'.mem h'.changes h'.reached
  have hLast' := h'.last e h.mem h.changes h.reached
  by_contra hNe
  rcases (MacroTable.positions_of_inOrder hOrder).or_of_ne h.mem h'.mem hNe with hLess | hLess
    <;> omega

/-- The directives that have an effect at all. -/
def live (es : List Event) : List Event :=
  es.filter fun e => e.reachability ≠ .disabled

theorem mem_live_of_changes (hChanges : e.Changes name) : e ∈ live es ↔ e ∈ es := by
  simp [live, hChanges.2]

theorem InOrder.live (h : InOrder es) : InOrder (live es) :=
  ⟨h.apart.filter _, fun e he => h.forward e (List.mem_of_mem_filter he)⟩

theorem governs_live : Governs (live es) name position e ↔ Governs es name position e := by
  constructor
  · rintro ⟨hMem, hChanges, hReached, hLast⟩
    refine ⟨(mem_live_of_changes hChanges).mp hMem, hChanges, hReached, fun o ho hOther => ?_⟩
    exact hLast o ((mem_live_of_changes hOther).mpr ho) hOther
  · rintro ⟨hMem, hChanges, hReached, hLast⟩
    refine ⟨(mem_live_of_changes hChanges).mpr hMem, hChanges, hReached, fun o ho hOther => ?_⟩
    exact hLast o ((mem_live_of_changes hOther).mp ho) hOther

theorem ends_live {place : Nat} : Ends (live es) name place e ↔ Ends es name place e := by
  constructor
  · rintro ⟨hMem, hChanges, hBehind, hFirst⟩
    refine ⟨(mem_live_of_changes hChanges).mp hMem, hChanges, hBehind, fun o ho hOther => ?_⟩
    exact hFirst o ((mem_live_of_changes hOther).mpr ho) hOther
  · rintro ⟨hMem, hChanges, hBehind, hFirst⟩
    refine ⟨(mem_live_of_changes hChanges).mpr hMem, hChanges, hBehind, fun o ho hOther => ?_⟩
    exact hFirst o ((mem_live_of_changes hOther).mp ho) hOther

theorem opens_live : Opens (live es) e s ↔ Opens es e s := by
  constructor
  · rintro ⟨hDefine, hLive, hPosition, hReachability, hStart, hClosedBy, hStop⟩
    exact ⟨hDefine, hLive, hPosition, hReachability, hStart,
      fun o => (hClosedBy o).trans ends_live, hStop⟩
  · rintro ⟨hDefine, hLive, hPosition, hReachability, hStart, hClosedBy, hStop⟩
    exact ⟨hDefine, hLive, hPosition, hReachability, hStart,
      fun o => (hClosedBy o).trans ends_live.symm, hStop⟩

end Event

namespace MacroTable

variable {es : List Event} {e : Event} {name : String} {position : Int} {d : Definition}
  {s s' : ActiveSpan}

theorem opens_span (hOrder : Event.InOrder es) (he : e ∈ es) (hLive : e.reachability ≠ .disabled)
    (hDefine : e.directive = .define d) {next : Option Event}
    (hNext : ∀ o, next = some o ↔ Event.Ends es d.name e.position o) :
    Event.Opens es e (e.span d next) := by
  have hForward := hOrder.forward e he
  simp only [Event.span, if_neg hLive, Event.behind, Nat.max_eq_right hForward]
  exact ⟨hDefine, hLive, rfl, rfl, rfl, hNext, rfl⟩

/-- A live definition opens a span of the table. -/
theorem exists_mem_of_define (hOrder : Event.InOrder es) (he : e ∈ es)
    (hLive : e.reachability ≠ .disabled) (hDefine : e.directive = .define d) :
    ∃ s ∈ (ofEvents es).definitions d.name, Event.Opens es e s := by
  obtain ⟨next, hs, hNext⟩ := exists_span_of_mem (positions_of_inOrder hOrder) he hDefine
  exact ⟨_, hs, opens_span hOrder he hLive hDefine hNext⟩

/-- A span of the table that holds a position was opened by the directive that governs it. -/
theorem exists_governs_of_isActiveAt (hOrder : Event.InOrder es)
    (hs : s ∈ (ofEvents es).definitions name) (hActive : s.isActiveAt position = true) :
    ∃ e, Event.Governs es name position e
      ∧ e.lastPosition < position ∧ Event.Opens es e s := by
  obtain ⟨e, he, d, next, hDefine, rfl, rfl, hNext⟩ :=
    exists_event_of_mem_definitions (positions_of_inOrder hOrder) hs
  have hLive : e.reachability ≠ .disabled := by
    intro hDisabled
    rw [Event.isActiveAt_span_of_disabled hDisabled] at hActive
    cases hActive
  have hOpens := opens_span hOrder he hLive hDefine hNext
  have hGoverns := (hOpens.isActiveAt_iff hOrder he).mp hActive
  rw [Event.span_definition] at hGoverns
  exact ⟨e, hGoverns.1, hGoverns.2, hOpens⟩

/-- Two spans of a name do not hold the same position. -/
theorem eq_of_isActiveAt (hOrder : Event.InOrder es) (hs : s ∈ (ofEvents es).definitions name)
    (hs' : s' ∈ (ofEvents es).definitions name) (hActive : s.isActiveAt position = true)
    (hActive' : s'.isActiveAt position = true) : s = s' := by
  obtain ⟨e, hGoverns, -, hOpens⟩ := exists_governs_of_isActiveAt hOrder hs hActive
  obtain ⟨o, hGoverns', -, hOpens'⟩ := exists_governs_of_isActiveAt hOrder hs' hActive'
  obtain rfl := hGoverns.eq hOrder hGoverns'
  exact hOpens.eq hOpens'

/-- No directive opens two spans. -/
theorem definitions_nodup (hOrder : Event.InOrder es) (name : String) :
    ((ofEvents es).definitions name).Nodup := by
  have hPositions : (es.filterMap Event.origin?).Pairwise (·.2.1 < ·.2.1) := by
    apply List.Pairwise.filterMap _ _ (positions_of_inOrder hOrder)
    intro e e' hLess o ho o' ho'
    unfold Event.origin? at ho ho'
    split at ho <;> split at ho' <;> cases ho <;> cases ho'
    exact hLess
  rw [← ofEvents_origins, List.pairwise_map] at hPositions
  have hNodup : (ofEvents es).spans.Nodup := hPositions.imp fun hLess hEq =>
    absurd (hEq ▸ hLess) (Nat.lt_irrefl _)
  exact (Sorting.sort_perm _).nodup_iff.mpr (hNodup.filter _)

theorem activeAt?_eq_some_iff (hOrder : Event.InOrder es) :
    (ofEvents es).activeAt? name position = some s
    ↔ ∃ e, Event.Governs es name position e ∧ e.lastPosition < position ∧ Event.Opens es e s := by
  constructor
  · intro hs
    have hActive := List.find?_some hs
    exact exists_governs_of_isActiveAt hOrder (List.mem_of_find?_eq_some hs) hActive
  · rintro ⟨e, hGoverns, hBehind, hOpens⟩
    obtain rfl : s.definition.name = name := by
      rw [← hGoverns.changes.1, hOpens.define]
      rfl
    obtain ⟨s', hs', hOpens'⟩ := exists_mem_of_define hOrder hGoverns.mem hOpens.live hOpens.define
    obtain rfl := hOpens.eq hOpens'
    have hActive := (hOpens.isActiveAt_iff hOrder hGoverns.mem).mpr ⟨hGoverns, hBehind⟩
    have hSome : ((ofEvents es).activeAt? s.definition.name position).isSome = true :=
      List.find?_isSome.mpr ⟨s, hs', hActive⟩
    obtain ⟨found, hFound⟩ := Option.isSome_iff_exists.mp hSome
    have hFoundActive := List.find?_some hFound
    rw [hFound, eq_of_isActiveAt hOrder hs' (List.mem_of_find?_eq_some hFound) hActive hFoundActive]

private theorem length_le_one_of_nodup {α : Type} {l : List α} (h : l.Nodup)
    (hAlike : ∀ a ∈ l, ∀ b ∈ l, a = b) : l.length ≤ 1 := by
  match l with
  | [] => simp
  | [_] => simp
  | a :: b :: rest =>
      have hEq := hAlike a List.mem_cons_self b (List.mem_cons_of_mem _ List.mem_cons_self)
      exact absurd (hEq ▸ List.mem_cons_self) (List.nodup_cons.mp h).1

/-- What a table says about a name at a position. -/
structure ReadsOff (es : List Event) (name : String) (position : Int) : Prop where
  /-- The table gives the definition that the last live directive up to the position opens, if the
  directive has ended in front of the position. -/
  found : ∀ s, (ofEvents es).activeAt? name position = some s
    ↔ ∃ e, Event.Governs es name position e ∧ e.lastPosition < position ∧ Event.Opens es e s
  once : (((ofEvents es).definitions name).filter (·.isActiveAt position)).length ≤ 1
  /-- The table without the directives in disabled branches gives the same. -/
  disabled : (ofEvents (Event.live es)).activeAt? name position = (ofEvents es).activeAt? name
    position

/-- At every position a table gives for every name what the last live directive about it says. -/
theorem readsOff_of_inOrder (h : Event.InOrder es) (name : String) (position : Int) :
    ReadsOff es name position := by
  constructor
  case found =>
    exact fun s => activeAt?_eq_some_iff h
  case once =>
    have hNodup := (definitions_nodup h name).filter (·.isActiveAt position)
    have hAlike : ∀ s ∈ ((ofEvents es).definitions name).filter (·.isActiveAt position),
        ∀ s' ∈ ((ofEvents es).definitions name).filter (·.isActiveAt position), s = s' := by
      intro s hs s' hs'
      obtain ⟨hs, hActive⟩ := List.mem_filter.mp hs
      obtain ⟨hs', hActive'⟩ := List.mem_filter.mp hs'
      exact eq_of_isActiveAt h hs hs' hActive hActive'
    exact length_le_one_of_nodup hNodup hAlike
  case disabled =>
    refine Option.ext fun s => ?_
    rw [activeAt?_eq_some_iff h.live, activeAt?_eq_some_iff h]
    simp only [Event.governs_live, Event.opens_live]

/-- A line that defines a name, a line in a disabled branch that undefines it, and one that takes
effect. -/
def definedOnce (name : String) : List Event :=
  [⟨.define ⟨name, ⟨"unit.cpp", 0, 13, 1, 1⟩, .object, []⟩, 0, 2, .unconditional⟩,
    ⟨.undef name ⟨"unit.cpp", 20, 32, 3, 1⟩, 6, 8, .disabled⟩,
    ⟨.undef name ⟨"unit.cpp", 40, 52, 5, 1⟩, 12, 14, .unconditional⟩]

/-- The definition is in force behind the line without effect, but not behind the other one. -/
theorem readsOff_definedOnce : Event.InOrder (definedOnce "WIDTH")
    ∧ ((ofEvents (definedOnce "WIDTH")).activeAt? "WIDTH" 10).isSome = true
    ∧ ((ofEvents (definedOnce "WIDTH")).activeAt? "WIDTH" 13).isSome = false
    ∧ ∀ position, ReadsOff (definedOnce "WIDTH") "WIDTH" position := by
  have hOrder : Event.InOrder (definedOnce "WIDTH") := ⟨by decide, by decide⟩
  exact ⟨hOrder, by decide +kernel, by decide +kernel, readsOff_of_inOrder hOrder "WIDTH"⟩

end MacroTable

end Demacro
