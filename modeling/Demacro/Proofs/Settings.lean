import Demacro.Proofs.Success
import Demacro.Settings
import Demacro.Settings.Json
import Mathlib.Data.List.Basic

/-!
What the entries of a settings file do to settings. Each entry by itself asks for a change of one
option, or is rejected, or ends the reading whether strict or not. If none ends it, reading
leniently makes the changes one after another, and reading strictly does the same unless an entry is
rejected.
-/

namespace Demacro.Settings

/-- The values of an option. -/
def Key.Value : Key → Type
  | .preferStringType | .followIncludes => Bool
  | .classConstantStyle => ClassConstantStyle
  | .minimumTier => SafetyTier
  | .functionNaming => FunctionNaming
  | .includeDirectories => List String
  | .companionSuffix => String
  | .maxWorkers => Int

/-- The value of an option. -/
def get (s : Settings) : (k : Key) → k.Value
  | .preferStringType => s.preferStringType
  | .classConstantStyle => s.classConstantStyle
  | .minimumTier => s.minimumTier
  | .functionNaming => s.functionNaming
  | .followIncludes => s.followIncludes
  | .includeDirectories => s.includeDirectories
  | .companionSuffix => s.companionSuffix
  | .maxWorkers => s.maxWorkers

/-- The settings with another value of one option. -/
def put (s : Settings) : (k : Key) → k.Value → Settings
  | .preferStringType, b => { s with preferStringType := b }
  | .classConstantStyle, style => { s with classConstantStyle := style }
  | .minimumTier, tier => { s with minimumTier := tier }
  | .functionNaming, naming => { s with functionNaming := naming }
  | .followIncludes, b => { s with followIncludes := b }
  | .includeDirectories, directories => { s with includeDirectories := directories }
  | .companionSuffix, suffix => { s with companionSuffix := suffix }
  | .maxWorkers, n => { s with maxWorkers := n }

/-- A key with its value. -/
abbrev Entry := SettingValue × SettingValue

/-- An option with the value that it is to have. -/
abbrev Change := (k : Key) × k.Value

/-- The settings after a change. -/
def apply (s : Settings) (c : Change) : Settings :=
  s.put c.1 c.2

/-- The value that an entry has for an option. -/
def Entry.valueFor (e : Entry) : (k : Key) → Except EntryError k.Value
  | .preferStringType | .followIncludes => orReject (bool? e.2) (.notBoolean e.1.plain e.2)
  | .classConstantStyle =>
    orReject (alternative? ClassConstantStyle.spellings ClassConstantStyle.compactSpellings e.2)
      (.unknownStyle e.2)
  | .functionNaming =>
    orReject (alternative? FunctionNaming.spellings FunctionNaming.compactSpellings e.2)
      (.unknownNaming e.2)
  | .minimumTier => orReject (SafetyTier.parse? e.2.plain) (.unknownTier e.2)
  | .includeDirectories => orReject (directories? e.2) .notDirectories
  | .companionSuffix =>
    let suffix := trimmed e.2.plain
    if suffix.toList.head? = some '.' then .ok suffix else .error (.rejected (.badSuffix e.2))
  | .maxWorkers => do
    let n ← workers e.2
    if n < 1 then .error (.rejected (.tooFewWorkers n)) else .ok n

/-- The change that an entry asks for, whatever the settings are. -/
def Entry.change (e : Entry) : Except EntryError Change :=
  if e.1.isShowable then
    match keySpellings.lookup e.1.plain with
    | none => .error (.rejected (.unknownKey e.1))
    | some k =>
      if looksAtText k e.2 && !e.2.isShowable then .error .unshowable
        else (e.valueFor k).map (Sigma.mk k)
  else .error .unshowable

/-- The change, if the entry is accepted. -/
def Entry.change? (e : Entry) : Option Change :=
  e.change.toOption

/-- The reason, if the entry is rejected. -/
def Entry.rejection? (e : Entry) : Option Rejection :=
  match e.change with
  | .error (.rejected reason) => some reason
  | _ => none

/-- The entry ends the reading whether strict or not: an integer in it is to be written out and has
too many digits, or it asks for an infinite number of workers. -/
inductive Entry.Escapes : Entry → Prop where
  | key {key value : SettingValue} (h : key.isShowable = false) : Escapes (key, value)
  | value {key value : SettingValue} {k : Key} (hKey : keySpellings.lookup key.plain = some k)
      (hLooks : looksAtText k value = true) (h : value.isShowable = false) : Escapes (key, value)
  | workers {key : SettingValue} {x : Float} {negative : Bool}
      (hKey : keySpellings.lookup key.plain = some .maxWorkers)
      (h : Binary64.view x = .infinite negative) : Escapes (key, .float x)

variable {s t : Settings} {e : Entry} {es : List Entry} {c : Change} {cs : List Change} {k : Key}
  {n : Int} {reason : Rejection} {error : EntryError}

@[simp]
theorem get_put_self (s : Settings) (k : Key) (v : k.Value) : (s.put k v).get k = v := by
  cases k <;> rfl

theorem get_put_of_ne {other : Key} (h : k ≠ other) (v : k.Value) :
    (s.put k v).get other = s.get other := by
  cases k <;> cases other <;> first | rfl | exact absurd rfl h

theorem map_apply (s : Settings) (k : Key) (found : Except EntryError k.Value) :
    (found.map (Sigma.mk k)).map s.apply = found >>= fun v => pure (s.put k v) := by
  cases found <;> rfl

/-- An entry does the same to all settings. -/
theorem set_eq (s : Settings) (e : Entry) : s.set e.1 e.2 = e.change.map s.apply := by
  obtain ⟨key, value⟩ := e
  unfold set setShowable Entry.change
  cases hKey : key.isShowable with
  | false => simp [Except.map]
  | true =>
      dsimp only
      cases hOption : keySpellings.lookup key.plain with
      | none => simp [Except.map]
      | some k =>
          cases hText : looksAtText k value && !value.isShowable with
          | true => simp [hText, Except.map]
          | false =>
              simp only [Bool.not_true, Option.any_some, hText, Bool.or_self, Bool.false_eq_true,
                if_false, if_true]
              rw [map_apply]
              cases k with
              | companionSuffix =>
                  simp only [Entry.valueFor]
                  split <;> rfl
              | maxWorkers =>
                  simp only [Entry.valueFor]
                  cases workers value with
                  | error error => rfl
                  | ok n =>
                      simp only [bind, Except.bind]
                      split <;> rfl
              | _ => rfl

theorem orReject_eq_error {α : Type} {found : Option α} (h : orReject found reason = .error error) :
    error = .rejected reason := by
  cases found <;> cases h
  rfl

/-- The number of workers is not found without a rejection only if it is infinite. -/
theorem workers_eq_error {value : SettingValue} (h : workers value = .error error) :
    (∃ reason, error = .rejected reason) ∨ ∃ x negative, value = .float x
    ∧ Binary64.view x = .infinite negative := by
  unfold workers at h
  split at h
  · cases h
  · cases h
  · rename_i x
    split at h
    · rename_i negative hView
      exact .inr ⟨x, negative, rfl, hView⟩
    · split at h
      · cases h
      · cases h
        exact .inl ⟨_, rfl⟩
  · split at h
    · cases h
    · cases h
      exact .inl ⟨_, rfl⟩
  · cases h
    exact .inl ⟨_, rfl⟩

theorem Entry.valueFor_eq_error (h : e.valueFor k = .error error) :
    (∃ reason, error = .rejected reason)
      ∨ k = .maxWorkers ∧ ∃ x negative, e.2 = .float x ∧ Binary64.view x = .infinite negative := by
  cases k with
  | companionSuffix =>
      simp only [valueFor] at h
      split at h
      · cases h
      · cases h
        exact .inl ⟨_, rfl⟩
  | maxWorkers =>
      simp only [valueFor] at h
      cases hWorkers : workers e.2 with
      | error other =>
          rw [hWorkers] at h
          cases h
          exact (workers_eq_error hWorkers).imp_right fun hInfinite => ⟨rfl, hInfinite⟩
      | ok n =>
          rw [hWorkers] at h
          simp only [bind, Except.bind] at h
          split at h
          · cases h
            exact .inl ⟨_, rfl⟩
          · cases h
  | _ =>
      simp only [valueFor] at h
      exact .inl ⟨_, orReject_eq_error h⟩

/-- An entry that asks for no change and is not rejected is one that ends the reading. -/
theorem Entry.escapes_iff :
    e.Escapes ↔ ∃ error, e.change = .error error ∧ ∀ reason, error ≠ .rejected reason := by
  obtain ⟨key, value⟩ := e
  constructor
  · intro h
    unfold change
    cases hKey : key.isShowable with
    | false => exact ⟨.unshowable, by simp, by simp⟩
    | true =>
        cases h with
        | key h => simp [hKey] at h
        | value hOption hLooks h => exact ⟨.unshowable, by simp [hOption, hLooks, h], by simp⟩
        | workers hOption h =>
            refine ⟨.infinite, ?_, by simp⟩
            simp [hOption, SettingValue.isShowable, valueFor, Settings.workers, h, bind,
              Except.bind, Except.map]
  · rintro ⟨error, hChange, hNot⟩
    unfold change at hChange
    split at hChange
    · split at hChange
      · cases hChange
        exact absurd rfl (hNot _)
      · rename_i k hOption
        split at hChange
        · rename_i hText
          simp only [Bool.and_eq_true, Bool.not_eq_true'] at hText
          exact .value hOption hText.1 hText.2
        · cases hValue : valueFor (key, value) k with
          | ok v =>
              rw [hValue] at hChange
              cases hChange
          | error other =>
              rw [hValue] at hChange
              cases hChange
              rcases valueFor_eq_error hValue with ⟨reason, rfl⟩ | ⟨rfl, x, negative, rfl, hView⟩
              · exact absurd rfl (hNot reason)
              · exact .workers hOption hView
    · rename_i hKey
      exact .key (by simpa using hKey)

/-- What an entry does: it asks for a change, or it is rejected, or it ends the reading. -/
theorem Entry.change_cases (e : Entry) :
    (∃ c, e.change = .ok c) ∨ (∃ reason, e.change = .error (.rejected reason))
    ∨ e.Escapes := by
  cases hChange : e.change with
  | ok c => exact .inl ⟨c, rfl⟩
  | error error =>
      by_cases h : ∃ reason, error = .rejected reason
      · obtain ⟨reason, rfl⟩ := h
        exact .inr (.inl ⟨reason, rfl⟩)
      · exact .inr (.inr (escapes_iff.mpr ⟨error, hChange, fun reason hSame => h ⟨reason, hSame⟩⟩))

/-- An entry ends the reading exactly if it neither asks for a change nor is rejected. -/
theorem Entry.escapes_iff_eq_none :
    e.Escapes ↔ e.change?.isNone = true ∧ e.rejection?.isNone = true := by
  rw [escapes_iff]
  unfold change? rejection?
  cases e.change with
  | ok c => simp [Except.toOption]
  | error error => cases error <;> simp [Except.toOption]

instance (e : Entry) : Decidable e.Escapes :=
  decidable_of_iff _ Entry.escapes_iff_eq_none.symm

/-- Values that an entry can give to an option. -/
def Key.Allows : (k : Key) → k.Value → Prop
  | .companionSuffix, suffix => suffix.toList.head? = some '.'
  | .maxWorkers, n => (1 : Int) ≤ (n : Int)
  | _, _ => True

/-- An entry gives only allowed values. -/
theorem Entry.allows_of_change (h : e.change = .ok c) : c.1.Allows c.2 := by
  unfold change at h
  split at h
  · split at h
    · cases h
    · rename_i k hOption
      split at h
      · cases h
      · cases hValue : e.valueFor k with
        | error error =>
            rw [hValue] at h
            cases h
        | ok v =>
            rw [hValue] at h
            cases h
            cases k with
            | companionSuffix =>
                simp only [valueFor] at hValue
                split at hValue
                · rename_i hSuffix
                  cases hValue
                  exact hSuffix
                · cases hValue
            | maxWorkers =>
                simp only [valueFor] at hValue
                cases hWorkers : workers e.2 with
                | error error =>
                    rw [hWorkers] at hValue
                    cases hValue
                | ok n =>
                    rw [hWorkers] at hValue
                    simp only [bind, Except.bind] at hValue
                    split at hValue
                    · cases hValue
                    · cases hValue
                      exact Int.not_lt.mp ‹_›
            | _ => trivial
  · cases h

theorem allows_apply (hChange : c.1.Allows c.2) (h : k.Allows (s.get k)) :
    k.Allows ((s.apply c).get k) := by
  by_cases hSame : c.1 = k
  · subst hSame
    rwa [apply, get_put_self]
  · rwa [apply, get_put_of_ne hSame]

/-- Whether the entry is rejected. -/
def Entry.isRejected (e : Entry) : Bool :=
  e.rejection?.isSome

/-- The settings after the changes that entries ask for. -/
def applyAll (s : Settings) (es : List Entry) : Settings :=
  (es.filterMap Entry.change?).foldl apply s

theorem applyAll_cons_of_change (h : e.change = .ok c) :
    s.applyAll (e :: es) = (s.apply c).applyAll es := by
  simp [applyAll, Entry.change?, h, Except.toOption]

theorem applyAll_cons_of_rejected (h : e.change = .error error) :
    s.applyAll (e :: es) = s.applyAll es := by
  simp [applyAll, Entry.change?, h, Except.toOption]

theorem Entry.rejection?_of_change (h : e.change = .ok c) : e.rejection? = none := by
  simp [rejection?, h]

theorem Entry.rejection?_of_rejected (h : e.change = .error (.rejected reason)) :
    e.rejection? = some reason := by
  simp [rejection?, h]

/-- Reading goes on behind an entry with the settings that it leads to, unless it ends there. -/
theorem read_cons (strict : Bool) (s : Settings) (e : Entry) (es : List Entry) :
    read strict s (e :: es) = match e.change with
      | .ok c => read strict (s.apply c) es
      | .error (.rejected reason) =>
        if strict then ([], .error (.rejected reason))
          else ((read strict s es).1.cons reason, (read strict s es).2)
      | .error error => ([], .error error) := by
  rw [read, set_eq]
  cases e.change with
  | ok c => rfl
  | error error => cases error <;> rfl

/-- Reading leniently makes all changes that are asked for and reports all rejections. -/
theorem read_false_eq (s : Settings) (h : ∀ e ∈ es, ¬ e.Escapes) :
    read false s es = (es.filterMap Entry.rejection?, .ok (s.applyAll es)) := by
  induction es generalizing s with
  | nil => rfl
  | cons e es ih =>
      have hRest := fun s => ih s fun e he => h e (List.mem_cons_of_mem _ he)
      rcases e.change_cases with ⟨c, hChange⟩ | ⟨reason, hChange⟩ | hEscapes
      · rw [read_cons, hChange, applyAll_cons_of_change hChange,
          List.filterMap_cons_none (Entry.rejection?_of_change hChange)]
        exact hRest _
      · rw [read_cons, hChange, applyAll_cons_of_rejected hChange,
          List.filterMap_cons_some (Entry.rejection?_of_rejected hChange)]
        simp [hRest s]
      · exact absurd hEscapes (h e List.mem_cons_self)

/-- Reading strictly makes all changes that are asked for, unless there is a rejection: then the
first one is the error. -/
theorem read_true_eq (s : Settings) (h : ∀ e ∈ es, ¬ e.Escapes) :
    (read true s es).2 = match (es.filterMap Entry.rejection?).head? with
      | none => .ok (s.applyAll es)
      | some reason => .error (.rejected reason) := by
  induction es generalizing s with
  | nil => rfl
  | cons e es ih =>
      have hRest := fun s => ih s fun e he => h e (List.mem_cons_of_mem _ he)
      rcases e.change_cases with ⟨c, hChange⟩ | ⟨reason, hChange⟩ | hEscapes
      · rw [read_cons, hChange, applyAll_cons_of_change hChange,
          List.filterMap_cons_none (Entry.rejection?_of_change hChange)]
        exact hRest _
      · rw [read_cons, hChange, List.filterMap_cons_some (Entry.rejection?_of_rejected hChange)]
        rfl
      · exact absurd hEscapes (h e List.mem_cons_self)

/-- If reading leniently ends with settings, no entry ended it before. -/
theorem not_escapes_of_read_false (h : (read false s es).2 = .ok t) : ∀ e ∈ es, ¬ e.Escapes := by
  induction es generalizing s with
  | nil => simp
  | cons e es ih =>
      rw [read_cons] at h
      rcases e.change_cases with ⟨c, hChange⟩ | ⟨reason, hChange⟩ | hEscapes
      · have hStays : ¬ e.Escapes := fun hEscapes => by
          obtain ⟨error, hError, -⟩ := Entry.escapes_iff.mp hEscapes
          rw [hChange] at hError
          cases hError
        rw [hChange] at h
        exact List.forall_mem_cons.mpr ⟨hStays, ih h⟩
      · have hStays : ¬ e.Escapes := fun hEscapes => by
          obtain ⟨error, hError, hNot⟩ := Entry.escapes_iff.mp hEscapes
          rw [hChange] at hError
          cases hError
          exact hNot reason rfl
        rw [hChange] at h
        exact List.forall_mem_cons.mpr ⟨hStays, ih h⟩
      · obtain ⟨error, hError, hNot⟩ := Entry.escapes_iff.mp hEscapes
        rw [hError] at h
        cases error with
        | rejected reason => exact absurd rfl (hNot reason)
        | infinite => cases h
        | unshowable => cases h

theorem get_applyAll_of_unnamed (h : ∀ e ∈ es, ∀ v, e.change ≠ .ok ⟨k, v⟩) :
    (s.applyAll es).get k = s.get k := by
  induction es generalizing s with
  | nil => rfl
  | cons e es ih =>
      have hRest : ∀ e ∈ es, ∀ v, e.change ≠ .ok ⟨k, v⟩ :=
        fun e he => h e (List.mem_cons_of_mem _ he)
      cases hChange : e.change with
      | error error => rw [applyAll_cons_of_rejected hChange, ih hRest]
      | ok c =>
          have hOther : c.1 ≠ k := by
            rintro rfl
            exact h e List.mem_cons_self c.2 hChange
          rw [applyAll_cons_of_change hChange, ih hRest, apply, get_put_of_ne hOther]

/-- An option has the value that the last entry that changes it gives to it. -/
theorem get_applyAll_of_last {before after : List Entry} {v : k.Value}
    (hChange : e.change = .ok ⟨k, v⟩) (hLast : ∀ o ∈ after, ∀ w, o.change ≠ .ok ⟨k, w⟩) :
    (s.applyAll (before ++ e :: after)).get k = v := by
  have hBehind : s.applyAll (before ++ e :: after) = ((s.applyAll before).apply ⟨k, v⟩).applyAll
      after := by
    rw [applyAll, List.filterMap_append, List.foldl_append, ← applyAll_cons_of_change hChange]
    rfl
  rw [hBehind, get_applyAll_of_unnamed hLast, apply, get_put_self]

/-- An option that has an allowed value keeps one. -/
theorem allows_applyAll (h : k.Allows (s.get k)) (es : List Entry) :
    k.Allows ((s.applyAll es).get k) := by
  induction es generalizing s with
  | nil => exact h
  | cons e es ih =>
      cases hChange : e.change with
      | error error =>
          rw [applyAll_cons_of_rejected hChange]
          exact ih h
      | ok c =>
          rw [applyAll_cons_of_change hChange]
          exact ih (allows_apply (Entry.allows_of_change hChange) h)

/-- The entries are read one by one: `t` is what they lead to from `s`. -/
structure ReadsEntrywise (s : Settings) (es : List Entry) (t : Settings) : Prop where
  /-- What an entry does depends on nothing else. -/
  single : ∀ e ∈ es, ∀ base : Settings, base.set e.1 e.2 = e.change.map base.apply
  lenient : read false s es = (es.filterMap Entry.rejection?, .ok t)
  /-- Reading strictly fails with a rejection exactly if there is one, and gives the same settings
  otherwise. -/
  strictFails : (∃ reason, (read true s es).2 = .error (.rejected reason)) ↔
    ∃ e ∈ es, e.isRejected = true
  strict : (∀ e ∈ es, e.isRejected = false) → (read true s es).2 = .ok t
  /-- Rejected entries might as well not be there. -/
  withoutRejected : (read true s (es.filter fun e : Entry => !e.isRejected)).2 = .ok t
  /-- An option has its old value, or that of the last entry that changes it. -/
  unnamed : ∀ k, (∀ e ∈ es, ∀ v, e.change ≠ .ok ⟨k, v⟩) → t.get k = s.get k
  named : ∀ before e after k v, es = before ++ e :: after → e.change = .ok ⟨k, v⟩ →
    (∀ o ∈ after, ∀ w, o.change ≠ .ok ⟨k, w⟩) → t.get k = v
  workers : 1 ≤ s.maxWorkers → 1 ≤ t.maxWorkers
  suffix : s.companionSuffix.toList.head? = some '.' → t.companionSuffix.toList.head? = some '.'

theorem filterMap_rejection?_eq_nil_iff :
    es.filterMap Entry.rejection? = [] ↔ ∀ e ∈ es, e.isRejected = false := by
  simp [List.filterMap_eq_nil_iff, Entry.isRejected]

/-- Leaving out rejected entries changes nothing. -/
theorem applyAll_filter (s : Settings) (es : List Entry) :
    s.applyAll (es.filter fun e => !e.isRejected) = s.applyAll es := by
  induction es generalizing s with
  | nil => rfl
  | cons e es ih =>
      cases hChange : e.change with
      | ok c =>
          have hKept : (fun e : Entry => !e.isRejected) e = true := by
            simp [Entry.isRejected, Entry.rejection?_of_change hChange]
          rw [List.filter_cons_of_pos (p := fun e : Entry => !e.isRejected) hKept,
            applyAll_cons_of_change hChange, applyAll_cons_of_change hChange, ih]
      | error error =>
          rw [applyAll_cons_of_rejected hChange, List.filter_cons]
          split
          · rw [applyAll_cons_of_rejected hChange, ih]
          · exact ih s

/-- Reading leniently gives settings exactly if no entry ends it, and then the entries are read one
by one. -/
theorem read_entrywise (s : Settings) (es : List Entry) :
    ((∃ t, (read false s es).2 = .ok t) ↔ ∀ e ∈ es, ¬ e.Escapes)
      ∧ ((∀ e ∈ es, ¬ e.Escapes) → ∃ t, ReadsEntrywise s es t) := by
  refine ⟨⟨fun ⟨t, h⟩ => not_escapes_of_read_false h, fun h => ⟨_, by rw [read_false_eq s h]⟩⟩,
    fun h => ⟨s.applyAll es, ?_⟩⟩
  constructor
  case single => exact fun e _ base => set_eq base e
  case lenient => exact read_false_eq s h
  case strictFails =>
    rw [read_true_eq s h]
    cases hRejections : es.filterMap Entry.rejection? with
    | nil =>
        have hNone := filterMap_rejection?_eq_nil_iff.mp hRejections
        simpa using hNone
    | cons reason reasons =>
        have hSome : ¬ ∀ e ∈ es, e.isRejected = false := fun hNone => by
          rw [filterMap_rejection?_eq_nil_iff.mpr hNone] at hRejections
          cases hRejections
        simpa using hSome
  case strict =>
    intro hNone
    rw [read_true_eq s h, filterMap_rejection?_eq_nil_iff.mpr hNone]
    rfl
  case withoutRejected =>
    have hNone : ∀ e ∈ es.filter fun e => !e.isRejected, e.isRejected = false := fun e he => by
      simpa using (List.mem_filter.mp he).2
    rw [read_true_eq s fun e he => h e (List.mem_of_mem_filter he),
      filterMap_rejection?_eq_nil_iff.mpr hNone, applyAll_filter]
    rfl
  case unnamed => exact fun k => get_applyAll_of_unnamed
  case named =>
    rintro before e after k v rfl hChange hLast
    exact get_applyAll_of_last hChange hLast
  case workers => exact fun hBase => allows_applyAll (k := .maxWorkers) hBase es
  case suffix => exact fun hBase => allows_applyAll (k := .companionSuffix) hBase es

/-- Entries for two spellings of an option, of which the first one is rejected, and one for an
option that does not exist. -/
def mixedEntries : List Entry :=
  [(.text "maxWorkers", .int 0), (.text "preferStringType", .text "Yes"),
    (.text "max_workers", .text " 8 "), (.text "colour", .list [.null])]

theorem read_entrywise_mixedEntries :
    (∀ e ∈ mixedEntries, ¬ e.Escapes) ∧ (∃ e ∈ mixedEntries, e.isRejected = true)
      ∧ ReadsEntrywise {} mixedEntries { preferStringType := true, maxWorkers := 8 } := by
  have hStays : ∀ e ∈ mixedEntries, ¬ e.Escapes := by decide +kernel
  obtain ⟨t, hReads⟩ := (read_entrywise {} mixedEntries).2 hStays
  obtain ⟨t', hRead, rfl⟩ := Except.exists_of_passes (x := (read false {} mixedEntries).2)
    (fun t => decide (t = { preferStringType := true, maxWorkers := 8 })) (by decide +kernel)
    fun _ _ h => of_decide_eq_true h
  rw [hReads.lenient] at hRead
  obtain rfl := Except.ok.inj hRead
  exact ⟨hStays, by decide +kernel, hReads⟩

/-- A file that asks for an infinite number of workers cannot be read leniently. -/
theorem not_read_infiniteWorkers :
    ∃ es, Json.parse "\x7b\"maxWorkers\": 1e999, \"followIncludes\": false\x7d" = .ok (.table es)
      ∧ ¬ ∃ t, (read false {} es).2 = .ok t := by
  obtain ⟨v, hParse, es, rfl, hEscapes⟩ := Except.exists_of_passes
    (x := Json.parse "\x7b\"maxWorkers\": 1e999, \"followIncludes\": false\x7d")
    (Q := fun v => ∃ es, v = .table es ∧ ∃ e ∈ es, Entry.Escapes e)
    (fun | .table es => decide (∃ e ∈ es, Entry.Escapes e) | _ => false)
    (by decide +kernel) fun v _ hTest => by
      cases v with
      | table es => exact ⟨es, rfl, of_decide_eq_true hTest⟩
      | _ => cases hTest
  obtain ⟨e, he, hEnds⟩ := hEscapes
  exact ⟨es, hParse, fun ⟨t, h⟩ => not_escapes_of_read_false h e he hEnds⟩

end Demacro.Settings
