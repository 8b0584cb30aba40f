import Demacro.Proofs.Analysis
import Demacro.Proofs.Classification.Carriers
import Demacro.Proofs.Classification.Findings
import Demacro.Proofs.Scopes.Qualifiers
import Mathlib.Data.Fintype.Card
import Mathlib.Data.Set.Finite.Basic
import Mathlib.Order.WellFounded

/-!
Where the macros that carry another one out of its scope are used. Every use of such a macro has to
see the scope, or the carried macro is not changed. A carrier that is never used is noticed only
where no other macro mentions it, so carriers that keep each other alive escape notice.
-/

namespace Demacro

open Relation

namespace Survey

variable {s : Survey} {name m : String} {home : Context} {c : Classification} {u : Usage}
  {unvisited pending : List String} {usages : List Usage} {isFunction : Bool}

/-- A live definition of the first macro mentions the second, which is another macro. -/
def MentionsOther (s : Survey) (m name : String) : Prop :=
  m ≠ name ∧ s.table.Refers m name

/-- No macro that leads to `m` is ever used, nor is `m` itself, and each of them is mentioned by
another macro. Of the macro in question itself nothing of the kind is asked. -/
def Idles (s : Survey) (name m : String) : Prop :=
  ∀ k, ReflTransGen s.table.Refers k m →
    s.uses.usages k = [] ∧ (k = name ∨ ∃ j, s.MentionsOther j k)

/-- The search meets every macro at most once. -/
theorem reach_nodup (h : unvisited.Nodup) : (s.reach unvisited pending).Nodup := by
  induction unvisited, pending using reach.induct s with
  | case1 unvisited => rw [reach]; exact .nil
  | case2 unvisited x rest hx ih =>
      rw [reach, if_pos hx]
      refine List.nodup_cons.mpr ⟨fun hAgain => ?_, ih (h.erase x)⟩
      exact h.not_mem_erase (reach_sound hAgain).1
  | case3 unvisited x rest hx ih =>
      rw [reach, if_neg hx]
      exact ih h

theorem carriers_nodup (h : s.table.names.Nodup) : (s.carriers name).Nodup :=
  reach_nodup (h.filter _)

theorem mem_expansionSites_none : (m, none) ∈ s.expansionSites name ↔
    m ∈ s.carriers name ∧ s.uses.usages m = [] ∧ s.referrers m = [] := by
  simp only [expansionSites, List.mem_flatMap]
  constructor
  · rintro ⟨k, hk, hSite⟩
    split at hSite
    · rename_i hUnseen
      obtain ⟨rfl, -⟩ := Prod.mk.inj (List.mem_singleton.mp hSite)
      simpa [hk] using hUnseen
    · simp at hSite
  · rintro ⟨hm, hUsages, hReferrers⟩
    exact ⟨m, hm, by simp [hUsages, hReferrers]⟩

theorem mem_expansionSites_some : (m, some u) ∈ s.expansionSites name ↔
    m ∈ s.carriers name ∧ u ∈ s.uses.usages m := by
  simp only [expansionSites, List.mem_flatMap]
  constructor
  · rintro ⟨k, hk, hSite⟩
    split at hSite
    · simp at hSite
    · obtain ⟨v, hv, hSame⟩ := List.mem_map.mp hSite
      obtain ⟨rfl, hUse⟩ := Prod.mk.inj hSame
      cases hUse
      exact ⟨hk, hv⟩
  · rintro ⟨hm, hu⟩
    have hUsed : (s.uses.usages m).isEmpty = false := by
      rw [List.isEmpty_eq_false_iff]
      exact List.ne_nil_of_mem hu
    exact ⟨m, hm, by simpa [hUsed] using hu⟩

theorem limit_of_mem_carriedFindings {f : Finding} (h : f ∈ s.carriedFindings name home) :
    f.limit = .blocked := by
  obtain ⟨⟨through, usage⟩, -, hFinding⟩ := List.mem_filterMap.mp h
  dsimp only at hFinding
  split at hFinding
  · cases hFinding
    rfl
  · split at hFinding <;> cases hFinding
    rfl

/-- Nothing is found where every use of a carrier sees the scope, and every carrier is used or
mentioned by another macro. -/
theorem carriedFindings_eq_nil_iff : s.carriedFindings name home = [] ↔ ∀ m ∈ s.carriers name,
    (∀ u ∈ s.uses.usages m, u.context.sees home = true) ∧ (s.uses.usages m = [] →
      s.referrers m ≠ []) := by
  simp only [carriedFindings, List.filterMap_eq_nil_iff]
  constructor
  · intro h m hm
    refine ⟨fun u hu => ?_, fun hUsages hReferrers => ?_⟩
    · simpa using h (m, some u) (mem_expansionSites_some.mpr ⟨hm, hu⟩)
    · simpa using h (m, none) (mem_expansionSites_none.mpr ⟨hm, hUsages, hReferrers⟩)
  · rintro h ⟨m, usage⟩ hSite
    cases usage with
    | none =>
        obtain ⟨hm, hUsages, hReferrers⟩ := mem_expansionSites_none.mp hSite
        exact absurd hReferrers ((h m hm).2 hUsages)
    | some u =>
        obtain ⟨hm, hu⟩ := mem_expansionSites_some.mp hSite
        simp [(h m hm).1 u hu]

/-- A use outside the scope blocks the macro, or it needs a qualifier. -/
theorem exists_qualifier_of_outsideUse {frame : Frame}
    (h : (outsideUse home frame u).1.limit ≠ .blocked) :
    ∃ qualifier, (outsideUse home frame u).2 = some qualifier := by
  unfold outsideUse at h ⊢
  dsimp only at h ⊢
  split at h
  · exact absurd rfl h
  · split at h
    · exact absurd rfl h
    · rename_i hEmpty
      rw [if_neg hEmpty]
      exact ⟨_, rfl⟩

/-- What the scope says of a macro that it does not block: nothing carries the macro out of a scope,
and its own uses outside are those that need a qualifier. -/
theorem of_scopeFindings
    (h : ∀ f ∈ (s.scopeFindings name home usages isFunction).1, f.limit ≠ .blocked) :
    (home.scope? ≠ none → s.carriedFindings name home = []) ∧
      ((s.scopeFindings name home usages isFunction).2 = [] ↔
        ∀ u ∈ usages, u.context.sees home = true) := by
  have hCarried : (∀ f ∈ s.carriedFindings name home, f.limit ≠ .blocked) →
      s.carriedFindings name home = [] :=
    fun hNone => List.eq_nil_iff_forall_not_mem.mpr fun f hf =>
    hNone f hf (limit_of_mem_carriedFindings hf)
  have hOutside : usages.filter (fun u => !u.context.sees home) = [] ↔
      ∀ u ∈ usages, u.context.sees home = true := by
    simp [List.filter_eq_nil_iff]
  unfold scopeFindings at h ⊢
  split at h
  · rename_i hScope
    refine ⟨fun hSome => absurd hScope hSome, ?_⟩
    simp [hScope, Context.sees]
  rename_i frame hScope
  rw [hScope]
  dsimp only at h ⊢
  split at h
  -- in a function or a block every use outside blocks the macro
  · have hNone : usages.filter (fun u => !u.context.sees home) = [] :=
      List.eq_nil_iff_forall_not_mem.mpr fun u hu =>
        h _ (List.mem_append_right _ (List.mem_map_of_mem hu)) rfl
    exact ⟨fun _ => hCarried fun f hf => h f (by simp [hf]), by simpa using hOutside.mp hNone⟩
  · have hNone : usages.filter (fun u => !u.context.sees home) = [] :=
      List.eq_nil_iff_forall_not_mem.mpr fun u hu =>
        h _ (List.mem_append_right _ (List.mem_map_of_mem hu)) rfl
    exact ⟨fun _ => hCarried fun f hf => h f (by simp [hf]), by simpa using hOutside.mp hNone⟩
  · refine ⟨fun _ => hCarried fun f hf => h f (List.mem_append_left _ hf), ?_⟩
    rw [← hOutside, List.filterMap_eq_nil_iff]
    refine ⟨fun hQualified => List.eq_nil_iff_forall_not_mem.mpr fun u hu => ?_,
      fun hNone => by simp [hNone]⟩
    obtain ⟨qualifier, hQualifier⟩ := exists_qualifier_of_outsideUse
      (h _ (List.mem_append_right _ (List.mem_map_of_mem (List.mem_map_of_mem hu))))
    have hUnqualified := hQualified _ (List.mem_map_of_mem hu)
    rw [hQualifier] at hUnqualified
    cases hUnqualified

/-- A macro that may be changed is not blocked by its scope. -/
theorem Outcome.scope_of_ne_blocked (h : s.Outcome name c) (hConfidence : c.confidence ≠ .blocked)
    (hContext : c.context = some home) : ∃ isFunction,
      c.qualified = (s.scopeFindings name home (s.uses.usages name) isFunction).2 ∧
      ∀ f ∈ (s.scopeFindings name home (s.uses.usages name) isFunction).1, f.limit ≠ .blocked := by
  have hLimit : ∀ {findings : List Finding}, Finding.confidence findings ≠ .blocked →
      ∀ f ∈ findings, f.limit ≠ .blocked :=
    fun hFindings f hf hBlocked =>
    hFindings (Finding.confidence_eq_blocked_iff.mpr ⟨f, hf, hBlocked⟩)
  cases h with
  | unsuitable | rejected => exact absurd rfl hConfidence
  | constant =>
      cases hContext
      refine ⟨false, rfl, fun f hf => hLimit hConfidence f ?_⟩
      simp only [List.mem_append]
      tauto
  | function =>
      cases hContext
      refine ⟨true, rfl, fun f hf => hLimit hConfidence f ?_⟩
      simp only [List.mem_append]
      tauto

/-- Nothing that leads to a macro is used exactly if all of it idles, where every carrier is used or
mentioned by another macro. -/
theorem exists_used_iff (hName : s.table.contains name = true) (hm : TransGen s.table.Refers m name)
    (hSeen : ∀ k ∈ s.carriers name, s.uses.usages k = [] → s.referrers k ≠ []) :
    (∃ k, ReflTransGen s.table.Refers k m ∧ s.uses.usages k ≠ []) ↔ ¬s.Idles name m := by
  constructor
  · rintro ⟨k, hLeads, hUsed⟩ hIdles
    exact hUsed (hIdles k hLeads).1
  · intro hAwake
    by_contra hNone
    refine hAwake fun k hLeads => ?_
    have hUnused : s.uses.usages k = [] := by
      by_contra hUsed
      exact hNone ⟨k, hLeads, hUsed⟩
    refine ⟨hUnused, or_iff_not_imp_left.mpr fun hOther => ?_⟩
    have hCarrier : k ∈ s.carriers name := (mem_carriers hName).mpr ⟨hOther, hm.trans_right hLeads⟩
    obtain ⟨j, hj⟩ := List.exists_mem_of_ne_nil _ (hSeen k hCarrier hUnused)
    exact ⟨j, (mem_referrers.mp hj).2⟩

theorem exists_mentionsOther (h : TransGen s.table.Refers m name) (hOther : m ≠ name) :
    ∃ j, s.MentionsOther j name := by
  induction h using TransGen.head_induction_on with
  | single hRefers => exact ⟨_, hOther, hRefers⟩
  | @head x y hRefers _ ih =>
      by_cases hTarget : y = name
      · exact ⟨x, hOther, hTarget ▸ hRefers⟩
      · exact ih hTarget

/-- What idles hangs on macros that mention each other in a circle. -/
theorem Idles.exists_cycle (h : s.Idles name m) (hm : TransGen s.table.Refers m name)
    (hOther : m ≠ name) : ∃ k, ReflTransGen s.table.Refers k m ∧ TransGen s.MentionsOther k k := by
  by_contra hNone
  -- without a circle some macro that leads to `m` would be mentioned by no other one
  have hNames : {k | ReflTransGen s.table.Refers k m} ⊆ {k | k ∈ s.table.names} := by
    intro k hk
    obtain ⟨_, ⟨d, hd, -⟩, -⟩ := TransGen.head'_iff.mp (hm.trans_right hk)
    exact MacroTable.mem_names_of_mem_liveDefinitions hd
  have hFinite : Finite {k | ReflTransGen s.table.Refers k m} :=
    (s.table.names.finite_toSet.subset hNames).to_subtype
  let leads : {k | ReflTransGen s.table.Refers k m} → {k | ReflTransGen s.table.Refers k m} →
      Prop :=
    fun i j => TransGen s.MentionsOther i j
  have hIrrefl : Std.Irrefl leads := ⟨fun k hCycle => hNone ⟨k, k.2, hCycle⟩⟩
  have hTrans : IsTrans _ leads := ⟨fun _ _ _ => TransGen.trans⟩
  obtain ⟨⟨k, hk⟩, -, hFirst⟩ := (Finite.wellFounded_of_trans_of_irrefl leads).has_min Set.univ
    ⟨⟨m, .refl⟩, trivial⟩
  have hMentioned : ∃ j, s.MentionsOther j k := by
    rcases (h k hk).2 with rfl | hMentioned
    · exact exists_mentionsOther hm hOther
    · exact hMentioned
  obtain ⟨j, hj⟩ := hMentioned
  exact hFirst ⟨j, hk.head hj.2⟩ trivial (.single hj)

end Survey

/-- The tree of a file that holds nothing but a namespace with a name of one letter. -/
def SyntaxNode.wholeNamespace (bytes : List UInt8) : SyntaxNode :=
  ⟨"translation_unit", 0, bytes.length, none, false,
    [.scope "namespace_definition" 0 10 11 (bytes.length - 1) []]⟩

namespace Analysis

variable {parse : List UInt8 → SyntaxNode} {settings : Settings}
  {load : String → Except AccessFault (List UInt8)} {path : String} {text : Text} {a : Analysis}
  {s : Survey} {c : Classification} {home : Context}

/-- What carries a macro that may be changed, through any chain of mentions, is used only where the
scope of the macro is seen, apart from the macro's own uses, which may be qualified. Of a macro in a
scope, every carrier is used, if only through others, unless it idles, which takes macros that
mention each other in a circle. The search for the carriers finds all of them, each once. -/
theorem carriers_used_iff (h : ofText parse settings load path text = .ok a)
    (hSurvey : Survey.ofUnit parse settings a.unit = s) (hc : c ∈ a.classifications)
    (hConfidence : c.confidence ≠ .blocked) (hHome : c.context = some home) :
    (∀ m, TransGen s.table.Refers m c.name →
      ((∀ u ∈ s.uses.usages m, u.context.sees home = true) ↔ (m = c.name → c.qualified = [])) ∧
      (home.scope? ≠ none →
        ((∃ k, ReflTransGen s.table.Refers k m ∧ s.uses.usages k ≠ []) ↔ ¬s.Idles c.name m)) ∧
      (m ≠ c.name → s.Idles c.name m →
        ∃ k, ReflTransGen s.table.Refers k m ∧ TransGen s.MentionsOther k k)) ∧
    (s.carriers c.name).Nodup ∧
    ∀ m, m ∈ s.carriers c.name ↔ m ≠ c.name ∧ TransGen s.table.Refers m c.name := by
  obtain ⟨hName, hOutcome⟩ := Survey.exists_outcome (ofUnit_eq_ok (ofText_eq_ok h).2).2.1 hc
  rw [hSurvey] at hName hOutcome
  have hContains := MacroTable.contains_of_mem_names hName
  obtain ⟨isFunction, hQualified, hFindings⟩ := hOutcome.scope_of_ne_blocked hConfidence hHome
  obtain ⟨hCarried, hOwn⟩ := Survey.of_scopeFindings hFindings
  have hSeen : home.scope? ≠ none → ∀ m ∈ s.carriers c.name, _ := fun hScope =>
    Survey.carriedFindings_eq_nil_iff.mp (hCarried hScope)
  refine ⟨fun m hm => ⟨?_, fun hScope => ?_, fun hOther hIdles => hIdles.exists_cycle hm hOther⟩,
    Survey.carriers_nodup (MacroTable.names_nodup s.table), fun m => Survey.mem_carriers hContains⟩
  · by_cases hSelf : m = c.name
    · rw [hSelf, ← hOwn, ← hQualified]
      simp
    · have hUses : ∀ u ∈ s.uses.usages m, u.context.sees home = true := by
        by_cases hScope : home.scope? = none
        · simp [Context.sees, hScope]
        · exact (hSeen hScope m ((Survey.mem_carriers hContains).mpr ⟨hSelf, hm⟩)).1
      exact iff_of_true hUses fun hSame => absurd hSame hSelf
  · exact Survey.exists_used_iff hContains hm fun k hk => (hSeen hScope k hk).2

theorem carriers_used_namespace :
    ∃ a, ofText .wholeNamespace {} (fun _ => .error .notFound) "unit.cpp"
        "namespace a \x7b\n#define N 1\n#define P (N + 1)\n#define Q (P + 1)\nint x = Q;\n\x7d\n"
        = .ok a
      ∧ ∃ c ∈ a.classifications, c.name = "N" ∧ c.confidence ≠ .blocked
      ∧ ∃ home, c.context = some home
        ∧ home.scope? ≠ none
        ∧ TransGen (Survey.ofUnit .wholeNamespace {} a.unit).table.Refers "Q" "N"
        ∧ (∀ u ∈ (Survey.ofUnit .wholeNamespace {} a.unit).uses.usages "Q",
          u.context.sees home = true)
        ∧ ¬(Survey.ofUnit .wholeNamespace {} a.unit).Idles "N" "P" := by
  refine Except.exists_of_passes
    (fun a => decide (∃ c ∈ a.classifications, c.name = "N" ∧ c.confidence ≠ .blocked
    ∧ ∃ home ∈ c.context, home.scope? ≠ none)
    && decide ((Survey.ofUnit .wholeNamespace {} a.unit).carriers "N" = ["P", "Q"])
    && decide ((Survey.ofUnit .wholeNamespace {} a.unit).table.contains "P"
      ∧ (Survey.ofUnit .wholeNamespace {} a.unit).carriers "P" = ["Q"])
    && decide ((Survey.ofUnit .wholeNamespace {} a.unit).uses.usages "Q" ≠ [])) (by
      decide +kernel) fun a h hTest => ?_
  simp only [Bool.and_eq_true, decide_eq_true_eq] at hTest
  obtain ⟨⟨⟨⟨c, hc, hName, hConfidence, home, hHome, hScope⟩, hCarriers⟩, hContains, hThrough⟩,
    hUsed⟩ := hTest
  obtain ⟨hEach, -, hMem⟩ := carriers_used_iff h rfl hc hConfidence hHome
  rw [hName] at hEach hMem
  obtain ⟨hOther, hChain⟩ := (hMem "Q").mp (by simp [hCarriers])
  have hDirect := ((hMem "P").mp (by simp [hCarriers])).2
  have hLeads := ((Survey.mem_carriers hContains (m := "Q")).mp (by simp [hThrough])).2
  exact ⟨c, hc, hName, hConfidence, home, hHome, hScope, hChain,
    (hEach "Q" hChain).1.mpr fun hSame => absurd hSame hOther,
    ((hEach "P" hDirect).2.1 hScope).mp ⟨"Q", hLeads.to_reflTransGen, hUsed⟩⟩

/-- Two macros that mention each other keep each other from being noticed: the constant is
rewritten, though neither of them is ever used. -/
theorem not_carriers_used_circle :
    ∃ a, ofText .oneNamespace {} (fun _ => .error .notFound) "unit.cpp"
        "namespace a \x7b\n#define N 1\n\x7d\n#define P (N + Q)\n#define Q (P + 1)\n" = .ok a
      ∧ ∃ c ∈ a.classifications, c.name = "N" ∧ c.confidence = .high ∧ ∃ home, c.context = some home
        ∧ home.scope? ≠ none ∧ TransGen (Survey.ofUnit .oneNamespace {} a.unit).table.Refers "P" "N"
        ∧ ¬∃ k, ReflTransGen (Survey.ofUnit .oneNamespace {} a.unit).table.Refers k "P"
          ∧ (Survey.ofUnit .oneNamespace {} a.unit).uses.usages k ≠ [] := by
  refine Except.exists_of_passes
    (fun a => decide (∃ c ∈ a.classifications, c.name = "N" ∧ c.confidence = .high
    ∧ ∃ home ∈ c.context, home.scope? ≠ none)
    && decide ((Survey.ofUnit .oneNamespace {} a.unit).table.contains "N"
      ∧ (Survey.ofUnit .oneNamespace {} a.unit).carriers "N" = ["P", "Q"])
    && decide (∀ k ∈ ["N", "P", "Q"], (Survey.ofUnit .oneNamespace {} a.unit).uses.usages k = []))
    (by decide +kernel) fun a h hTest => ?_
  simp only [Bool.and_eq_true, decide_eq_true_eq] at hTest
  obtain ⟨⟨⟨c, hc, hName, hConfidence, home, hHome, hScope⟩, hContains, hCarriers⟩, hUnused⟩ :=
    hTest
  have hMem := fun m => Survey.mem_carriers hContains (m := m)
  have hChain := ((hMem "P").mp (by simp [hCarriers])).2
  refine ⟨c, hc, hName, hConfidence, home, hHome, hScope, hChain, fun ⟨k, hLeads, hUsed⟩ => hUsed
    (hUnused k ?_)⟩
  by_cases hSelf : k = "N"
  · simp [hSelf]
  · have hCarrier := (hMem k).mpr ⟨hSelf, hChain.trans_right hLeads⟩
    rw [hCarriers] at hCarrier
    exact List.mem_cons_of_mem _ hCarrier

end Analysis

end Demacro
