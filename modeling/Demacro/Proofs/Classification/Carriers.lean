import Demacro.Classification.Survey
import Demacro.Proofs.MacroTable
import Mathlib.Logic.Relation

/-!
The macros that carry another one. The search over the references between macros stops at every
macro once, and so it finds all macros that lead to the given one through any chain of references.
-/

namespace Demacro

/-- A live definition of the first macro mentions the second. -/
def MacroTable.Refers (t : MacroTable) (m name : String) : Prop :=
  ∃ d ∈ t.liveDefinitions m, Survey.mentions d name = true

namespace Survey

variable {s : Survey} {name m k : String} {unvisited pending : List String}

theorem mem_referrers : m ∈ s.referrers name ↔
    s.table.contains name = true ∧ m ≠ name ∧ s.table.Refers m name := by
  unfold referrers
  split
  · rename_i hContains
    simp only [List.mem_filter, Bool.and_eq_true, bne_iff_ne, List.any_eq_true, hContains, true_and]
    refine ⟨fun h => ⟨h.2.1, h.2.2⟩, fun h => ⟨?_, h.1, h.2⟩⟩
    obtain ⟨d, hd, -⟩ := h.2
    exact MacroTable.mem_names_of_mem_liveDefinitions hd
  · rename_i hContains
    simp [hContains]

/-- The search finds only what was open to it and leads from where it started. -/
theorem reach_sound (h : m ∈ s.reach unvisited pending) :
    m ∈ unvisited ∧ ∃ k ∈ pending, Relation.ReflTransGen (fun a b => b ∈ s.referrers a) k m := by
  induction unvisited, pending using reach.induct s with
  | case1 unvisited => simp [reach] at h
  | case2 unvisited x rest hx ih =>
      rw [reach, if_pos hx, List.mem_cons] at h
      rcases h with rfl | h
      · exact ⟨hx, m, List.mem_cons_self, .refl⟩
      · obtain ⟨hMem, k, hk, hPath⟩ := ih h
        refine ⟨List.mem_of_mem_erase hMem, ?_⟩
        rcases List.mem_append.mp hk with hk | hk
        · exact ⟨k, List.mem_cons_of_mem x hk, hPath⟩
        · exact ⟨x, List.mem_cons_self, hPath.head hk⟩
  | case3 unvisited x rest hx ih =>
      rw [reach, if_neg hx] at h
      obtain ⟨hMem, k, hk, hPath⟩ := ih h
      exact ⟨hMem, k, List.mem_cons_of_mem x hk, hPath⟩

theorem mem_reach_of_mem_pending (h : m ∈ pending) (hOpen : m ∈ unvisited) :
    m ∈ s.reach unvisited pending := by
  induction unvisited, pending using reach.induct s with
  | case1 unvisited => cases h
  | case2 unvisited x rest hx ih =>
      rw [reach, if_pos hx]
      by_cases hEq : m = x
      · exact hEq ▸ List.mem_cons_self
      · refine List.mem_cons_of_mem x (ih (List.mem_append_left _ ?_) ?_)
        · exact (List.mem_cons.mp h).resolve_left hEq
        · exact (List.mem_erase_of_ne hEq).mpr hOpen
  | case3 unvisited x rest hx ih =>
      rw [reach, if_neg hx]
      refine ih ((List.mem_cons.mp h).resolve_left ?_) hOpen
      rintro rfl
      exact hx hOpen

/-- What refers to something found is found. -/
theorem reach_closed (h : m ∈ s.reach unvisited pending) (hRefers : k ∈ s.referrers m)
    (hOpen : k ∈ unvisited) : k ∈ s.reach unvisited pending := by
  induction unvisited, pending using reach.induct s with
  | case1 unvisited => simp [reach] at h
  | case2 unvisited x rest hx ih =>
      rw [reach, if_pos hx] at h ⊢
      by_cases hEq : k = x
      · exact hEq ▸ List.mem_cons_self
      · have hStill : k ∈ unvisited.erase x := (List.mem_erase_of_ne hEq).mpr hOpen
        refine List.mem_cons_of_mem x ?_
        rcases List.mem_cons.mp h with rfl | h
        · exact mem_reach_of_mem_pending (List.mem_append_right _ hRefers) hStill
        · exact ih h hStill
  | case3 unvisited x rest hx ih =>
      rw [reach, if_neg hx] at h ⊢
      exact ih h hOpen

/-- The carriers of a macro are the other macros that lead to it through a chain of references. -/
theorem mem_carriers (hName : s.table.contains name = true) :
    m ∈ s.carriers name ↔ m ≠ name ∧ Relation.TransGen s.table.Refers m name := by
  have hOpen : ∀ {x y}, x ≠ name → s.table.Refers x y →
      x ∈ s.table.names.filter (· != name) := by
    rintro x y hNe ⟨d, hd, -⟩
    simpa [hNe] using MacroTable.mem_names_of_mem_liveDefinitions hd
  constructor
  · intro h
    obtain ⟨hMem, k, hk, hPath⟩ := reach_sound h
    have hNe : m ≠ name := by simpa using (List.mem_filter.mp hMem).2
    refine ⟨hNe, ?_⟩
    clear h hMem hNe
    induction hPath with
    | refl => exact .single (mem_referrers.mp hk).2.2
    | tail _ hStep ih => exact .head (mem_referrers.mp hStep).2.2 ih
  · rintro ⟨hNe, hChain⟩
    have hDirect : ∀ x, x ≠ name → s.table.Refers x name → x ∈ s.carriers name :=
      fun x hx hRefers => mem_reach_of_mem_pending (mem_referrers.mpr ⟨hName, hx, hRefers⟩)
        (hOpen hx hRefers)
    induction hChain using Relation.TransGen.head_induction_on with
    | single hRefers => exact hDirect _ hNe hRefers
    | @head x y hRefers hRest ih =>
        by_cases hTarget : y = name
        · exact hDirect x hNe (hTarget ▸ hRefers)
        by_cases hSelf : x = y
        · exact hSelf ▸ ih hTarget
        refine reach_closed (ih hTarget) (mem_referrers.mpr ⟨?_, hSelf, hRefers⟩)
          (hOpen hNe hRefers)
        obtain ⟨z, ⟨d, hd, -⟩, -⟩ := Relation.TransGen.head'_iff.mp hRest
        exact MacroTable.contains_of_mem_names (MacroTable.mem_names_of_mem_liveDefinitions hd)

/-- Nothing carries a macro that nothing refers to. -/
theorem carriers_eq_nil (h : s.referrers name = []) : s.carriers name = [] := by
  rw [carriers, h, reach]

end Survey

end Demacro
