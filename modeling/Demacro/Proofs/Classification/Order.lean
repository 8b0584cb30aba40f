import Demacro.Proofs.Analysis
import Demacro.Proofs.Classification.Search

/-!
Classification does not depend on the order of questions. In whatever order the macros of a unit are
asked for, each is found to be the same, but for the reason that is given where it follows no
pattern; and a macro that leads back to itself follows none.
-/

namespace Demacro.Survey

open Inquiry Relation

/-- A question is answered by what is known. What is not known becomes the result. -/
def answering (known : List (String × Classification)) (name : String) :
    Classifying Classification :=
  match known.lookup name with
  | some c => pure c
  | none => throw (.needs name)

/-- Whether a computation ends with the question for a macro. -/
def isNeeding {α : Type} (x : Except FoldError α) (name : String) : Bool :=
  match x with
  | .error (.needs other) => other == name
  | _ => false

theorem eq_error_of_isNeeding {α : Type} {x : Except FoldError α} {name : String}
    (h : isNeeding x name = true) : x = .error (.needs name) := by
  unfold isNeeding at h
  split at h
  · rw [beq_iff_eq.mp h]
  · cases h

/-- The classification of `x` asks for `y`, when what it asked for before was answered as by a
search that begins with that macro. -/
def Consults (s : Survey) (x y : String) : Prop :=
  ∃ known, (∀ p ∈ known, s.classifyNames [p.1] = .ok [p.2])
    ∧ (s.classifyNew (answering known) x).run [] = .error (.needs y)

namespace Inquiries

variable {s : Survey} {q : s.Inquiries} {known : List (String × Classification)} {x y : String}

theorem asks_of_run_answering {t : Inquiry Classification} {shell : Classification}
    {seen : List String} (hHeeds : t.Heeds (IsShell shell) (fun _ => IsLike shell) seen)
    (hKnown : ∀ p ∈ known, q.Finds p.1 p.2)
    (hSeen : ∀ n ∈ seen, ∀ c, known.lookup n = some c → c.isClassified)
    (hRun : (t.run (answering known)).run [] = .error (.needs y)) : Asks q.of y t := by
  induction t generalizing seen with
  | done result =>
      cases result with
      | ok a => cases hRun
      | error e =>
          cases hRun
          exact absurd rfl (hHeeds y)
  | ask n next ih =>
      rw [run_ask, StateT.run_bind] at hRun
      cases hLookup : known.lookup n with
      | none =>
          have hAsked : (answering known n).run [] = .error (.needs n) := by
            rw [answering, hLookup]
            rfl
          rw [hAsked] at hRun
          cases hRun
          exact .now
      | some c =>
          have hAnswered : (answering known n).run [] = .ok (c, []) := by
            rw [answering, hLookup]
            rfl
          rw [hAnswered] at hRun
          change ((next c).run (answering known)).run [] = .error (.needs y) at hRun
          obtain ⟨before, after, rfl, -⟩ := List.lookup_eq_some_iff.mp hLookup
          have hFinds := hKnown (n, c) (by simp)
          by_cases hc : c.isClassified
          · refine .later (hFinds.fits.settles hc) (ih c (hHeeds.1 c hc) (fun m hm d hd => ?_) hRun)
            rcases List.mem_cons.mp hm with rfl | hm
            · exact Option.some.inj (hLookup.symm.trans hd) ▸ hc
            · exact hSeen m hm d hd
          · have hNew : n ∉ seen := fun hn => hc (hSeen n hn c hLookup)
            obtain ⟨a, hNext, -⟩ := hHeeds.2 hNew c hc
            rw [hNext] at hRun
            cases hRun

theorem follows_of_consults (h : s.Consults x y) : Follows q.of x y := by
  obtain ⟨known, hKnown, hRun⟩ := h
  rw [q.classifyNew_eq_run] at hRun
  refine asks_of_run_answering (q.isInquiry x).2 (fun p hp => ?_) (fun _ h => nomatch h) hRun
  cases q.finds_of_classifyNames (hKnown p hp) with
  | cons hFinds _ => exact hFinds

end Inquiries

/-- Whatever the macros of a unit are asked for in, each is classified the same but for the reason,
and asking for all of them succeeds exactly if asking for each alone does. The bounds on the depth
of the search and on the questions of one macro are never met. A macro that asks for itself,
directly or through others, follows no pattern. -/
theorem sameButReason_of_orders (parse : List UInt8 → SyntaxNode) (settings : Settings)
    (u : CompilationUnit) :
    let s := ofUnit parse settings u
    (∀ names₁ names₂ cs₁ cs₂, s.classifyNames names₁ = .ok cs₁ → s.classifyNames names₂ = .ok cs₂ →
        ∀ name c₁ c₂, (name, c₁) ∈ names₁.zip cs₁ → (name, c₂) ∈ names₂.zip cs₂ →
          c₁.SameButReason c₂)
      ∧ (∀ names, (∃ cs, s.classifyNames names = .ok cs) ↔
          ∀ name ∈ names, ∃ c, s.classifyNames [name] = .ok [c])
      ∧ (∀ budget, s.table.names.length < budget → s.classifyWithin budget [] = s.classify)
      ∧ (∀ ask body budget, body.nodes.length < budget →
          s.foldAsking ask body budget [] = s.foldAsking ask body (body.nodes.length + 1) [])
      ∧ ∀ name, TransGen s.Consults name name → ∀ names cs c, s.classifyNames names = .ok cs →
          (name, c) ∈ names.zip cs → c.isClassified = false := by
  intro s
  obtain ⟨q⟩ := nonempty_inquiries (namesDefinitions_ofUnit parse settings u)
  have hFinds : ∀ {names cs name c}, s.classifyNames names = .ok cs → (name, c) ∈ names.zip cs →
      q.Finds name c := fun h hMem => List.forall₂_zip (q.finds_of_classifyNames h) hMem
  refine ⟨?_, ?_, ?_, ?_, ?_⟩
  · intro names₁ names₂ cs₁ cs₂ h₁ h₂ name c₁ c₂ hMem₁ hMem₂
    exact (hFinds h₁ hMem₁).sameButReason (hFinds h₂ hMem₂)
  · intro names
    constructor
    · rintro ⟨cs, h⟩ name hName
      obtain ⟨c, -, hFound⟩ := (q.finds_of_classifyNames h).exists_right hName
      cases hAlone : s.classifyNames [name] with
      | error e =>
          obtain ⟨n, hn, hSettles⟩ := q.settles_of_classifyNames hAlone
          rw [List.mem_singleton.mp hn] at hSettles
          exact absurd hSettles hFound.not_settles_error
      | ok ds =>
          cases q.finds_of_classifyNames hAlone with
          | cons _ hRest =>
              cases hRest
              exact ⟨_, rfl⟩
    · intro hEach
      cases hAll : s.classifyNames names with
      | ok cs => exact ⟨cs, rfl⟩
      | error e =>
          obtain ⟨name, hName, hSettles⟩ := q.settles_of_classifyNames hAll
          obtain ⟨c, hAlone⟩ := hEach name hName
          exact absurd hSettles (hFinds hAlone List.mem_cons_self).not_settles_error
  · intro budget hBudget
    induction budget, hBudget using Nat.le_induction with
    | base => rfl
    | succ budget hBudget ih =>
        rw [q.classifyWithin_succ List.nodup_nil (List.nil_subset _) hBudget, ih]
  · intro ask body budget hBudget
    induction budget, hBudget using Nat.le_induction with
    | base => rfl
    | succ budget hBudget ih => rw [resolved_nil.foldAsking_succ hBudget, ih]
  · intro name hCycle names cs c h hMem
    by_contra hClassified
    have hSettles := (hFinds h hMem).fits.settles (by simpa using hClassified)
    exact hSettles.not_transGen (hCycle.lift id fun _ _ => Inquiries.follows_of_consults)

/-- Two macros that stand for each other follow no pattern, whichever is asked for first. -/
theorem sameButReason_mutual :
    ∃ u, CompilationUnit.read "a.cpp" "#define A B\n#define B A\n" none = .ok u
      ∧ ∃ c₁ c₂ c₃ c₄, (ofUnit .scopeless {} u).classifyNames ["A", "B"] = .ok [c₁, c₂]
        ∧ (ofUnit .scopeless {} u).classifyNames ["B", "A"] = .ok [c₃, c₄]
        ∧ TransGen (ofUnit .scopeless {} u).Consults "A" "A"
        ∧ c₁.SameButReason c₄ ∧ c₁.isClassified = false ∧ c₄.isClassified = false := by
  have hConsults : ∀ {s : Survey} {x y},
      isNeeding ((s.classifyNew (answering []) x).run []) y = true → s.Consults x y := by
    intro s x y h
    exact ⟨[], by simp, eq_error_of_isNeeding h⟩
  refine Except.exists_of_passes (fun u =>
      isNeeding (((ofUnit .scopeless {} u).classifyNew (answering []) "A").run []) "B"
      && isNeeding (((ofUnit .scopeless {} u).classifyNew (answering []) "B").run []) "A"
      && ((ofUnit .scopeless {} u).classifyNames ["A", "B"]).passes (·.length == 2)
      && ((ofUnit .scopeless {} u).classifyNames ["B", "A"]).passes (·.length == 2))
    (by decide +kernel) fun u _ hTest => ?_
  simp only [Bool.and_eq_true] at hTest
  obtain ⟨⟨⟨hAB, hBA⟩, hFirst⟩, hSecond⟩ := hTest
  have hPair : ∀ {x : Except FoldError (List Classification)}, x.passes (·.length == 2) = true →
      ∃ c c', x = .ok [c, c'] := by
    intro x hx
    obtain ⟨cs, rfl, hLength⟩ := Except.exists_of_passes (Q := fun cs => cs.length = 2) _ hx
      fun cs _ h => by simpa using h
    obtain ⟨c, c', rfl⟩ := List.length_eq_two.mp hLength
    exact ⟨c, c', rfl⟩
  obtain ⟨c₁, c₂, h₁⟩ := hPair hFirst
  obtain ⟨c₃, c₄, h₂⟩ := hPair hSecond
  have hCycle : TransGen (ofUnit .scopeless {} u).Consults "A" "A" :=
    .tail (.single (hConsults hAB)) (hConsults hBA)
  obtain ⟨hSame, -, -, -, hRefused⟩ := sameButReason_of_orders .scopeless {} u
  exact ⟨c₁, c₂, c₃, c₄, h₁, h₂, hCycle, hSame _ _ _ _ h₁ h₂ "A" c₁ c₄ (by simp) (by simp),
    hRefused "A" hCycle _ _ c₁ h₁ (by simp), hRefused "A" hCycle _ _ c₄ h₂ (by simp)⟩

end Demacro.Survey
