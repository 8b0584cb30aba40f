import Demacro.Proofs.Classification.Questions
import Mathlib.Logic.Relation
import Mathlib.Order.Nat

/-!
The classification of macros by plain recursion, with nothing remembered and nothing in progress: a
macro settles if that comes to an end. What a macro settles to is unique, a macro settles only if
all that it asks for do, and then no chain of questions leads back to it. The search by which macros
are classified remembers what it found and refuses a macro that is in progress. While some macros
are in progress, what it finds is right unless it leads back to one of them, and then it follows no
pattern. So in the end a macro that settles is found to be what it settles to, and one that does not
is refused.
-/

namespace Demacro

open Relation

variable {of : String → Inquiry Classification} {x y : String} {t : Inquiry Classification}
  {r r' : Except FoldError Classification}

namespace Inquiry

/-- The inquiry ends with the result, if each question is answered by the end of its own inquiry. -/
inductive Settles (of : String → Inquiry Classification) :
    Inquiry Classification → Except FoldError Classification → Prop where
  | done (r : Except FoldError Classification) : Settles of (.done r) r
  | answered {name : String} {next : Classification → Inquiry Classification} {c : Classification}
      {r : Except FoldError Classification} (hAnswer : Settles of (of name) (.ok c))
      (hRest : Settles of (next c) r) : Settles of (.ask name next) r
  | failed {name : String} {next : Classification → Inquiry Classification} {e : FoldError}
      (hAnswer : Settles of (of name) (.error e)) : Settles of (.ask name next) (.error e)

theorem Settles.unique (h : Settles of t r) (h' : Settles of t r') : r = r' := by
  induction h generalizing r' with
  | done r =>
      cases h'
      rfl
  | answered _ _ ihAnswer ihRest =>
      cases h' with
      | answered hAnswer hRest =>
          cases ihAnswer hAnswer
          exact ihRest hRest
      | failed hAnswer => cases ihAnswer hAnswer
  | failed _ ihAnswer =>
      cases h' with
      | answered hAnswer => cases ihAnswer hAnswer
      | failed hAnswer => exact ihAnswer hAnswer

/-- The inquiry comes to ask for the macro. -/
inductive Asks (of : String → Inquiry Classification) (y : String) :
    Inquiry Classification → Prop where
  | now {next : Classification → Inquiry Classification} : Asks of y (.ask y next)
  | later {name : String} {next : Classification → Inquiry Classification} {c : Classification}
      (hAnswer : Settles of (of name) (.ok c)) (hRest : Asks of y (next c)) :
      Asks of y (.ask name next)

/-- The classification of `x` comes to ask for `y`. -/
def Follows (of : String → Inquiry Classification) (x y : String) : Prop :=
  Asks of y (of x)

/-- What is asked for settles. -/
theorem Settles.exists_of_asks (h : Settles of t r) (hAsks : Asks of y t) :
    ∃ r', Settles of (of y) r' := by
  induction hAsks generalizing r with
  | now =>
      cases h with
      | answered hAnswer => exact ⟨_, hAnswer⟩
      | failed hAnswer => exact ⟨_, hAnswer⟩
  | later hAnswer _ ih =>
      cases h with
      | answered hOther hRest =>
          cases hOther.unique hAnswer
          exact ih hRest
      | failed hOther => cases hOther.unique hAnswer

theorem Settles.exists_of_reflTransGen (h : Settles of (of x) r)
    (hReach : ReflTransGen (Follows of) x y) : ∃ r', Settles of (of y) r' := by
  induction hReach with
  | refl => exact ⟨r, h⟩
  | tail _ hFollows ih =>
      obtain ⟨_, hSettles⟩ := ih
      exact hSettles.exists_of_asks hFollows

/-- All chains of questions that start with a question of a settled inquiry end. -/
theorem Settles.acc_of_asks (h : Settles of t r) (hAsks : Asks of y t) :
    Acc (fun b a => Follows of a b) y := by
  induction h generalizing y with
  | done => cases hAsks
  | answered hAnswer _ ihAnswer ihRest =>
      cases hAsks with
      | now => exact .intro _ fun z hz => ihAnswer hz
      | later hOther hRest =>
          cases hOther.unique hAnswer
          exact ihRest hRest
  | failed hAnswer ihAnswer =>
      cases hAsks with
      | now => exact .intro _ fun z hz => ihAnswer hz
      | later hOther => cases hOther.unique hAnswer

/-- No chain of questions leads back to a macro that settles. -/
theorem Settles.not_transGen (h : Settles of (of x) r) : ¬ TransGen (Follows of) x x := by
  intro hCycle
  have hAcc : Acc (TransGen (Function.swap (Follows of))) x :=
    (Acc.intro x fun y hy => h.acc_of_asks hy).transGen
  induction hAcc with
  | intro z _ ih => exact ih z (transGen_swap.mpr hCycle) h hCycle

end Inquiry

namespace Survey

open Classifying Inquiry Relation

/-- The inquiries by which the macros of a unit are classified, and for each macro how it is
refused. -/
structure Inquiries (s : Survey) where
  of : String → Inquiry Classification
  shell : String → Classification
  isInquiry : ∀ name, IsInquiry (fun answer => s.classifyNew answer name) (shell name) (of name)
  isDone : ∀ name ∉ s.table.names, ∃ result, of name = .done result

theorem nonempty_inquiries {s : Survey} (hs : s.NamesDefinitions) : Nonempty s.Inquiries := by
  choose shell of hInquiry hDone using s.exists_classifyNew_eq_run hs
  exact ⟨of, shell, hInquiry, hDone⟩

namespace Inquiries

theorem classifyNew_eq_run {s : Survey} (q : s.Inquiries) (name : String)
    (answer : String → Classifying Classification) :
    s.classifyNew answer name = (q.of name).run answer :=
  (q.isInquiry name).1 answer

variable {s : Survey} (q : s.Inquiries) {active : List String} {x y z : String}
  {memory memory' : Memory} {c : Classification} {t : Inquiry Classification}
  {ask : String → Classifying Classification}

/-- An answer that was found while the macros in `active` were in progress. It is right, unless the
macro leads to one of these. -/
structure Fits (active : List String) (x : String) (c : Classification) : Prop where
  settles : c.isClassified → Settles q.of (q.of x) (.ok c)
  unique : ∀ r, Settles q.of (q.of x) r →
    r = .ok c ∨ ∃ a ∈ active, ReflTransGen (Follows q.of) x a

/-- Nothing is remembered of the macros in progress, and what is remembered fits. -/
structure Sound (active : List String) (memory : Memory) : Prop where
  inProgress : ∀ a ∈ active, memory.lookup a = none
  fits : ∀ x c, memory.lookup x = some c → q.Fits active x c
  isLike : ∀ x c, memory.lookup x = some c → IsLike (q.shell x) c

/-- What was remembered still is, and what is new is about macros as `P` says. -/
structure Grows (memory memory' : Memory) (P : String → Prop) : Prop where
  keeps : ∀ x c, memory.lookup x = some c → memory'.lookup x = some c
  isNew : ∀ x c, memory'.lookup x = some c → memory.lookup x = some c ∨ P x

theorem Grows.refl (memory : Memory) (P : String → Prop) : Grows memory memory P :=
  ⟨fun _ _ h => h, fun _ _ h => .inl h⟩

theorem Grows.trans {memory'' : Memory} {P Q R : String → Prop} (h : Grows memory memory' P)
    (h' : Grows memory' memory'' Q) (hP : ∀ x, P x → R x) (hQ : ∀ x, Q x → R x) :
    Grows memory memory'' R := by
  refine ⟨fun x c hx => h'.keeps x c (h.keeps x c hx), fun x c hx => ?_⟩
  rcases h'.isNew x c hx with hx | hx
  · exact (h.isNew x c hx).imp_right (hP x)
  · exact .inr (hQ x hx)

/-- What a question for `y` does that is answered by `c`. -/
structure Answered (active : List String) (y : String) (memory : Memory) (c : Classification)
    (memory' : Memory) : Prop where
  sound : q.Sound active memory'
  grows : Grows memory memory' (ReflTransGen (Follows q.of) y)
  fits : q.Fits active y c
  remembered : memory'.lookup y = some c ∨ y ∈ active ∧ ¬ c.isClassified
  again : ∀ c', memory.lookup y = some c' → c = c'

/-- Questions are answered while the macros in `active` are in progress, and fail only where the
macro settles to a fault. -/
def Answers (active : List String) (ask : String → Classifying Classification) : Prop :=
  ∀ y memory, q.Sound active memory →
    (∀ c memory', (ask y).run memory = .ok (c, memory') → q.Answered active y memory c memory')
      ∧ ∀ e, (ask y).run memory = .error e → Settles q.of (q.of y) (.error e)

/-- What the rest `t` of the inquiry about `z` does that ends with `c`. -/
structure Ended (active : List String) (z : String) (t : Inquiry Classification) (memory : Memory)
    (c : Classification) (memory' : Memory) : Prop where
  sound : q.Sound active memory'
  grows : Grows memory memory' (TransGen (Follows q.of) z)
  settles : c.isClassified → Settles q.of t (.ok c)
  unique : ∀ r, Settles q.of t r → r = .ok c ∨ ∃ a ∈ active, TransGen (Follows q.of) z a
  isLike : IsLike (q.shell z) c

theorem Sound.weaken (h : q.Sound active memory) (hz : memory.lookup z = none) :
    q.Sound (z :: active) memory := by
  refine ⟨fun a ha => ?_, fun x c hx => ?_, h.isLike⟩
  · rcases List.mem_cons.mp ha with rfl | ha
    · exact hz
    · exact h.inProgress a ha
  · refine ⟨(h.fits x c hx).settles, fun r hr => ((h.fits x c hx).unique r hr).imp_right ?_⟩
    rintro ⟨a, ha, hReach⟩
    exact ⟨a, List.mem_cons_of_mem z ha, hReach⟩

variable {q}

/-- A question that was answered by a macro that follows a pattern, and the rest after it. -/
theorem Ended.asked {n : String} {next : Classification → Inquiry Classification}
    {c' : Classification} {between : Memory} (hNow : Follows q.of z n)
    (hAnswered : q.Answered active n memory c' between) (hClassified : c'.isClassified)
    (hEnded : q.Ended active z (next c') between c memory') :
    q.Ended active z (.ask n next) memory c memory' where
  sound := hEnded.sound
  grows := hAnswered.grows.trans hEnded.grows (fun _ hx => .head' hNow hx) fun _ hx => hx
  settles hc := .answered (hAnswered.fits.settles hClassified) (hEnded.settles hc)
  unique r hr := by
    cases hr with
    | answered hOther hRest =>
        cases hOther.unique (hAnswered.fits.settles hClassified)
        exact hEnded.unique r hRest
    | failed hOther => cases hOther.unique (hAnswered.fits.settles hClassified)
  isLike := hEnded.isLike

/-- A question that was answered by a macro that follows no pattern, which is the end. -/
theorem Ended.stop {n : String} {next : Classification → Inquiry Classification}
    {a c' : Classification} (hNow : Follows q.of z n)
    (hAnswered : q.Answered active n memory c' memory') (hNext : next c' = .done (.ok a))
    (hShell : IsShell (q.shell z) a) : q.Ended active z (.ask n next) memory a memory' where
  sound := hAnswered.sound
  grows := hAnswered.grows.trans (.refl _ fun _ => False) (fun _ hx => .head' hNow hx)
    fun _ hx => hx.elim
  settles hc := absurd hc hShell.1
  unique r hr := by
    have hLeads : (∃ b ∈ active, ReflTransGen (Follows q.of) n b) →
        ∃ b ∈ active, TransGen (Follows q.of) z b := by
      rintro ⟨b, hb, hReach⟩
      exact ⟨b, hb, .head' hNow hReach⟩
    cases hr with
    | answered hOther hRest =>
        rcases hAnswered.fits.unique _ hOther with hEq | hReach
        · cases hEq
          rw [hNext] at hRest
          exact .inl (hRest.unique (.done _))
        · exact .inr (hLeads hReach)
    | failed hOther =>
        rcases hAnswered.fits.unique _ hOther with hEq | hReach
        · cases hEq
        · exact .inr (hLeads hReach)
  isLike _ := hShell.2

/-- An inquiry that is over. -/
theorem ended_done {result : Except FoldError Classification} {seen : List String}
    (hHeeds : (Inquiry.done result).Heeds (IsShell (q.shell z)) (fun _ => IsLike (q.shell z)) seen)
    (hSound : q.Sound active memory) :
    (∀ c memory', ((Inquiry.done result).run ask).run memory = .ok (c, memory') →
        q.Ended active z (.done result) memory c memory')
      ∧ ∀ e, ((Inquiry.done result).run ask).run memory = .error e →
        Settles q.of (.done result) (.error e) := by
  cases result with
  | ok a =>
      refine ⟨fun c memory' hRun => ?_, fun e hRun => (by cases hRun)⟩
      cases hRun
      refine ⟨hSound, .refl _ _, fun _ => .done _, fun r hr => .inl ?_, hHeeds⟩
      exact hr.unique (.done _)
  | error e =>
      refine ⟨fun c memory' hRun => (by cases hRun), fun e' hRun => ?_⟩
      cases hRun
      exact .done _

/-- The rest of an inquiry, if its questions are answered. -/
theorem ended_of_run (hAsk : q.Answers active ask) {seen : List String}
    (hHeeds : t.Heeds (IsShell (q.shell z)) (fun _ => IsLike (q.shell z)) seen)
    (hSeen : ∀ n ∈ seen, ∃ c, memory.lookup n = some c ∧ c.isClassified)
    (hFollows : ∀ y, Asks q.of y t → Follows q.of z y) (hSound : q.Sound active memory) :
    (∀ c memory', (t.run ask).run memory = .ok (c, memory') → q.Ended active z t memory c memory')
      ∧ ∀ e, (t.run ask).run memory = .error e → Settles q.of t (.error e) := by
  induction t generalizing seen memory with
  | done result => exact ended_done hHeeds hSound
  | ask n next ih =>
      have hNow : Follows q.of z n := hFollows n .now
      obtain ⟨hOk, hError⟩ := hAsk n memory hSound
      rw [run_ask, StateT.run_bind]
      cases hAnswer : (ask n).run memory with
      | error e =>
          refine ⟨fun c memory' hRun => (by cases hRun), fun e' hRun => ?_⟩
          cases hRun
          exact .failed (hError e hAnswer)
      | ok pair =>
          obtain ⟨c', between⟩ := pair
          have hAnswered := hOk c' between hAnswer
          change (∀ c memory', ((next c').run ask).run between = .ok (c, memory') → _)
            ∧ ∀ e, ((next c').run ask).run between = .error e → _
          by_cases hClassified : c'.isClassified
          · have hSettles := hAnswered.fits.settles hClassified
            have hSeen' : ∀ m ∈ n :: seen, ∃ d, between.lookup m = some d ∧ d.isClassified := by
              intro m hm
              rcases List.mem_cons.mp hm with rfl | hm
              · refine ⟨c', hAnswered.remembered.resolve_right fun h => h.2 hClassified,
                  hClassified⟩
              · obtain ⟨d, hd, hdClassified⟩ := hSeen m hm
                exact ⟨d, hAnswered.grows.keeps m d hd, hdClassified⟩
            obtain ⟨hNextOk, hNextError⟩ := ih c' (hHeeds.1 c' hClassified) hSeen'
              (fun y hy => hFollows y (.later hSettles hy)) hAnswered.sound
            exact ⟨fun c memory' hRun => .asked hNow hAnswered hClassified (hNextOk c memory' hRun),
              fun e hRun => .answered hSettles (hNextError e hRun)⟩
          · -- A macro that was asked for before was found to follow a pattern, so this is a new
            -- one.
            have hNew : n ∉ seen := by
              intro hn
              obtain ⟨d, hd, hdClassified⟩ := hSeen n hn
              exact hClassified (hAnswered.again d hd ▸ hdClassified)
            obtain ⟨a, hNext, hShell⟩ := hHeeds.2 hNew c' hClassified
            rw [hNext]
            refine ⟨fun c memory' hRun => ?_, fun e hRun => (by cases hRun)⟩
            cases hRun
            exact .stop hNow hAnswered hNext hShell

/-- The classification of `z` as a whole. What leads back to `z` and was found meanwhile is asked
for by `z`, so if it settled, `z` would lead back to itself and settle. -/
theorem Ended.answered (hSound : q.Sound active memory) (hz : memory.lookup z = none)
    (hActive : z ∉ active) (h : q.Ended (z :: active) z (q.of z) memory c memory') :
    q.Answered active z memory c ((z, c) :: memory') := by
  have hFits : q.Fits active z c := by
    refine ⟨h.settles, fun r hr => (h.unique r hr).imp_right ?_⟩
    rintro ⟨a, ha, hReach⟩
    rcases List.mem_cons.mp ha with rfl | ha
    · exact absurd hReach hr.not_transGen
    · exact ⟨a, ha, hReach.to_reflTransGen⟩
  have hOthers : ∀ x d, memory'.lookup x = some d → q.Fits active x d := by
    intro x d hx
    refine ⟨(h.sound.fits x d hx).settles, fun r hr => ?_⟩
    rcases h.grows.isNew x d hx with hOld | hNew
    · exact (hSound.fits x d hOld).unique r hr
    · refine ((h.sound.fits x d hx).unique r hr).imp_right ?_
      rintro ⟨a, ha, hReach⟩
      rcases List.mem_cons.mp ha with rfl | ha
      · obtain ⟨r', hSettles⟩ := hr.exists_of_reflTransGen hReach
        exact absurd (hNew.trans_left hReach) hSettles.not_transGen
      · exact ⟨a, ha, hReach⟩
  have hLookup : ∀ x d, ((z, c) :: memory').lookup x = some d →
      (x = z ∧ d = c) ∨ memory'.lookup x = some d := by
    intro x d hx
    rw [List.lookup_cons] at hx
    split at hx
    · rename_i hEq
      exact .inl ⟨by simpa using hEq, by simpa using hx.symm⟩
    · exact .inr hx
  have hForgotten := h.sound.inProgress z List.mem_cons_self
  refine ⟨⟨fun a ha => ?_, fun x d hx => ?_, fun x d hx => ?_⟩,
    ⟨fun x d hx => ?_, fun x d hx => ?_⟩, hFits, .inl List.lookup_cons_self, fun d hd => ?_⟩
  · rw [List.lookup_cons, beq_eq_false_iff_ne.mpr (fun hEq : a = z => hActive (hEq ▸ ha))]
    exact h.sound.inProgress a (List.mem_cons_of_mem z ha)
  · rcases hLookup x d hx with ⟨rfl, rfl⟩ | hx
    · exact hFits
    · exact hOthers x d hx
  · rcases hLookup x d hx with ⟨rfl, rfl⟩ | hx
    · exact h.isLike
    · exact h.sound.isLike x d hx
  · have hOther : x ≠ z := by
      rintro rfl
      rw [hz] at hx
      cases hx
    rw [List.lookup_cons, beq_eq_false_iff_ne.mpr hOther]
    exact h.grows.keeps x d hx
  · rcases hLookup x d hx with ⟨rfl, rfl⟩ | hx
    · exact .inr .refl
    · exact (h.grows.isNew x d hx).imp_right TransGen.to_reflTransGen
  · rw [hz] at hd
    cases hd

end Inquiries

section

variable {s : Survey} {budget : Nat} {active : List String} {name : String} {memory : Memory}

theorem run_classifyWithin_of_lookup {c : Classification} (h : memory.lookup name = some c) :
    (s.classifyWithin budget active name).run memory = .ok (c, memory) := by
  unfold classifyWithin
  simp only [List.contains_eq_mem, decide_eq_true_eq, bind_pure_comp, StateT.run_bind,
    StateT.run_get, pure_bind, h, StateT.run_pure]
  rfl

theorem run_classifyWithin_of_mem (h : memory.lookup name = none) (hActive : name ∈ active) :
    (s.classifyWithin budget active name).run memory
      = .ok (s.refuse name .recursive none [], memory) := by
  unfold classifyWithin
  simp only [List.contains_eq_mem, hActive, decide_true, ↓reduceIte, StateT.run_bind,
    StateT.run_get, pure_bind, h, StateT.run_pure]
  rfl

theorem run_classifyWithin_succ (h : memory.lookup name = none) (hActive : name ∉ active) :
    (s.classifyWithin (budget + 1) active name).run memory
      = (s.classifyNew (s.classifyWithin budget (name :: active)) name).run memory >>= fun result =>
          .ok (result.1, (name, result.1) :: result.2) := by
  conv_lhs => unfold classifyWithin
  simp only [List.contains_eq_mem, hActive, decide_false, Bool.false_eq_true, ↓reduceIte,
    bind_pure_comp, StateT.run_bind, StateT.run_get, pure_bind, h, StateT.run_map,
    StateT.run_modify, map_pure]
  rfl

end

namespace Inquiries

variable {s : Survey} (q : s.Inquiries) {active : List String} {memory memory' : Memory}
  {name : String} {c : Classification}

/-- A macro is classified right if the macros that it asks for are. -/
theorem answered_of_new {budget : Nat}
    (hAsk : name ∈ s.table.names →
      q.Answers (name :: active) (s.classifyWithin budget (name :: active)))
    (hSound : q.Sound active memory) (hLookup : memory.lookup name = none)
    (hActive : name ∉ active) :
    (∀ c memory', (s.classifyWithin (budget + 1) active name).run memory = .ok (c, memory') →
        q.Answered active name memory c memory')
      ∧ ∀ e, (s.classifyWithin (budget + 1) active name).run memory = .error e →
        Settles q.of (q.of name) (.error e) := by
  rw [run_classifyWithin_succ hLookup hActive]
  have hHeeds := (q.isInquiry name).2
  have hWeak := hSound.weaken q hLookup
  have hEnded :
    (∀ c memory', ((q.of name).run (s.classifyWithin budget (name :: active))).run memory
        = .ok (c, memory') → q.Ended (name :: active) name (q.of name) memory c memory')
      ∧ ∀ e, ((q.of name).run (s.classifyWithin budget (name :: active))).run memory = .error e →
        Settles q.of (q.of name) (.error e) := by
    by_cases hName : name ∈ s.table.names
    · exact ended_of_run (hAsk hName) hHeeds (fun _ h => nomatch h) (fun _ h => h) hWeak
    · obtain ⟨result, hDone⟩ := q.isDone name hName
      rw [hDone] at hHeeds ⊢
      exact ended_done hHeeds hWeak
  rw [q.classifyNew_eq_run]
  refine ⟨fun c memory' h => ?_, fun e h => ?_⟩
  · obtain ⟨⟨a, between⟩, hInquiry, hEq⟩ := Except.bind_eq_ok_iff.mp h
    cases hEq
    exact (hEnded.1 a between hInquiry).answered hSound hLookup hActive
  · rcases Except.bind_eq_error_iff.mp h with hInquiry | ⟨pair, -, hEq⟩
    · exact hEnded.2 e hInquiry
    · cases hEq

/-- Macros are classified right as long as the budget exceeds the number of names that are not in
progress. -/
theorem answers_classifyWithin {budget : Nat} (hNodup : active.Nodup)
    (hNames : active ⊆ s.table.names)
    (hBudget : s.table.names.length < budget + active.length) :
    q.Answers active (s.classifyWithin budget active) := by
  induction budget generalizing active with
  | zero =>
      have hLength := hNodup.length_le_of_subset hNames
      omega
  | succ budget ih =>
      intro name memory hSound
      cases hLookup : memory.lookup name with
      | some c =>
          rw [run_classifyWithin_of_lookup hLookup]
          refine ⟨fun c' memory' hRun => ?_, fun e hRun => (by cases hRun)⟩
          cases hRun
          exact ⟨hSound, .refl _ _, hSound.fits name c hLookup, .inl hLookup,
            fun c' hc' => Option.some.inj (hLookup.symm.trans hc')⟩
      | none =>
          by_cases hActive : name ∈ active
          · rw [run_classifyWithin_of_mem hLookup hActive]
            refine ⟨fun c' memory' hRun => ?_, fun e hRun => (by cases hRun)⟩
            cases hRun
            have hRefused : ¬ (s.refuse name .recursive none []).isClassified :=
              not_isClassified_refuse .recursive none []
            refine ⟨hSound, .refl _ _, ⟨fun hc => absurd hc hRefused, fun r _ => .inr ?_⟩,
              .inr ⟨hActive, hRefused⟩, fun c' hc' => ?_⟩
            · exact ⟨name, hActive, .refl⟩
            · rw [hLookup] at hc'
              cases hc'
          · refine q.answered_of_new (fun hName => ?_) hSound hLookup hActive
            refine ih (hNodup.cons hActive) (List.cons_subset.mpr ⟨hName, hNames⟩) ?_
            rw [List.length_cons]
            omega

theorem answers_classify : q.Answers [] s.classify :=
  q.answers_classifyWithin List.nodup_nil (List.nil_subset _) (by simp)

/-- What a macro is found to be: what it settles to, and else a refusal that only the reason tells
apart from others. -/
structure Finds (name : String) (c : Classification) : Prop where
  fits : q.Fits [] name c
  isLike : IsLike (q.shell name) c

/-- Macros asked for one after another are found to be what they are. -/
theorem finds_of_run_mapM {names : List String} (hSound : q.Sound [] memory) :
    (∀ cs memory', (names.mapM s.classify).run memory = .ok (cs, memory') →
        List.Forall₂ q.Finds names cs)
      ∧ ∀ e, (names.mapM s.classify).run memory = .error e →
        ∃ name ∈ names, Settles q.of (q.of name) (.error e) := by
  induction names generalizing memory with
  | nil =>
      refine ⟨fun cs memory' hRun => ?_, fun e hRun => (by cases hRun)⟩
      cases hRun
      exact .nil
  | cons name names ih =>
      obtain ⟨hOk, hError⟩ := q.answers_classify name memory hSound
      rw [List.mapM_cons, StateT.run_bind]
      refine ⟨fun cs memory' hRun => ?_, fun e hRun => ?_⟩
      · obtain ⟨⟨c, between⟩, hc, hRun⟩ := Except.bind_eq_ok_iff.mp hRun
        rw [StateT.run_bind] at hRun
        obtain ⟨⟨rest, memory''⟩, hRest, hEq⟩ := Except.bind_eq_ok_iff.mp hRun
        cases hEq
        have hAnswered := hOk c between hc
        have hRemembered := hAnswered.remembered.resolve_right fun h => List.not_mem_nil h.1
        exact .cons ⟨hAnswered.fits, hAnswered.sound.isLike name c hRemembered⟩
          ((ih hAnswered.sound).1 rest _ hRest)
      · rcases Except.bind_eq_error_iff.mp hRun with hc | ⟨⟨c, between⟩, hc, hRun⟩
        · exact ⟨name, List.mem_cons_self, hError e hc⟩
        · rw [StateT.run_bind] at hRun
          rcases Except.bind_eq_error_iff.mp hRun with hRest | ⟨pair, -, hEq⟩
          · obtain ⟨n, hn, hSettles⟩ := (ih (hOk c between hc).sound).2 e hRest
            exact ⟨n, List.mem_cons_of_mem name hn, hSettles⟩
          · cases hEq

theorem sound_nil : q.Sound [] [] :=
  ⟨fun _ h => (nomatch h), fun _ _ h => (nomatch h), fun _ _ h => (nomatch h)⟩

theorem finds_of_classifyNames {names : List String} {cs : List Classification}
    (h : s.classifyNames names = .ok cs) : List.Forall₂ q.Finds names cs := by
  obtain ⟨⟨results, memory⟩, hRun, hResults⟩ := Except.bind_eq_ok_iff.mp h
  cases hResults
  exact (q.finds_of_run_mapM q.sound_nil).1 _ _ hRun

theorem settles_of_classifyNames {names : List String} {e : FoldError}
    (h : s.classifyNames names = .error e) :
    ∃ name ∈ names, Settles q.of (q.of name) (.error e) := by
  rcases Except.bind_eq_error_iff.mp h with hRun | ⟨pair, -, hEq⟩
  · exact (q.finds_of_run_mapM q.sound_nil).2 e hRun
  · cases hEq

variable {q} in
theorem Finds.not_settles_error {e : FoldError} (h : q.Finds name c) :
    ¬ Settles q.of (q.of name) (.error e) := by
  intro hSettles
  rcases h.fits.unique _ hSettles with hEq | ⟨a, ha, -⟩
  · cases hEq
  · cases ha

variable {q} in
/-- A macro is found to be one thing, up to the reason. -/
theorem Finds.sameButReason {c c' : Classification} (h : q.Finds name c) (h' : q.Finds name c') :
    c.SameButReason c' := by
  by_cases hc : c.isClassified
  · have hEq := (h'.fits.unique _ (h.fits.settles hc)).resolve_right (by simp)
    rw [Except.ok.inj hEq]
    rfl
  · by_cases hc' : c'.isClassified
    · have hEq := (h.fits.unique _ (h'.fits.settles hc')).resolve_right (by simp)
      exact absurd (Except.ok.inj hEq ▸ hc') hc
    · exact (h.isLike hc).trans (h'.isLike hc').symm

include q in
/-- More budget than there are names changes nothing. -/
theorem classifyWithin_succ {budget : Nat} (hNodup : active.Nodup) (hNames : active ⊆ s.table.names)
    (hBudget : s.table.names.length < budget + active.length) :
    s.classifyWithin (budget + 1) active = s.classifyWithin budget active := by
  induction budget generalizing active with
  | zero =>
      have hLength := hNodup.length_le_of_subset hNames
      omega
  | succ budget ih =>
      funext name
      refine StateT.ext fun memory => ?_
      cases hLookup : memory.lookup name with
      | some c => rw [run_classifyWithin_of_lookup hLookup, run_classifyWithin_of_lookup hLookup]
      | none =>
          by_cases hActive : name ∈ active
          · rw [run_classifyWithin_of_mem hLookup hActive,
              run_classifyWithin_of_mem hLookup hActive]
          rw [run_classifyWithin_succ hLookup hActive, run_classifyWithin_succ hLookup hActive]
          have hNew : s.classifyNew (s.classifyWithin (budget + 1) (name :: active)) name
              = s.classifyNew (s.classifyWithin budget (name :: active)) name := by
            by_cases hName : name ∈ s.table.names
            · rw [ih (hNodup.cons hActive) (List.cons_subset.mpr ⟨hName, hNames⟩) (by simp; omega)]
            · obtain ⟨result, hDone⟩ := q.isDone name hName
              rw [q.classifyNew_eq_run, q.classifyNew_eq_run, hDone]
              rfl
          rw [hNew]

end Inquiries

/-- A macro that needs no other one is found to be what it is. -/
theorem mem_of_classifyNew_eq_pure {s : Survey} {name : String} {cs : List Classification}
    {c : Classification} (hs : s.NamesDefinitions) (h : s.classifyAll = .ok cs)
    (hName : name ∈ s.table.names) (hPure : ∀ ask, s.classifyNew ask name = pure c) : c ∈ cs := by
  obtain ⟨q⟩ := nonempty_inquiries hs
  have hDone : q.of name = .done (.ok c) :=
    Inquiry.eq_done_of_run fun answer => (q.classifyNew_eq_run name answer).symm.trans
      (hPure answer)
  obtain ⟨found, hFound, hFinds⟩ := (q.finds_of_classifyNames h).exists_right hName
  have hSettles : Inquiry.Settles q.of (q.of name) (.ok c) := by
    rw [hDone]
    exact .done _
  rcases hFinds.fits.unique _ hSettles with hSame | ⟨_, hActive, -⟩
  · rwa [Except.ok.inj hSame]
  · cases hActive

end Survey

end Demacro
