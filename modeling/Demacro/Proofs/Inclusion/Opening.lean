import Demacro.Proofs.Failure
import Demacro.Proofs.Success
import Demacro.Unit

/-!
The files that are opened while a unit is read. A live include line opens the file that it names,
unless that file was marked as one that is not read again; and while the file is open, its lines
open others. Where includes are nested too deeply, as many files are open one inside the other as
the limit says: whatever is wrong with the tokens or the directives of a file, it is not that.
-/

namespace Demacro

theorem Piece.first_ne_tooDeep {t : Text} {fault : Fault} (h : first t = .error fault) :
    fault ≠ .tooDeep := by
  have hWord : ∀ {n}, wordToken t n = .error fault → fault ≠ .tooDeep := by
    intro n h
    unfold wordToken at h
    dsimp only at h
    repeat' split at h
    all_goals cases h
    nofun
  unfold first at h
  repeat' split at h
  all_goals try cases h
  · nofun
  · rw [Except.map_eq_error_iff] at h
    unfold tokenAt at h
    repeat' split at h
    all_goals try cases h
    exact hWord h

theorem Token.ofText_ne_tooDeep {path : String} {t : Text} {e : ParseError}
    (h : ofText path t = .error e) : e.fault ≠ .tooDeep := by
  have hAt : ∀ {p atLineStart spaced t}, ofTextAt path p atLineStart spaced t = .error e →
      e.fault ≠ .tooDeep := by
    intro p atLineStart spaced t h
    fun_induction ofTextAt path p atLineStart spaced t with
    | case1 => cases h
    | case2 p atLineStart spaced c t fault hFault =>
        cases h
        exact Piece.first_ne_tooDeep hFault
    | case3 => rename_i ih; exact ih h
    | case4 => rename_i ih; exact ih h
    | case5 =>
        rename_i ih
        rcases Except.bind_eq_error_iff.mp h with h | ⟨others, -, h⟩
        · exact ih h
        · cases h
  exact hAt h

namespace Directive

theorem parameters_ne_tooDeep {last : Span} {done : List String} {variadic expecting : Bool}
    {ts : List Token} {e : ParseError} (h : parameters last done variadic expecting ts = .error e) :
    e.fault ≠ .tooDeep := by
  fun_induction parameters last done variadic expecting ts
  all_goals first
    | (cases h; done)
    | (cases h; exact Fault.noConfusion)
    | (rename_i ih; exact ih h)

theorem ofLine?_ne_tooDeep {keyword : String} {first : Token} {rest : List Token} {e : ParseError}
    (h : ofLine? keyword first rest = some (.error e)) : e.fault ≠ .tooDeep := by
  have hDefine : ∀ {e}, define? first rest = .error e → e.fault ≠ .tooDeep := by
    intro e h
    unfold define? at h
    dsimp only at h
    repeat' split at h
    all_goals try cases h
    all_goals try exact Fault.noConfusion
    exact parameters_ne_tooDeep (Except.map_eq_error_iff.mp h)
  have hUndef : ∀ {e}, undef? first rest = .error e → e.fault ≠ .tooDeep := by
    intro e h
    unfold undef? at h
    repeat' split at h
    all_goals cases h
    all_goals exact Fault.noConfusion
  unfold ofLine? at h
  repeat' split at h
  · rw [Option.some.injEq, Except.map_eq_error_iff] at h
    exact hDefine h
  · rw [Option.some.injEq, Except.map_eq_error_iff] at h
    exact hUndef h
  · cases h

end Directive

/-- The error is not that includes are nested too deeply. -/
def ScanError.NotTooDeep (e : ScanError) : Prop :=
  ∀ p, e = .malformed p → p.fault ≠ .tooDeep

theorem ScanError.notTooDeep_malformed {p : ParseError} :
    NotTooDeep (.malformed p) ↔ p.fault ≠ .tooDeep := by
  constructor
  · intro h
    exact h p rfl
  · rintro h _ ⟨⟩
    exact h

namespace Group

variable {groups : List Group} {c : Conditional} {body : List Token} {span : Span}
  {live isGuard : Bool} {e : ScanError}

theorem certainty_notTooDeep (h : certainty body = .error e) : e.NotTooDeep := by
  obtain ⟨digits, -, rfl⟩ := Except.mapError_eq_error_iff.mp h
  nofun

theorem opened_notTooDeep (h : opened c body span live isGuard = .error e) :
    e.NotTooDeep := by
  unfold opened at h
  dsimp only at h
  split at h
  · split at h
    · cases h
      exact ScanError.notTooDeep_malformed.mpr Fault.noConfusion
    · rcases Except.bind_eq_error_iff.mp h with h | ⟨known, -, h⟩
      · exact certainty_notTooDeep h
      · cases h
  · split at h
    · cases h
      exact ScanError.notTooDeep_malformed.mpr Fault.noConfusion
    · cases h

theorem next_notTooDeep (h : next groups c body span live isGuard = .error e) : e.NotTooDeep := by
  unfold next at h
  split at h
  · exact opened_notTooDeep (Except.map_eq_error_iff.mp h)
  · repeat' split at h
    · cases h
      exact ScanError.notTooDeep_malformed.mpr Fault.noConfusion
    · cases h
    · cases h
      exact ScanError.notTooDeep_malformed.mpr Fault.noConfusion
    · cases h
    · cases h
    · exact certainty_notTooDeep (Except.map_eq_error_iff.mp h)

end Group

namespace Reading

/-- A file that is opened, with what was read in front of it. -/
structure Opening where
  path : String
  text : Text
  outer : Reachability
  before : Reading

/-- Reads the opened file. -/
def Opening.read (o : Opening) (follow : Follow) : Except ScanError Reading :=
  follow o.path o.text o.outer o.before

/-- The line of a file marks the file as one that is not read again. -/
def marksOnce (line : List Token) : Bool :=
  Directive.isLine line && ((Directive.split line).1 == "pragma"
    && (Directive.split line).2.head?.any (·.lexeme == Text.ofString "once"))

/-- The line of a file is an include line. -/
def isInclude (line : List Token) : Bool :=
  Directive.isLine line && (Directive.split line).1 == "include"

/-- The reading with a file in it of which no line was read. -/
def started (r : Reading) (path : String) (text : Text) (lines : List (List Token)) : Reading :=
  { r with
    files := assign path text r.files
    guards := (includeGuard? lines).elim r.guards fun g => assign path g.display r.guards }

/-- A line that opens a file: it is a live include line, and the file that it names is not
marked. -/
structure LeadsTo (s : IncludeSearch) (path : String) (outer : Reachability) (first : Token)
    (rest : List Token) (groups : List Group) (r : Reading) (o : Opening) : Prop where
  isInclude : isInclude (first :: rest) = true
  outer : o.outer = Group.reachability groups outer
  live : o.outer ≠ .disabled
  named : ∃ target data, quotedTarget? (Directive.split (first :: rest)).2 = some target
    ∧ resolve s path target = .ok (some (o.path, data)) ∧ o.text = Text.decode data
  fresh : o.path ∉ r.once
  before : o.before = r.add ⟨first, rest, o.outer, .directive "include" none false⟩

/-- What the reading of a line comes to. It is added, and may mark its own file; or it is refused;
or it opens a file, and is read as that file. -/
inductive LineStep (s : IncludeSearch) (follow : Option Follow) (path : String)
    (outer : Reachability) (first : Token) (rest : List Token) (groups : List Group) (r : Reading) :
    Except ScanError Reading → Prop where
  | added (line : UnitLine) (hFirst : line.first = first) (hRest : line.rest = rest) :
      LineStep s follow path outer first rest groups r
        (.ok (if marksOnce (first :: rest) then (r.add line).addOnce path else r.add line))
  | refused {e : ScanError} (h : ∀ f ∈ follow, e.NotTooDeep) :
      LineStep s follow path outer first rest groups r (.error e)
  | opened {f : Follow} {o : Opening} (hf : f ∈ follow)
      (h : LeadsTo s path outer first rest groups r o) :
      LineStep s follow path outer first rest groups r (o.read f)

/-- Some line of a file opens another file. -/
inductive OpensFrom (s : IncludeSearch) (follow : Option Follow) (path : String)
    (outer : Reachability) : Bool → List (List Token) → List Group → Reading → Opening → Prop where
  | here {isGuard : Bool} {first : Token} {rest : List Token} {lines : List (List Token)}
      {groups : List Group} {r : Reading} {o : Opening}
      (h : LeadsTo s path outer first rest groups r o) :
      OpensFrom s follow path outer isGuard ((first :: rest) :: lines) groups r o
  | blank {isGuard : Bool} {lines : List (List Token)} {groups : List Group} {r : Reading}
      {o : Opening} (hRest : OpensFrom s follow path outer false lines groups r o) :
      OpensFrom s follow path outer isGuard ([] :: lines) groups r o
  | later {isGuard : Bool} {first : Token} {rest : List Token} {lines : List (List Token)}
      {groups groups' : List Group} {r r' : Reading} {o : Opening}
      (hLine : addLine (some s) follow path outer isGuard first rest groups r = .ok (groups', r'))
      (hRest : OpensFrom s follow path outer false lines groups' r' o) :
      OpensFrom s follow path outer isGuard ((first :: rest) :: lines) groups r o

/-- An opened file opens another one, in which includes may be nested `budget` deep. -/
def Opens (s : IncludeSearch) (budget : Nat) (o o' : Opening) : Prop :=
  ∃ tokens, Token.ofText o.path o.text = .ok tokens
    ∧ OpensFrom s (some (addFileWithin (some s) budget)) o.path o.outer
        (includeGuard? (Token.logicalLines tokens)).isSome (Token.logicalLines tokens) []
        (o.before.started o.path o.text (Token.logicalLines tokens)) o'

/-- Files that are open one inside the other, the outermost first. -/
inductive Nested (s : IncludeSearch) : Nat → Opening → List String → Prop where
  | self (budget : Nat) (o : Opening) : Nested s budget o [o.path]
  | enter {budget : Nat} {o o' : Opening} {chain : List String} (h : Opens s budget o o')
      (hRest : Nested s budget o' chain) : Nested s (budget + 1) o (o.path :: chain)

variable {s : IncludeSearch} {follow : Option Follow} {path p : String} {text : Text}
  {outer : Reachability} {isGuard : Bool} {first : Token} {rest : List Token}
  {lines : List (List Token)} {groups groups' : List Group} {r r' : Reading} {o o' : Opening}
  {budget : Nat} {chain : List String}

theorem marksOnce_eq_false (h : (Directive.split (first :: rest)).1 ≠ "pragma") :
    marksOnce (first :: rest) = false := by
  simp [marksOnce, h]

theorem LineStep.add (hMarks : marksOnce (first :: rest) = false) {line : UnitLine}
    (hFirst : line.first = first) (hRest : line.rest = rest) :
    LineStep s follow path outer first rest groups r (.ok (r.add line)) := by
  have hStep : LineStep s follow path outer first rest groups r _ := .added line hFirst hRest
  rwa [hMarks] at hStep

theorem addInclude_step {reach : Reachability} (hPunct : first.isPunct "#" = true)
    (hKeyword : (Directive.split (first :: rest)).1 = "include") (hLive : reach ≠ .disabled)
    (hReach : reach = Group.reachability groups outer) :
    LineStep s follow path outer first rest groups r
      (addInclude (some s) follow path (Directive.split (first :: rest)).2
        (fun unresolved => ⟨first, rest, reach, .directive "include" none unresolved⟩)
        (Directive.lineSpan first rest) reach r) := by
  have hMarks : marksOnce (first :: rest) = false := marksOnce_eq_false (by simp [hKeyword])
  unfold addInclude
  dsimp only
  split
  · exact .add hMarks rfl rfl
  rename_i target hTarget
  split
  · exact .refused (by simp)
  rename_i f
  split
  · exact .refused fun _ _ => nofun
  · exact .add hMarks rfl rfl
  rename_i included data hResolve
  split
  · exact .add hMarks rfl rfl
  · rename_i hFresh
    refine .opened (o := ⟨included, Text.decode data, reach, r.add _⟩) rfl ?_
    exact {
      isInclude := by simp [isInclude, Directive.isLine, hPunct, hKeyword]
      outer := hReach
      live := hLive
      named := ⟨target, data, hTarget, hResolve, rfl⟩
      fresh := by simpa using hFresh
      before := rfl }

theorem addDirective_step {reach : Reachability} (hPunct : first.isPunct "#" = true)
    (hReach : reach = Group.reachability groups outer) :
    LineStep s follow path outer first rest groups r
      (addDirective (some s) follow path first rest reach r) := by
  unfold addDirective
  dsimp only
  by_cases hPragma : (Directive.split (first :: rest)).1 = "pragma"
  · have hOther : Directive.ofLine? "pragma" first rest = none := rfl
    have hMarks : marksOnce (first :: rest)
        = (Directive.split (first :: rest)).2.head?.any (·.lexeme == Text.ofString "once") := by
      simp [marksOnce, Directive.isLine, hPunct, hPragma]
    rw [hPragma, hOther]
    simp only [String.reduceEq, false_and, if_false, true_and, ← hMarks, ← apply_ite]
    exact .added _ rfl rfl
  have hMarks := marksOnce_eq_false hPragma
  split
  · exact .add hMarks rfl rfl
  · rename_i hLine
    split
    · exact .add hMarks rfl rfl
    · exact .refused fun _ _ => ScanError.notTooDeep_malformed.mpr
        (Directive.ofLine?_ne_tooDeep hLine)
  split
  · rename_i hInclude
    obtain ⟨hKeyword, hLive⟩ := hInclude
    rw [hKeyword]
    exact addInclude_step hPunct hKeyword hLive hReach
  · rw [if_neg (fun hOnce => hPragma hOnce.1)]
    exact .add hMarks rfl rfl

theorem addLine_step : ∃ groups' x, LineStep s follow path outer first rest groups r x
    ∧ addLine (some s) follow path outer isGuard first rest groups r = x.map (groups', ·) := by
  unfold addLine
  split
  · rename_i hPunct
    dsimp only
    split
    · rename_i c hConditional
      have hMarks : marksOnce (first :: rest) = false := by
        apply marksOnce_eq_false
        intro hPragma
        rw [hPragma] at hConditional
        cases hConditional
      cases hNext : Group.next groups c (Directive.split (first :: rest)).2
        (Directive.lineSpan first rest)
          (Group.reachability (if c.isOpener then groups else groups.drop 1) outer != .disabled)
          isGuard with
      | error e => exact ⟨groups, _, .refused fun _ _ => Group.next_notTooDeep hNext, rfl⟩
      | ok next => exact ⟨next, _, .add hMarks rfl rfl, rfl⟩
    · refine ⟨groups, _, addDirective_step hPunct rfl, ?_⟩
      cases addDirective (some s) follow path first rest (Group.reachability groups outer) r <;> rfl
  · rename_i hPunct
    have hMarks : marksOnce (first :: rest) = false := by
      simp [marksOnce, Directive.isLine, hPunct]
    exact ⟨groups, _, .add hMarks rfl rfl, rfl⟩

/-- A line that is read is added. Then it opens a file, or there is nothing more to it than that it
may mark its own file. -/
theorem addLine_eq_ok
    (h : addLine (some s) follow path outer isGuard first rest groups r = .ok (groups', r')) :
    (∃ line : UnitLine, line.first = first ∧ line.rest = rest
        ∧ r' = if marksOnce (first :: rest) then (r.add line).addOnce path else r.add line)
      ∨ ∃ f ∈ follow, ∃ o, LeadsTo s path outer first rest groups r o ∧ o.read f = .ok r' := by
  obtain ⟨groups₁, x, hStep, hEq⟩ := addLine_step (s := s) (r := r)
  rw [hEq, Except.map_eq_ok_iff] at h
  obtain ⟨r₁, hx, h⟩ := h
  cases h
  cases hStep with
  | added line hFirst hRest =>
      cases hx
      exact .inl ⟨line, hFirst, hRest, rfl⟩
  | refused => cases hx
  | opened hf hLeads => exact .inr ⟨_, hf, _, hLeads, hx⟩

/-- A line that opens a file is read as the file. -/
theorem LeadsTo.addLine_eq (h : LeadsTo s path outer first rest groups r o) (f : Follow) :
    addLine (some s) (some f) path outer isGuard first rest groups r = (o.read f).map (groups,
      ·) := by
  have hInclude := h.isInclude
  simp only [Reading.isInclude, Directive.isLine, List.head?_cons, Option.any_some,
    Bool.and_eq_true, beq_iff_eq] at hInclude
  obtain ⟨hPunct, hKeyword⟩ := hInclude
  obtain ⟨target, data, hTarget, hResolve, hText⟩ := h.named
  have hConditional : Conditional.ofKeyword? "include" = none := by
    decide
  have hOther : Directive.ofLine? "include" first rest = none := rfl
  have hLive := h.live
  rw [h.outer] at hLive
  have hDirective : addDirective (some s) (some f) path first rest (Group.reachability groups outer)
    r
      = o.read f := by
    unfold addDirective
    simp only [hKeyword, hOther]
    rw [if_pos ⟨trivial, hLive⟩, addInclude, hTarget]
    simp only [hResolve]
    rw [if_neg (by simpa using h.fresh), Opening.read, hText, h.before, h.outer]
  unfold addLine
  rw [if_pos hPunct]
  simp only [hKeyword, hConditional, hDirective]
  cases o.read f <;> rfl

theorem addFile_eq_ok {search : Option IncludeSearch}
    (h : addFile search follow path text outer r = .ok r') :
    ∃ tokens last, Token.ofText path text = .ok tokens
      ∧ addLines search follow path outer (includeGuard? (Token.logicalLines tokens)).isSome
          (Token.logicalLines tokens) [] (r.started path text (Token.logicalLines tokens))
          = .ok ([], last)
      ∧ r' = if (includeGuard? (Token.logicalLines tokens)).isSome then last.addOnce path
      else last := by
  unfold addFile at h
  split at h
  · cases h
  rename_i tokens hTokens
  obtain ⟨⟨groups, last⟩, hLines, h⟩ := Except.bind_eq_ok_iff.mp h
  dsimp only at h
  split at h
  · cases h
  · cases h
    exact ⟨tokens, last, hTokens, hLines, rfl⟩

/-- A file that is marked stays so. -/
theorem once_stable (p : String) : Stable fun r => p ∈ r.once where
  add _ _ h := h
  addOnce _ path h := List.mem_cons_of_mem path h

theorem addFile_keeps_once {search : Option IncludeSearch}
    (hFollow : ∀ f ∈ follow, Keeps (fun r => p ∈ r.once) f) :
    Keeps (fun r => p ∈ r.once) (addFile search follow) := by
  intro path text outer r r' _ hr h
  obtain ⟨tokens, last, -, hLines, rfl⟩ := addFile_eq_ok h
  have hLast : p ∈ last.once := addLines_keeps (once_stable p) hFollow (by exact hr) hLines
  split
  · exact List.mem_cons_of_mem path hLast
  · exact hLast

theorem addFileWithin_keeps_once (search : Option IncludeSearch) (budget : Nat) :
    Keeps (fun r => p ∈ r.once) (addFileWithin search budget) := by
  induction budget with
  | zero => exact addFile_keeps_once (by simp)
  | succ budget ih => exact addFile_keeps_once (by simpa using ih)

/-- A marked file is not opened. -/
theorem OpensFrom.of_mem_once (h : OpensFrom s follow path outer isGuard lines groups r o)
    (hFollow : ∀ f ∈ follow, Keeps (fun r => p ∈ r.once) f) (hOnce : p ∈ r.once) :
    o.path ≠ p ∧ p ∈ o.before.once := by
  induction h with
  | here h =>
      refine ⟨fun hSame => h.fresh (hSame ▸ hOnce), ?_⟩
      rw [h.before]
      exact hOnce
  | blank _ ih => exact ih hOnce
  | later hLine _ ih => exact ih (addLine_keeps (once_stable p) hFollow hOnce hLine)

theorem Opens.of_mem_once (h : Opens s budget o o') (hOnce : p ∈ o.before.once) :
    o'.path ≠ p ∧ p ∈ o'.before.once := by
  obtain ⟨tokens, -, hOpens⟩ := h
  exact hOpens.of_mem_once (by simpa using addFileWithin_keeps_once (some s) budget) hOnce

/-- No file inside of others is a marked one. -/
theorem Nested.exists_tail (h : Nested s budget o chain) (hOnce : p ∈ o.before.once) :
    ∃ others, chain = o.path :: others ∧ p ∉ others := by
  induction h with
  | self => exact ⟨[], rfl, List.not_mem_nil⟩
  | enter hOpens _ ih =>
      obtain ⟨hOther, hStill⟩ := hOpens.of_mem_once hOnce
      obtain ⟨others, rfl, hNot⟩ := ih hStill
      exact ⟨_, rfl, by simp [Ne.symm hOther, hNot]⟩

/-- The text of a file that is opened at an include is the one that was loaded. -/
theorem OpensFrom.exists_data (h : OpensFrom s follow path outer isGuard lines groups r o) :
    ∃ data, s.load o.path = .ok data ∧ o.text = Text.decode data := by
  induction h with
  | here h =>
      obtain ⟨target, data, -, hResolve, hText⟩ := h.named
      unfold resolve at hResolve
      split at hResolve
      · cases hResolve
      · exact ⟨data, findIn_eq_some hResolve, hText⟩
  | blank _ ih => exact ih
  | later _ _ ih => exact ih

/-- No marked file is opened. -/
theorem OpensFrom.fresh (h : OpensFrom s follow path outer isGuard lines groups r o) :
    o.path ∉ o.before.once := by
  induction h with
  | here h =>
      rw [h.before]
      exact h.fresh
  | blank _ ih => exact ih
  | later _ _ ih => exact ih

theorem not_isInclude_of_marksOnce {line : List Token} (h : marksOnce line = true) :
    isInclude line = false := by
  simp only [marksOnce, Bool.and_eq_true, beq_iff_eq] at h
  simp [isInclude, h.2.1]

theorem addLine_marks (hMarks : marksOnce (first :: rest) = true)
    (h : addLine (some s) follow path outer isGuard first rest groups r = .ok (groups', r')) :
    path ∈ r'.once := by
  rcases addLine_eq_ok h with ⟨line, -, -, rfl⟩ | ⟨f, -, o, hLeads, -⟩
  · rw [if_pos hMarks]
    exact List.mem_cons_self
  · have hInclude := hLeads.isInclude
    rw [not_isInclude_of_marksOnce hMarks] at hInclude
    cases hInclude

theorem addLines_marks (hFollow : ∀ f ∈ follow, Keeps (fun r => path ∈ r.once) f)
    (hMarks : ∃ line ∈ lines, marksOnce line = true)
    (h : addLines (some s) follow path outer isGuard lines groups r = .ok (groups', r')) :
    path ∈ r'.once := by
  induction lines generalizing isGuard groups r with
  | nil => simp at hMarks
  | cons line lines ih =>
      obtain ⟨marking, hMem, hMarking⟩ := hMarks
      cases line with
      | nil =>
          rcases List.mem_cons.mp hMem with rfl | hMem
          · cases hMarking
          · exact ih ⟨marking, hMem, hMarking⟩ h
      | cons first rest =>
          obtain ⟨⟨groups, r⟩, hLine, h⟩ := Except.bind_eq_ok_iff.mp h
          rcases List.mem_cons.mp hMem with rfl | hMem
          · exact addLines_keeps (once_stable path) hFollow (addLine_marks hMarking hLine) h
          · exact ih ⟨marking, hMem, hMarking⟩ h

/-- The file is read once: it has an include guard or a line that marks it. -/
def IsOnce (path : String) (text : Text) : Prop :=
  ∃ tokens, Token.ofText path text = .ok tokens
    ∧ ((includeGuard? (Token.logicalLines tokens)).isSome = true
      ∨ ∃ line ∈ Token.logicalLines tokens, marksOnce line = true)

theorem addFileWithin_eq_addFile (s : IncludeSearch) (budget : Nat) :
    ∃ follow, addFileWithin (some s) budget = addFile (some s) follow
      ∧ ∀ f ∈ follow, ∃ less, budget = less + 1 ∧ f = addFileWithin (some s) less := by
  cases budget with
  | zero => exact ⟨none, rfl, by simp⟩
  | succ budget => exact ⟨some _, rfl, by simp⟩

/-- A file that is read once is marked when it was read. -/
theorem mem_once_of_isOnce (hOnce : IsOnce path text)
    (h : addFileWithin (some s) budget path text outer r = .ok r') : path ∈ r'.once := by
  obtain ⟨tokens, hTokens, hMarks⟩ := hOnce
  obtain ⟨follow, hEq, hFollow⟩ := addFileWithin_eq_addFile s budget
  rw [hEq] at h
  obtain ⟨tokens', last, hTokens', hLines, rfl⟩ := addFile_eq_ok h
  cases hTokens.symm.trans hTokens'
  rcases hMarks with hGuard | hMarks
  · rw [if_pos hGuard]
    exact List.mem_cons_self
  · have hLast : path ∈ last.once := by
      refine addLines_marks (fun f hf => ?_) hMarks hLines
      obtain ⟨less, -, rfl⟩ := hFollow f hf
      exact addFileWithin_keeps_once (some s) less
    split
    · exact List.mem_cons_of_mem path hLast
    · exact hLast

/-- Of the lines that mark their file and the include lines, the first one is a line that marks. -/
def marksFirst (lines : List (List Token)) : Bool :=
  (lines.find? fun line => marksOnce line || isInclude line).any marksOnce

theorem OpensFrom.mem_once_of_marksFirst
    (h : OpensFrom s follow path outer isGuard lines groups r o)
    (hFollow : ∀ f ∈ follow, Keeps (fun r => path ∈ r.once) f) (hFirst : marksFirst lines = true) :
    o.path ≠ path ∧ path ∈ o.before.once := by
  induction h with
  | @here _ first rest _ _ _ _ h =>
      have hNot : marksOnce (first :: rest) = false := by
        by_contra hMarks
        have hInclude := h.isInclude
        rw [not_isInclude_of_marksOnce (by simpa using hMarks)] at hInclude
        cases hInclude
      simp [marksFirst, h.isInclude, hNot] at hFirst
  | blank _ ih => exact ih hFirst
  | @later _ first rest _ _ _ _ _ _ hLine hRest ih =>
      cases hMarks : marksOnce (first :: rest) with
      | true => exact hRest.of_mem_once hFollow (addLine_marks hMarks hLine)
      | false =>
          cases hInclude : isInclude (first :: rest) with
          | true => simp [marksFirst, hMarks, hInclude] at hFirst
          | false => exact ih (by simpa [marksFirst, hMarks, hInclude] using hFirst)

/-- The file is marked by a line in front of all its include lines. -/
def MarksFirst (path : String) (text : Text) : Prop :=
  ∀ tokens, Token.ofText path text = .ok tokens → marksFirst (Token.logicalLines tokens) = true

/-- A file that is marked in front of all its include lines is never open inside of itself. -/
theorem Nested.count_le_one (h : Nested s budget o chain) (hText : o.path = p → MarksFirst p o.text)
    (hLoad : ∀ data, s.load p = .ok data → MarksFirst p (Text.decode data)) :
    chain.count p ≤ 1 := by
  induction h with
  | self => exact List.count_le_length
  | @enter budget o o' chain hOpens hRest ih =>
      obtain ⟨tokens, hTokens, hFrom⟩ := hOpens
      obtain ⟨data, hData, hDecoded⟩ := hFrom.exists_data
      by_cases hSelf : o.path = p
      · subst hSelf
        obtain ⟨hOther, hOnce⟩ := hFrom.mem_once_of_marksFirst
          (by simpa using addFileWithin_keeps_once (some s) budget) (hText rfl tokens hTokens)
        obtain ⟨others, rfl, hNot⟩ := hRest.exists_tail hOnce
        simp [List.count_eq_zero.mpr hNot, hOther]
      · rw [List.count_cons_of_ne hSelf]
        refine ih fun hSame => ?_
        rw [hDecoded]
        exact hLoad data (hSame ▸ hData)

section Depth

variable {f : Follow} {e : ParseError}

/-- Where includes may be nested deeper, a line finds them too deep only in the file that it
opens. -/
theorem addLine_tooDeep (hDeep : e.fault = .tooDeep)
    (h : addLine (some s) (some f) path outer isGuard first rest groups r = .error (.malformed e)) :
    ∃ o, LeadsTo s path outer first rest groups r o ∧ o.read f = .error (.malformed e) := by
  obtain ⟨groups₁, x, hStep, hEq⟩ := addLine_step (s := s) (r := r)
  rw [hEq, Except.map_eq_error_iff] at h
  cases hStep with
  | added => cases h
  | refused hNot =>
      cases h
      exact absurd hDeep (ScanError.notTooDeep_malformed.mp (hNot f rfl))
  | opened hf hLeads =>
      cases hf
      exact ⟨_, hLeads, h⟩

theorem addLines_tooDeep (hDeep : e.fault = .tooDeep)
    (h : addLines (some s) (some f) path outer isGuard lines groups r = .error (.malformed e)) :
    ∃ o, OpensFrom s (some f) path outer isGuard lines groups r o
    ∧ o.read f = .error (.malformed e) := by
  induction lines generalizing isGuard groups r with
  | nil => cases h
  | cons line lines ih =>
      cases line with
      | nil =>
          obtain ⟨o, hOpens, hRead⟩ := ih h
          exact ⟨o, .blank hOpens, hRead⟩
      | cons first rest =>
          rcases Except.bind_eq_error_iff.mp h with h | ⟨⟨groups, r⟩, hLine, h⟩
          · obtain ⟨o, hLeads, hRead⟩ := addLine_tooDeep hDeep h
            exact ⟨o, .here hLeads, hRead⟩
          · obtain ⟨o, hOpens, hRead⟩ := ih h
            exact ⟨o, .later hLine hOpens, hRead⟩

theorem addFile_tooDeep (hDeep : e.fault = .tooDeep) {o : Opening}
    (h : o.read (addFileWithin (some s) (budget + 1)) = .error (.malformed e)) :
    ∃ o', Opens s budget o o' ∧ o'.read (addFileWithin (some s) budget)
    = .error (.malformed e) := by
  unfold Opening.read addFileWithin addFile at h
  split at h
  · rename_i hTokens
    cases h
    exact absurd hDeep (Token.ofText_ne_tooDeep hTokens)
  rename_i tokens hTokens
  rcases Except.bind_eq_error_iff.mp h with h | ⟨⟨groups, last⟩, -, h⟩
  · obtain ⟨o', hOpens, hRead⟩ := addLines_tooDeep hDeep h
    exact ⟨o', ⟨tokens, hTokens, hOpens⟩, hRead⟩
  · dsimp only at h
    split at h
    · cases h
      cases hDeep
    · cases h

/-- Where includes are nested too deeply, one more file is open than includes may be nested deep. -/
theorem exists_nested_of_tooDeep (hDeep : e.fault = .tooDeep) {o : Opening}
    (h : o.read (addFileWithin (some s) budget) = .error (.malformed e)) :
    ∃ chain, Nested s budget o chain ∧ chain.length = budget + 1 := by
  induction budget generalizing o with
  | zero => exact ⟨[o.path], .self 0 o, rfl⟩
  | succ budget ih =>
      obtain ⟨o', hOpens, hRead⟩ := addFile_tooDeep hDeep h
      obtain ⟨chain, hNested, hLength⟩ := ih hRead
      exact ⟨o.path :: chain, .enter hOpens hNested, by simp [hLength]⟩

end Depth

end Reading

end Demacro
