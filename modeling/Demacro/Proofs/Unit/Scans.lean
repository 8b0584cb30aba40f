import Demacro.Proofs.Lexing
import Demacro.Proofs.Inclusion.Contents

/-!
What a unit is made of. Each time that a file is scanned it adds its own lines, and behind a line
that includes a file what that file adds. So the tokens of a unit are those of its files, one inside
the other.
-/

namespace Demacro

/-- What scanning a file adds to a unit, line by line. Behind an include line that is followed
stands what scanning the included file adds. -/
inductive Scan where
  | done
  | line (tokens : List Token) (rest : Scan)
  | inclusion (tokens : List Token) (path : String) (text : Text) (inner rest : Scan)

/-- A file that is scanned for a unit. -/
structure ScannedFile where
  path : String
  text : Text
  scan : Scan

namespace Scan

/-- All tokens that are added. -/
def tokens : Scan → List Token
  | done => []
  | line ts rest => ts ++ rest.tokens
  | inclusion ts _ _ inner rest => ts ++ (inner.tokens ++ rest.tokens)

/-- The lines of the file itself. -/
def lines : Scan → List (List Token)
  | done => []
  | line ts rest => ts :: rest.lines
  | inclusion ts _ _ _ rest => ts :: rest.lines

/-- The include lines of the file itself that are followed, each with the file that it includes. -/
def inclusions : Scan → List (List Token × ScannedFile)
  | done => []
  | line _ rest => rest.inclusions
  | inclusion ts path text inner rest => (ts, ⟨path, text, inner⟩) :: rest.inclusions

/-- The files that are scanned inside the file, as often as they are. -/
def inside : Scan → List ScannedFile
  | done => []
  | line _ rest => rest.inside
  | inclusion _ path text inner rest => ⟨path, text, inner⟩ :: (inner.inside ++ rest.inside)

end Scan

namespace Reading

/-- A line of the file `path` that includes another file. -/
structure Names (search : Option IncludeSearch) (path : String) (line : List Token)
    (included : String) (text : Text) : Prop where
  isInclude : isInclude line = true
  named : ∃ s ∈ search, ∃ target data, quotedTarget? (Directive.split line).2 = some target
    ∧ resolve s path target = .ok (some (included, data)) ∧ text = Text.decode data

end Reading

namespace ScannedFile

/-- The file and those that are scanned inside of it, in the order in which they are opened. -/
def all (f : ScannedFile) : List ScannedFile :=
  f :: f.scan.inside

/-- The texts of files, with those of more files that are scanned. -/
def record (texts : List (String × Text)) (files : List ScannedFile) : List (String × Text) :=
  files.foldl (fun texts f => assign f.path f.text texts) texts

/-- The lines of the file are the logical lines of its text, and those that are followed name the
files that are scanned behind them. -/
structure Faithful (search : Option IncludeSearch) (f : ScannedFile) : Prop where
  own : Token.ofText f.path f.text = .ok f.scan.lines.flatten
  lines : f.scan.lines = Token.logicalLines f.scan.lines.flatten
  names : ∀ i ∈ f.scan.inclusions, Reading.Names search f.path i.1 i.2.path i.2.text

end ScannedFile

theorem Token.ne_nil_of_mem_logicalLines {tokens line : List Token}
    (h : line ∈ logicalLines tokens) : line ≠ [] := by
  induction tokens with
  | nil => cases h
  | cons t ts ih =>
      unfold logicalLines at h
      split at h
      · rename_i first lines hLines
        rw [hLines] at ih
        split at h
        · rcases List.mem_cons.mp h with rfl | h
          · simp
          · exact ih h
        · rcases List.mem_cons.mp h with rfl | h
          · simp
          · exact ih (List.mem_cons_of_mem _ h)
      · rcases List.mem_cons.mp h with rfl | h
        · simp
        · exact ih h

namespace Reading

variable {search : Option IncludeSearch} {follow : Option Follow} {path : String} {text : Text}
  {outer reach : Reachability} {isGuard : Bool} {first : Token} {rest : List Token}
  {lines : List (List Token)} {groups groups' : List Group} {r r' : Reading}

/-- The reading goes on with the file that a line names. -/
structure Enters (search : Option IncludeSearch) (follow : Option Follow) (path : String)
    (first : Token) (rest : List Token) (r r' : Reading) (included : String) (content : Text) :
    Prop where
  names : Names search path (first :: rest) included content
  follows : ∃ f ∈ follow, ∃ reach role, f included content reach
    (r.add ⟨first, rest, reach, role⟩) = .ok r'

/-- What comes of one line: it is added, and the file that it names may be read behind it. -/
def Takes (search : Option IncludeSearch) (follow : Option Follow) (path : String) (first : Token)
    (rest : List Token) (r r' : Reading) : Prop :=
  (∃ line : UnitLine, line.first = first ∧ line.rest = rest ∧ r'.lines = r.lines.push line
    ∧ r'.files = r.files)
    ∨ ∃ included content, Enters search follow path first rest r r' included content

theorem addInclude_takes {line : Bool → UnitLine} {span : Span} {role : LineRole}
    (hLine : ∀ unresolved, (line unresolved).first = first ∧ (line unresolved).rest = rest)
    (hFollowed : line false = ⟨first, rest, reach, role⟩)
    (hInclude : isInclude (first :: rest) = true)
    (h : addInclude search follow path (Directive.split (first :: rest)).2 line span reach r
      = .ok r') :
    Takes search follow path first rest r r' := by
  have hAdded : ∀ unresolved, Takes search follow path first rest r (r.add (line unresolved)) :=
      fun unresolved =>
    .inl ⟨line unresolved, (hLine unresolved).1, (hLine unresolved).2, rfl, rfl⟩
  unfold addInclude at h
  split at h
  · cases h
    exact hAdded false
  rename_i s
  split at h
  · cases h
    exact hAdded true
  rename_i target hTarget
  split at h
  · cases h
  rename_i f
  split at h
  · cases h
  · cases h
    exact hAdded true
  rename_i included data hResolve
  split at h
  · cases h
    exact hAdded false
  · refine .inr ⟨included, Text.decode data, ⟨hInclude, s, rfl, target, data, hTarget, hResolve,
      rfl⟩, f, rfl, reach, role, ?_⟩
    rw [← hFollowed]
    exact h

theorem addDirective_takes (hPunct : first.isPunct "#" = true)
    (h : addDirective search follow path first rest reach r = .ok r') :
    Takes search follow path first rest r r' := by
  unfold addDirective at h
  dsimp only at h
  split at h
  · cases h
    exact .inl ⟨_, rfl, rfl, rfl, rfl⟩
  · split at h
    · cases h
      exact .inl ⟨_, rfl, rfl, rfl, rfl⟩
    · cases h
  split at h
  · rename_i hKeyword
    refine addInclude_takes (fun _ => ⟨rfl, rfl⟩) rfl ?_ h
    simp [Reading.isInclude, Directive.isLine, hPunct, hKeyword.1]
  split at h <;>
    · cases h
      exact .inl ⟨_, rfl, rfl, rfl, rfl⟩

theorem addLine_takes
    (h : addLine search follow path outer isGuard first rest groups r = .ok (groups', r')) :
    Takes search follow path first rest r r' := by
  unfold addLine at h
  split at h
  · rename_i hPunct
    dsimp only at h
    split at h
    · obtain ⟨next, -, h⟩ := Except.bind_eq_ok_iff.mp h
      cases h
      exact .inl ⟨_, rfl, rfl, rfl, rfl⟩
    · obtain ⟨next, hDirective, h⟩ := Except.bind_eq_ok_iff.mp h
      cases h
      exact addDirective_takes hPunct hDirective
  · cases h
    exact .inl ⟨_, rfl, rfl, rfl, rfl⟩

/-- The reading adds the tokens of a file that is scanned, with the files inside of it, and their
texts. -/
def AddsScans (search : Option IncludeSearch) (follow : Follow) : Prop :=
  ∀ path text reach r r', follow path text reach r = .ok r' →
    ∃ scan, r'.tokens = r.tokens ++ scan.tokens
      ∧ r'.files = ScannedFile.record r.files (ScannedFile.all ⟨path, text, scan⟩)
      ∧ ∀ f ∈ ScannedFile.all ⟨path, text, scan⟩, f.Faithful search

theorem tokens_of_push {line : UnitLine} (h : r'.lines = r.lines.push line) :
    r'.tokens = r.tokens ++ line.first :: line.rest := by
  simp [tokens, h]

theorem tokens_add (line : UnitLine) : (r.add line).tokens = r.tokens ++ line.first :: line.rest :=
  tokens_of_push rfl

theorem addLines_scan (hFollow : ∀ f ∈ follow, AddsScans search f) (hNe : ∀ line ∈ lines, line ≠ [])
    (h : addLines search follow path outer isGuard lines groups r = .ok (groups', r')) :
    ∃ scan : Scan, r'.tokens = r.tokens ++ scan.tokens ∧ scan.lines = lines
      ∧ r'.files = ScannedFile.record r.files scan.inside
      ∧ (∀ i ∈ scan.inclusions, Names search path i.1 i.2.path i.2.text) ∧ ∀ f ∈ scan.inside,
      f.Faithful search := by
  induction lines generalizing isGuard groups r with
  | nil =>
      cases h
      exact ⟨.done,
        by simp [Scan.tokens], rfl, rfl, by simp [Scan.inclusions], by simp [Scan.inside]⟩
  | cons line lines ih =>
      obtain ⟨first, rest, rfl⟩ := List.exists_cons_of_ne_nil (hNe line List.mem_cons_self)
      obtain ⟨⟨groups₁, r₁⟩, hLine, h⟩ := Except.bind_eq_ok_iff.mp h
      obtain ⟨scan, hTokens, hLines, hTexts, hNames, hInside⟩ :=
        ih (fun line hLine => hNe line (List.mem_cons_of_mem _ hLine)) h
      rcases addLine_takes hLine with
        ⟨line, rfl, rfl, hPush, hSame⟩ | ⟨included, content, hNamed, f, hf, reach, role, hRead⟩
      · refine ⟨.line (line.first :: line.rest) scan, ?_,
          by rw [Scan.lines, hLines], ?_, hNames, hInside⟩
        · rw [hTokens, tokens_of_push hPush, Scan.tokens, List.append_assoc]
        · rw [hTexts, hSame, Scan.inside]
      · obtain ⟨inner, hInner, hOpened, hFiles⟩ := hFollow f hf included content reach _ r₁ hRead
        refine ⟨.inclusion (first :: rest) included content inner scan, ?_,
          by rw [Scan.lines, hLines], ?_, ?_, ?_⟩
        · rw [hTokens, hInner, tokens_add, Scan.tokens, List.append_assoc, List.append_assoc]
        · rw [hTexts, hOpened, Scan.inside, ← List.cons_append, ScannedFile.record,
            ScannedFile.record, ScannedFile.record, List.foldl_append]
          rfl
        · exact List.forall_mem_cons.mpr ⟨hNamed, hNames⟩
        · rw [Scan.inside, ← List.cons_append]
          exact List.forall_mem_append.mpr ⟨hFiles, hInside⟩

theorem addFile_scan (hFollow : ∀ f ∈ follow, AddsScans search f) :
    AddsScans search (addFile search follow) := by
  intro path text reach r r' h
  obtain ⟨tokens, last, hTokens, hLines, rfl⟩ := addFile_eq_ok h
  obtain ⟨scan, hScan, hOwn, hTexts, hNames, hInside⟩ :=
    addLines_scan hFollow (fun _ hLine => Token.ne_nil_of_mem_logicalLines hLine) hLines
  refine ⟨scan, ?_, ?_, List.forall_mem_cons.mpr ⟨⟨?_, ?_, hNames⟩, hInside⟩⟩
  · split <;> exact hScan
  · split <;> exact hTexts
  · rw [hOwn, Token.flatten_logicalLines]
    exact hTokens
  · rw [hOwn, Token.flatten_logicalLines]

theorem addFileWithin_scan (search : Option IncludeSearch) (budget : Nat) :
    AddsScans search (addFileWithin search budget) := by
  induction budget with
  | zero => exact addFile_scan (by simp)
  | succ budget ih => exact addFile_scan (by simpa using ih)

end Reading

end Demacro
