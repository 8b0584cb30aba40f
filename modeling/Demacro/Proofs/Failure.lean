import Demacro.Proofs.Analysis
import Demacro.Proofs.Classification.Failing
import Demacro.Proofs.Selection.Scanning

/-!
Units that cannot be analysed for another reason than a malformed text. There are two: a condition
that is a row of digits and no number, and a replacement with a fault for which no reason is given.
-/

namespace Demacro

namespace Conditional

/-- A condition that cannot be evaluated is a row of digits that is no number. -/
theorem lexemeCertainty_eq_error {t : Text} {digits : List Char}
    (h : lexemeCertainty t = .error digits) :
    ∃ cs, Text.chars? t = some cs ∧ digits = withoutSuffix cs ∧ digits ≠ []
      ∧ digits.all Unicode.isDigit = true ∧ Numeral.int? 10 digits = none := by
  unfold lexemeCertainty at h
  split at h
  · cases h
  split at h
  · cases h
  split at h
  · cases h
  rename_i cs hChars
  dsimp only at h
  split at h
  · cases h
  rename_i hRow
  split at h
  · cases h
  · rename_i hValue
    cases h
    simp only [Bool.or_eq_true, List.isEmpty_iff, Bool.not_eq_true', not_or,
      Bool.not_eq_false] at hRow
    exact ⟨cs, hChars, rfl, hRow.1, hRow.2, hValue⟩

/-- A condition that is a row of digits without a value, perhaps with the letters of a suffix and in
parentheses. -/
def IsUnreadable (body : List Token) (digits : List Char) : Prop :=
  ∃ lexeme cs, withoutParentheses (body.map Token.lexeme) = [lexeme] ∧ Text.chars? lexeme = some cs
    ∧ digits = withoutSuffix cs ∧ digits ≠ [] ∧ digits.all Unicode.isDigit = true
    ∧ Numeral.int? 10 digits = none

theorem lexemeCertainty_of_unreadable {lexeme : Text} {cs : List Char}
    (hChars : Text.chars? lexeme = some cs) (hSome : withoutSuffix cs ≠ [])
    (hDigits : (withoutSuffix cs).all Unicode.isDigit = true)
    (hNone : Numeral.int? 10 (withoutSuffix cs) = none) :
    lexemeCertainty lexeme = .error (withoutSuffix cs) := by
  -- The four lexemes that are looked for have values or are names.
  have hOther : ∀ known ∈ ["1", "true", "0", "false"], lexeme ≠ Text.ofString known := by
    intro known hKnown hLexeme
    subst hLexeme
    have hNames : ∀ known ∈ ["1", "true", "0", "false"], ∀ cs ∈ Text.chars? (Text.ofString known),
        (withoutSuffix cs).all Unicode.isDigit = false
        ∨ (Numeral.int? 10 (withoutSuffix cs)).isSome = true := by
      decide
    rcases hNames known hKnown cs hChars with h | h
    · rw [hDigits] at h
      cases h
    · rw [hNone] at h
      cases h
  simp only [List.mem_cons, List.not_mem_nil, or_false, forall_eq_or_imp, forall_eq] at hOther
  unfold lexemeCertainty
  rw [if_neg (not_or.mpr ⟨hOther.1, hOther.2.1⟩), if_neg (not_or.mpr ⟨hOther.2.2.1, hOther.2.2.2⟩)]
  simp only [hChars, List.isEmpty_eq_false_iff.mpr hSome, hDigits, Bool.not_true, Bool.or_self,
    Bool.false_eq_true, if_false, hNone]

theorem certainty_eq_error_iff {body : List Token} {digits : List Char} :
    certainty body = .error digits ↔ IsUnreadable body digits := by
  constructor
  · intro h
    unfold certainty at h
    split at h
    · rename_i lexeme hLexeme
      obtain ⟨cs, hRow⟩ := lexemeCertainty_eq_error h
      exact ⟨lexeme, cs, hLexeme, hRow⟩
    · cases h
  · rintro ⟨lexeme, cs, hLexeme, hChars, rfl, hSome, hDigits, hNone⟩
    rw [certainty, hLexeme]
    exact lexemeCertainty_of_unreadable hChars hSome hDigits hNone

end Conditional

/-- One of the lines has a condition without a value. -/
def HoldsUnreadable (lines : List (List Token)) (digits : List Char) : Prop :=
  ∃ line ∈ lines,
    (Conditional.ofLine? line = some .whenTrue ∨ Conditional.ofLine? line = some .elseWhenTrue)
    ∧ Conditional.IsUnreadable (Directive.split line).2 digits

namespace Reading

/-- A text that is read for a unit: that of its file, or that of a loaded one. -/
def IsSource (search : Option IncludeSearch) (path : String) (text : Text) (file : String)
    (source : Text) : Prop :=
  file = path ∧ source = text
    ∨ ∃ s ∈ search, ∃ data, s.load file = .ok data ∧ source = Text.decode data

/-- What is behind a fault of reading. -/
inductive Caused (search : Option IncludeSearch) (path : String) (text : Text) :
    ScanError → Prop where
  | malformed (e : ParseError) : Caused search path text (.malformed e)
  | numeral {file : String} {source : Text} {tokens : List Token} {digits : List Char}
      (hSource : IsSource search path text file source)
      (hTokens : Token.ofText file source = .ok tokens)
      (h : HoldsUnreadable (Token.logicalLines tokens) digits) :
      Caused search path text (.badNumeral digits)
  | path {s : IncludeSearch} {file : String} {fault : AccessFault} (hs : s ∈ search)
      (h : s.load file = .error fault) (hPath : fault.isPathFault = true) :
      Caused search path text (.unreachable fault)

variable {search : Option IncludeSearch} {follow : Option Follow} {path : String} {text : Text}
  {outer reach : Reachability} {isGuard : Bool} {first : Token} {rest tokens body : List Token}
  {lines : List (List Token)} {groups : List Group} {r : Reading} {e : ScanError}

theorem Caused.of_included {s : IncludeSearch} {included : String} {data : List UInt8}
    (hs : s ∈ search) (hLoad : s.load included = .ok data)
    (h : Caused search included (Text.decode data) e) : Caused search path text e := by
  cases h with
  | malformed e => exact .malformed e
  | numeral hSource hTokens h =>
      refine .numeral ?_ hTokens h
      rcases hSource with ⟨rfl, rfl⟩ | hLoaded
      · exact .inr ⟨s, hs, data, hLoad, rfl⟩
      · exact .inr hLoaded
  | path hs h hPath => exact .path hs h hPath

/-- What is behind the faults of the files that are included. -/
def Traces (search : Option IncludeSearch) (follow : Follow) : Prop :=
  ∀ file source reach r e, follow file source reach r = .error e → Caused search file source e

theorem findIn_eq_error {load : String → Except AccessFault (List UInt8)} {target : String}
    {directories : List String} {fault : AccessFault}
    (h : findIn load target directories = .error fault) :
    ∃ file, load file = .error fault ∧ fault.isPathFault = true := by
  induction directories with
  | nil => cases h
  | cons directory directories ih =>
      unfold findIn at h
      dsimp only at h
      split at h
      · cases h
      · rename_i other hLoad
        split at h
        · rename_i hPath
          cases h
          exact ⟨_, hLoad, hPath⟩
        · exact ih h

theorem findIn_eq_some {load : String → Except AccessFault (List UInt8)} {target file : String}
    {directories : List String} {data : List UInt8}
    (h : findIn load target directories = .ok (some (file, data))) : load file = .ok data := by
  induction directories with
  | nil => cases h
  | cons directory directories ih =>
      unfold findIn at h
      dsimp only at h
      split at h
      · rename_i found hLoad
        cases h
        exact hLoad
      · split at h
        · cases h
        · exact ih h

theorem addInclude_eq_error {line : Bool → UnitLine} {span : Span}
    (hFollow : ∀ f ∈ follow, Traces search f)
    (h : addInclude search follow path body line span reach r = .error e) :
    Caused search path text e := by
  unfold addInclude at h
  split at h
  · cases h
  rename_i s
  split at h
  · cases h
  split at h
  · cases h
    exact .malformed _
  rename_i f
  split at h
  · rename_i fault hFault
    cases h
    unfold resolve at hFault
    split at hFault
    · cases hFault
    · obtain ⟨file, hLoad, hPath⟩ := findIn_eq_error hFault
      exact .path rfl hLoad hPath
  · cases h
  · rename_i included data hFound
    split at h
    · cases h
    · unfold resolve at hFound
      split at hFound
      · cases hFound
      · exact .of_included rfl (findIn_eq_some hFound) (hFollow f rfl _ _ _ _ _ h)

theorem addDirective_eq_error (hFollow : ∀ f ∈ follow, Traces search f)
    (h : addDirective search follow path first rest reach r = .error e) :
    Caused search path text e := by
  unfold addDirective at h
  dsimp only at h
  split at h
  · cases h
  · split at h
    · cases h
    · cases h
      exact .malformed _
  split at h
  · exact addInclude_eq_error hFollow h
  split at h <;> cases h

/-- A group is refused for a malformed line or for a condition that is no number. -/
theorem next_eq_error {c : Conditional} {span : Span} {live : Bool}
    (h : Group.next groups c body span live isGuard = .error e) :
    (∃ fault, e = .malformed fault)
      ∨ (c = .whenTrue ∨ c = .elseWhenTrue)
        ∧ ∃ digits, Conditional.IsUnreadable body digits ∧ e = .badNumeral digits := by
  have hCertainty : Group.certainty body = .error e →
      ∃ digits, Conditional.IsUnreadable body digits ∧ e = .badNumeral digits := by
    intro h
    obtain ⟨digits, hBody, rfl⟩ := Except.mapError_eq_error_iff.mp h
    exact ⟨digits, Conditional.certainty_eq_error_iff.mp hBody, rfl⟩
  have hOpened : Group.opened c body span live isGuard = .error e →
      (∃ fault, e = .malformed fault) ∨ c = .whenTrue ∧ Group.certainty body = .error e := by
    intro h
    unfold Group.opened at h
    dsimp only at h
    split at h
    · split at h
      · cases h
        exact .inl ⟨_, rfl⟩
      · rename_i hWhen _
        rcases Except.bind_eq_error_iff.mp h with h | ⟨known, -, h⟩
        · exact .inr ⟨hWhen, h⟩
        · cases h
    · split at h
      · cases h
        exact .inl ⟨_, rfl⟩
      · cases h
  unfold Group.next at h
  split at h
  · rw [Except.map_eq_error_iff] at h
    exact (hOpened h).imp_right (.imp .inl hCertainty)
  split at h
  · cases h
    exact .inl ⟨_, rfl⟩
  split at h
  · cases h
  split at h
  · cases h
    exact .inl ⟨_, rfl⟩
  split at h
  · cases h
  split at h
  · cases h
  · rename_i hOther
    rw [Except.map_eq_error_iff] at h
    simp only [Bool.or_eq_true, decide_eq_true_eq, not_or, not_not] at hOther
    exact .inr ⟨.inr hOther.2, hCertainty h⟩

theorem addLine_eq_error (hFollow : ∀ f ∈ follow, Traces search f)
    (hTokens : Token.ofText path text = .ok tokens)
    (hLine : first :: rest ∈ Token.logicalLines tokens)
    (h : addLine search follow path outer isGuard first rest groups r = .error e) :
    Caused search path text e := by
  unfold addLine at h
  split at h
  · rename_i hHash
    dsimp only at h
    split at h
    · rename_i c hKeyword
      have hConditional : Conditional.ofLine? (first :: rest) = some c := by
        simp [Conditional.ofLine?, Directive.isLine, hHash, hKeyword]
      rcases Except.bind_eq_error_iff.mp h with h | ⟨next, -, h⟩
      · rcases next_eq_error h with ⟨fault, rfl⟩ | ⟨hKind, digits, hDigits, rfl⟩
        · exact .malformed fault
        · refine .numeral (.inl ⟨rfl, rfl⟩) hTokens ⟨_, hLine, ?_, hDigits⟩
          exact hKind.imp (fun hKind => by rw [hConditional, hKind]) fun hKind => by
            rw [hConditional, hKind]
      · cases h
    · rcases Except.bind_eq_error_iff.mp h with h | ⟨next, -, h⟩
      · exact addDirective_eq_error hFollow h
      · cases h
  · cases h

theorem addLines_eq_error (hFollow : ∀ f ∈ follow, Traces search f)
    (hTokens : Token.ofText path text = .ok tokens)
    (hLines : ∀ line ∈ lines, line ∈ Token.logicalLines tokens)
    (h : addLines search follow path outer isGuard lines groups r = .error e) :
    Caused search path text e := by
  induction lines generalizing isGuard groups r with
  | nil => cases h
  | cons line lines ih =>
      have hRest : ∀ line ∈ lines, line ∈ Token.logicalLines tokens :=
        fun line hLine => hLines line (List.mem_cons_of_mem _ hLine)
      cases line with
      | nil => exact ih hRest h
      | cons first rest =>
          rcases Except.bind_eq_error_iff.mp h with h | ⟨⟨groups, r⟩, -, h⟩
          · exact addLine_eq_error hFollow hTokens (hLines _ List.mem_cons_self) h
          · exact ih hRest h

/-- A file that cannot be read shows what is behind that. -/
theorem addFile_traces (hFollow : ∀ f ∈ follow, Traces search f) :
    Traces search (addFile search follow) := by
  intro path text outer r e h
  unfold addFile at h
  split at h
  · cases h
    exact .malformed _
  · rename_i tokens hTokens
    rcases Except.bind_eq_error_iff.mp h with h | ⟨⟨groups, r⟩, -, h⟩
    · exact addLines_eq_error hFollow hTokens (fun line hLine => hLine) h
    · dsimp only at h
      split at h
      · cases h
        exact .malformed _
      · cases h

theorem addFileWithin_traces (search : Option IncludeSearch) (budget : Nat) :
    Traces search (addFileWithin search budget) := by
  induction budget with
  | zero => exact addFile_traces (by simp)
  | succ budget ih => exact addFile_traces (by simpa using ih)

end Reading

theorem CompilationUnit.read_eq_error {path : String} {text : Text} {search : Option IncludeSearch}
    {e : ScanError} (h : read path text search = .error e) : Reading.Caused search path text e := by
  rcases Except.bind_eq_error_iff.mp h with h | ⟨r, -, h⟩
  · exact Reading.addFileWithin_traces search maxIncludeDepth _ _ _ _ e h
  · cases h

namespace Analysis

open Constant

/-- On a conditional line of a file that is read for the unit stands a row of digits that is no
number. -/
def HoldsBadNumeral (search : Option IncludeSearch) (path : String) (text : Text)
    (digits : List Char) : Prop :=
  ∃ file source tokens, Reading.IsSource search path text file source
    ∧ Token.ofText file source = .ok tokens ∧ HoldsUnreadable (Token.logicalLines tokens) digits

/-- The analysis of a text fails only if the text is malformed, if a condition is a row of digits
and no number, or if the replacement of a macro has a fault for which no reason is given, and in the
last case it does fail. An expression has such a fault exactly if its folding comes to a literal
that cannot be read or to an operator that is undefined for its operands. -/
theorem ofText_fault (parse : List UInt8 → SyntaxNode) (settings : Settings)
    (load : String → Except AccessFault (List UInt8)) (path : String) (text : Text)
    (hLoad : ∀ file fault, load file = .error fault → fault.isPathFault = false) :
    (∀ fault, ofText parse settings load path text = .error fault →
      (∃ e, fault = .unscannable (.malformed e))
        ∨ (∃ digits, fault = .unscannable (.badNumeral digits)
            ∧ HoldsBadNumeral (search? settings load) path text digits)
        ∨ ∃ u name f, CompilationUnit.read path text (search? settings load) = .ok u
            ∧ (Survey.ofUnit parse settings u).Defeats name f ∧ fault = .unfoldable f)
      ∧ (∀ u name f, CompilationUnit.read path text (search? settings load) = .ok u →
          (Survey.ofUnit parse settings u).Defeats name f →
          ∃ f', ofText parse settings load path text = .error (.unfoldable f'))
      ∧ ∀ (resolve : Option Resolver) (body : Expr) (f : FoldError),
          (∀ g ∈ resolve, ∀ name f, ¬ Breaks (g name) f) →
          (Breaks (fold resolve body) f ↔ Escapes resolve body f) := by
  refine ⟨fun fault h => ?_, fun u name f hRead hDefeats => ?_, fun resolve body f hResolve =>
    breaks_fold_iff hResolve⟩
  · rcases Except.bind_eq_error_iff.mp h with h | ⟨u, hRead, h⟩
    · obtain ⟨e, hRead, rfl⟩ := Except.mapError_eq_error_iff.mp h
      cases CompilationUnit.read_eq_error hRead with
      | malformed e => exact .inl ⟨e, rfl⟩
      | numeral hSource hTokens hLines =>
          exact .inr (.inl ⟨_, rfl, _, _, _, hSource, hTokens, hLines⟩)
      | @path s file fault hs hFault hPath =>
          have hSame : s.load = load := by
            unfold search? at hs
            split at hs
            · cases hs
              rfl
            · cases hs
          rw [hSame] at hFault
          rw [hLoad _ _ hFault] at hPath
          cases hPath
    · obtain ⟨f, hUnit, rfl⟩ := Except.mapError_eq_error_iff.mp h
      rcases Except.bind_eq_error_iff.mp hUnit with hClassify | ⟨cs, -, hRest⟩
      · obtain ⟨name, hDefeats⟩ := Survey.exists_defeats_of_classifyAll
          (Survey.namesDefinitions_ofUnit parse settings u) hClassify
        exact .inr (.inr ⟨u, name, f, Except.mapError_eq_ok_iff.mp hRead, hDefeats, rfl⟩)
      · cases hRest
  · obtain ⟨e, hClassify⟩ := hDefeats.exists_classifyAll_eq_error
      (Survey.namesDefinitions_ofUnit parse settings u)
    refine ⟨e, ?_⟩
    rw [ofText, hRead]
    change (ofUnit parse settings u).mapError UnitFault.unfoldable = _
    rw [ofUnit, hClassify]
    rfl

/-- Whether an analysis ended with a fault for which no reason is given. -/
def isUnfoldable : Except UnitFault Analysis → Bool
  | .error (.unfoldable _) => true
  | _ => false

/-- A character that is no zero but vanishes as an unsigned number. -/
theorem ofText_fault_vanishingDivisor :
    ∃ u name f, CompilationUnit.read "a.cpp" "#define A 1u\n#define N A / '\\x100000000'\n"
        (search? {} fun _ => .error .notFound) = .ok u
      ∧ (Survey.ofUnit .scopeless {} u).Defeats name f := by
  obtain ⟨hCauses, -, -⟩ := ofText_fault .scopeless {} (fun _ => .error .notFound) "a.cpp"
    "#define A 1u\n#define N A / '\\x100000000'\n" (by rintro _ _ ⟨⟩; rfl)
  have hFails : isUnfoldable (ofText .scopeless {} (fun _ => .error .notFound) "a.cpp"
      "#define A 1u\n#define N A / '\\x100000000'\n") = true := by
    decide +kernel
  unfold isUnfoldable at hFails
  split at hFails
  · rename_i f hFault
    rcases hCauses _ hFault with ⟨e, ⟨⟩⟩ | ⟨digits, ⟨⟩, -⟩ | ⟨u, name, f, hRead, hDefeats, -⟩
    exact ⟨u, name, f, hRead, hDefeats⟩
  · cases hFails

/-- The integer part of an infinite number is needed for a macro. -/
theorem ofText_infinite :
    ¬ ((∃ a, ofText .scopeless {} (fun _ => .error .notFound) "unit.cpp" "#define N (int) 1e999\n"
      = .ok a)
      ∨ ∃ e, ofText .scopeless {} (fun _ => .error .notFound) "unit.cpp" "#define N (int) 1e999\n"
        = .error (.unscannable (.malformed e))) := by
  have hFails : isUnfoldable (ofText .scopeless {} (fun _ => .error .notFound) "unit.cpp"
      "#define N (int) 1e999\n") = true := by
    decide +kernel
  rintro (⟨a, h⟩ | ⟨e, h⟩) <;> rw [h] at hFails <;> cases hFails

end Analysis

end Demacro
