import Demacro.Proofs.Inclusion.Contents

/-!
How often a file is read. A file with an include guard is marked when it was read to its end, and a
file with a line `#pragma once` at that line. Until then it can be opened again, inside of itself.
-/

namespace Demacro

namespace CompilationUnit

variable {u : CompilationUnit} {path p : String}

/-- No two tokens of the file start at the same place. -/
def HoldsOnce (u : CompilationUnit) (path : String) : Prop :=
  (u.tokens.filter (·.span.path == path)).Pairwise (·.span.start ≠ ·.span.start)

instance (u : CompilationUnit) (path : String) : Decidable (u.HoldsOnce path) :=
  inferInstanceAs (Decidable (List.Pairwise _ _))

theorem toToken_placeTokens (n : Nat) (reach : Reachability) (tokens : List Token) :
    (placeTokens n reach tokens).map PlacedToken.toToken = tokens := by
  induction tokens generalizing n with
  | nil => rfl
  | cons t ts ih => simp [placeTokens, ih]

theorem toToken_tokens (u : CompilationUnit) :
    u.tokens.map PlacedToken.toToken = u.lines.flatMap fun line => line.first :: line.rest := by
  rw [tokens, placedLines]
  generalize 0 = n
  induction u.lines generalizing n with
  | nil => rfl
  | cons line lines ih =>
      rw [numbered, List.flatMap_cons, List.map_append, ih, List.flatMap_cons, toToken_placeTokens]

theorem holdsOnce_iff_nodup {r : Reading} (hLines : u.lines = r.lines.toList) :
    u.HoldsOnce p ↔ (r.starts p).Nodup := by
  rw [Reading.starts, Reading.tokens, ← hLines, ← toToken_tokens, Token.startsIn, List.filter_map,
    List.map_map, List.Nodup, List.pairwise_map]
  rfl

end CompilationUnit

namespace Reading

/-- The file of a unit, of which nothing was read. -/
def root (path : String) (text : Text) : Opening :=
  ⟨path, text, .unconditional, {}⟩

/-- A file is opened inside of itself. -/
def Reentered (s : IncludeSearch) (path : String) (text : Text) (p : String) : Prop :=
  ∃ chain, Nested s maxIncludeDepth (root path text) chain ∧ 1 < chain.count p

variable {s : IncludeSearch} {path p : String} {text t : Text} {r : Reading}

/-- A file that is read once and not opened inside of itself adds its tokens once. -/
theorem nodup_starts (hSource : IsSource (some s) path text p t) (hOnce : IsOnce p t)
    (hNot : ¬ Reentered s path text p)
    (h : (root path text).read (addFileWithin (some s) maxIncludeDepth) = .ok r) :
    (r.starts p).Nodup := by
  have hCount : ∀ chain, Nested s maxIncludeDepth (root path text) chain → chain.count p ≤ 1 := by
    intro chain hChain
    by_contra hMore
    exact hNot ⟨chain, hChain, by omega⟩
  by_cases hSelf : path = p
  · obtain ⟨tokens, hTokens, hStarts⟩ := starts_eq_of_not_reentered hSelf hCount h
    have hEmpty : (root path text).before.starts p = [] := rfl
    rw [hStarts, hEmpty, List.nil_append]
    exact Token.nodup_startsIn_ofText hTokens
  · rcases hSource with ⟨rfl, -⟩ | ⟨s, ⟨⟩, data, hData, rfl⟩
    · exact absurd rfl hSelf
    have hLoad : ∀ data, s.load p = .ok data → IsOnce p (Text.decode data) := by
      intro data' hData'
      cases hData.symm.trans hData'
      exact hOnce
    exact (clean_read hLoad (fun hSame => absurd hSame hSelf) hCount ⟨List.nodup_nil, fun _ => rfl⟩
      h).nodup

/-- Where the text of the unit's file is what would be loaded for it, each file has one text. -/
theorem IsSource.unique (hOwn : ∀ data, s.load path = .ok data → Text.decode data = text)
    (h : IsSource (some s) path text p t) :
    (path = p → text = t) ∧ ∀ data, s.load p = .ok data → Text.decode data = t := by
  rcases h with ⟨rfl, rfl⟩ | ⟨s, ⟨⟩, data, hData, rfl⟩
  · exact ⟨fun _ => rfl, hOwn⟩
  · constructor
    · rintro rfl
      exact (hOwn data hData).symm
    · intro data' hData'
      cases hData.symm.trans hData'
      rfl

/-- A file that is opened inside of itself adds its first token again. -/
theorem not_nodup_starts (hLoad : ∀ data, s.load p = .ok data → Text.decode data = t)
    (hText : path = p → text = t) (hOnce : IsOnce p t) (hReentered : Reentered s path text p)
    (h : (root path text).read (addFileWithin (some s) maxIncludeDepth) = .ok r) :
    ¬ (r.starts p).Nodup := by
  obtain ⟨chain, hChain, hTwice⟩ := hReentered
  obtain ⟨tokens, c, hTokens, hc⟩ := hOnce.exists_start
  have hCount := hChain.count_le hText hLoad hTokens hc h
  intro hNodup
  have hAtMost := List.nodup_iff_count_le_one.mp hNodup c
  omega

theorem not_reentered_of_marksFirst (h : ∀ t, IsSource (some s) path text p t → MarksFirst p t) :
    ¬ Reentered s path text p := by
  rintro ⟨chain, hChain, hTwice⟩
  have hCount := hChain.count_le_one (fun hSelf => h _ (.inl ⟨hSelf.symm, rfl⟩))
    fun data hData => h _ (.inr ⟨s, rfl, data, hData, rfl⟩)
  omega

end Reading

namespace CompilationUnit

open Reading

/-- A file that has an include guard or a line that marks it is in the unit once exactly if it is
never opened inside of itself. Includes are nested too deeply only if as many files are open one
inside the other as the limit says, and of these only files that are opened inside of themselves can
repeat. A file that is marked in front of all its include lines is never opened inside of itself. -/
theorem holdsOnce_iff_not_reentered (s : IncludeSearch) (path : String) (text : Text) :
    (∀ u p t, read path text (some s) = .ok u → u.file? p = some t → IsOnce p t →
      (¬ Reentered s path text p → u.HoldsOnce p)
        ∧ ((∀ data, s.load path = .ok data → Text.decode data = text) →
            Reentered s path text p → ¬ u.HoldsOnce p))
      ∧ (∀ e, read path text (some s) = .error (.malformed e) → e.fault = .tooDeep →
          ∃ chain, Nested s maxIncludeDepth (root path text) chain
          ∧ chain.length = maxIncludeDepth + 1
            ∧ ∀ p, ¬ Reentered s path text p → chain.count p ≤ 1)
      ∧ ∀ p, (∀ t, IsSource (some s) path text p t → MarksFirst p t) →
      ¬ Reentered s path text p := by
  refine ⟨fun u p t h hFile hOnce => ?_, fun e h hDeep => ?_, fun p => not_reentered_of_marksFirst⟩
  · obtain ⟨r, hRead, h⟩ := Except.bind_eq_ok_iff.mp h
    cases h
    change (root path text).read (addFileWithin (some s) maxIncludeDepth) = .ok r at hRead
    obtain ⟨before, after, hFiles, -⟩ := List.lookup_eq_some_iff.mp hFile
    have hSource : IsSource (some s) path text p t := by
      apply sourced_read (.inl ⟨rfl, rfl⟩) (fun file hFile => (List.not_mem_nil hFile).elim) hRead
        (p, t)
      change r.files = _ at hFiles
      simp [hFiles]
    rw [holdsOnce_iff_nodup rfl]
    constructor
    · exact fun hNot => nodup_starts hSource hOnce hNot hRead
    · intro hOwn hReentered
      obtain ⟨hText, hLoad⟩ := hSource.unique hOwn
      exact not_nodup_starts hLoad hText hOnce hReentered hRead
  · rcases Except.bind_eq_error_iff.mp h with h | ⟨r, -, h⟩
    · obtain ⟨chain, hChain, hLength⟩ := exists_nested_of_tooDeep (o := root path text) hDeep h
      refine ⟨chain, hChain, hLength, fun p hNot => ?_⟩
      by_contra hMore
      exact hNot ⟨chain, hChain, by omega⟩
    · cases h

/-- Two headers, the contents of which are the given texts. -/
def twoHeaders (a b : Text) : IncludeSearch where
  load path :=
    if path = "a.h" then .ok a.encode
    else if path = "b.h" then .ok b.encode
    else .error .notFound
  directories := []

/-- A header that is marked by its first line and included by the header that it includes. -/
def markedHeaders : IncludeSearch :=
  twoHeaders "#pragma once\n#include \"b.h\"\nint a;\n" "#include \"a.h\"\n"

/-- A header with an include guard that is included by the header that it includes. -/
def guardedHeaders : IncludeSearch :=
  twoHeaders "#ifndef A\n#define A\n#include \"b.h\"\nint a;\n#endif\n"
    "#pragma once\n#include \"a.h\"\n"

/-- A header with an include guard that includes itself. -/
def guardedHeader : IncludeSearch :=
  twoHeaders "#ifndef A\n#define A\n#include \"a.h\"\nint a;\n#endif\n" ""

/-- Whether includes were found to be nested too deeply. -/
def isTooDeep : Except ScanError CompilationUnit → Bool
  | .error (.malformed e) => e.fault == .tooDeep
  | _ => false

theorem exists_of_isTooDeep {x : Except ScanError CompilationUnit} (h : isTooDeep x = true) :
    ∃ e, x = .error (.malformed e) ∧ e.fault = .tooDeep := by
  unfold isTooDeep at h
  split at h
  · exact ⟨_, rfl, by simpa using h⟩
  · cases h

/-- The marked header is in the unit once. The guarded one that includes itself is open too
often. -/
theorem holdsOnce_markedHeaders :
    (∃ u, read "u.cpp" "#include \"a.h\"\n" (some markedHeaders) = .ok u ∧ u.HoldsOnce "a.h")
      ∧ ∃ chain, Nested guardedHeader maxIncludeDepth (root "u.cpp" "#include \"a.h\"\n") chain
        ∧ chain.length = 65 := by
  constructor
  · obtain ⟨hOnce, -, hMarked⟩ :=
      holdsOnce_iff_not_reentered markedHeaders "u.cpp" "#include \"a.h\"\n"
    have hFirst : ∀ t, IsSource (some markedHeaders) "u.cpp" "#include \"a.h\"\n" "a.h" t →
        MarksFirst "a.h" t := by
      rintro t (⟨hPath, -⟩ | ⟨s, ⟨⟩, data, hData, rfl⟩)
      · exact absurd hPath (by decide)
      · cases hData
        intro tokens hTokens
        have hTest : (Token.ofText "a.h" (Text.decode (Text.encode
            "#pragma once\n#include \"b.h\"\nint a;\n"))).passes
              (fun tokens => marksFirst (Token.logicalLines tokens)) = true := by
          decide +kernel
        rwa [hTokens] at hTest
    have hIsOnce : IsOnce "a.h" "#pragma once\n#include \"b.h\"\nint a;\n" :=
      Except.exists_of_passes
        (fun tokens => decide (∃ line ∈ Token.logicalLines tokens, marksOnce line = true))
        (by decide +kernel) fun tokens _ hMarks => .inr (of_decide_eq_true hMarks)
    refine Except.exists_of_passes
      (fun u => decide (u.file? "a.h" = some "#pragma once\n#include \"b.h\"\nint a;\n"))
      (by decide +kernel) fun u h hFile => ?_
    exact (hOnce u "a.h" _ h (of_decide_eq_true hFile) hIsOnce).1 (hMarked "a.h" hFirst)
  · obtain ⟨-, hDeep, -⟩ := holdsOnce_iff_not_reentered guardedHeader "u.cpp" "#include \"a.h\"\n"
    have hFails : isTooDeep (read "u.cpp" "#include \"a.h\"\n" (some guardedHeader)) = true := by
      decide +kernel
    obtain ⟨e, h, hFault⟩ := exists_of_isTooDeep hFails
    obtain ⟨chain, hChain, hLength, -⟩ := hDeep e h hFault
    exact ⟨chain, hChain, hLength⟩

/-- The guarded header is read again while it is read for the first time. -/
theorem not_holdsOnce_guardedHeaders :
    ∃ u, read "u.cpp" "#include \"a.h\"\n" (some guardedHeaders) = .ok u
      ∧ u.guards.lookup "a.h" = some "A" ∧ ¬ u.HoldsOnce "a.h" :=
  Except.exists_of_passes
    (fun u => decide (u.guards.lookup "a.h" = some "A" ∧ ¬ u.HoldsOnce "a.h"))
    (by decide +kernel) fun u _ hTest => of_decide_eq_true hTest

end CompilationUnit

end Demacro
