import Demacro.Scope.Resolution

/-!
The scopes around the places of a unit. However they are found, they belong to the file of the
place, and the declaration of a class ends where a semicolon of the code does.
-/

namespace Demacro

/-- A scope that is read off tokens is one of their file. -/
theorem OpenBrace.path_of_frame? {f : FileTokens} {offset : Int} {b : OpenBrace} {g : Frame}
    (h : frame? f offset b = some g) : g.path = f.path := by
  unfold frame? at h
  dsimp only at h
  repeat' split at h
  all_goals cases h
  all_goals rfl

namespace FileScopes

variable {f : FileScopes} {path : String} {offset : Int} {frame : Frame} {stop : Nat}

theorem mem_code_of_statementEnd? (h : f.statementEnd? offset = some stop) :
    ∃ t ∈ f.code, t.isPunct ";" = true ∧ t.span.stop = stop := by
  obtain ⟨t, ht, rfl⟩ := Option.map_eq_some_iff.mp h
  have hFound := List.find?_some ht
  rw [Bool.and_eq_true] at hFound
  exact ⟨t, List.mem_of_find?_eq_some ht, hFound.2, rfl⟩

/-- Where the declaration of a class ends, a semicolon of the file does. -/
theorem of_mem_frames (hFrame : frame ∈ (f.contextAt path offset).frames)
    (hPath : f.tokens.path = path) : frame.path = path ∧ ∀ stop, frame.statementEnd? = some stop →
      ∃ t ∈ f.code, t.isPunct ";" = true ∧ t.span.stop = stop := by
  have hTree : ∀ g ∈ f.treeFrames path offset, g.path = path ∧ ∀ stop, g.statementEnd? = some stop →
      ∃ t ∈ f.code, t.isPunct ";" = true ∧ t.span.stop = stop := by
    intro g hg
    obtain ⟨r, -, rfl⟩ := List.mem_map.mp hg
    refine ⟨rfl, fun stop hStop => ?_⟩
    cases hShape : r.shape <;> simp only [Region.frame, Frame.statementEnd?, hShape] at hStop
    case classRegion => exact mem_code_of_statementEnd? hStop
    all_goals cases hStop
  have hLexical : ∀ g ∈ (f.tokens.framesAt offset).map f.withStatementEnd, g.path = path ∧
      ∀ stop, g.statementEnd? = some stop → ∃ t ∈ f.code, t.isPunct ";" = true
      ∧ t.span.stop = stop := by
    intro g hg
    obtain ⟨g, hRead, rfl⟩ := List.mem_map.mp hg
    obtain ⟨b, -, hb⟩ := List.mem_filterMap.mp hRead
    have hOwn : g.path = f.tokens.path := OpenBrace.path_of_frame? hb
    unfold withStatementEnd
    split
    · exact ⟨hOwn.trans hPath, fun stop hStop => mem_code_of_statementEnd? hStop⟩
    · rename_i hShape
      refine ⟨hOwn.trans hPath, fun stop hStop => ?_⟩
      unfold Frame.statementEnd? at hStop
      split at hStop
      · rename_i hClass
        exact absurd hClass (hShape _ _ _)
      · cases hStop
  unfold contextAt at hFrame
  dsimp only at hFrame
  split at hFrame
  · split at hFrame
    · exact hTree frame hFrame
    · exact hLexical frame hFrame
  · exact hTree frame hFrame

end FileScopes

namespace UnitScopes

variable {parse : List UInt8 → SyntaxNode} {u : CompilationUnit} {path : String} {offset : Int}
  {frame : Frame}

/-- Where the declaration of a class ends, a semicolon of the code of its file does. -/
theorem exists_token_of_statementEnd? {stop : Nat}
    (hFrame : frame ∈ ((ofUnit parse u).contextAt path offset).frames)
    (hStop : frame.statementEnd? = some stop) :
    ∃ t ∈ u.codeTokens, t.isPunct ";" = true ∧ t.span.path = frame.path ∧ t.span.stop = stop := by
  unfold contextAt at hFrame
  cases hFile : (ofUnit parse u).file? path with
  | none => simp [hFile] at hFrame
  | some f =>
      rw [hFile, Option.map_some, Option.getD_some] at hFrame
      obtain ⟨before, after, hFiles, -⟩ := List.lookup_eq_some_iff.mp hFile
      have hMem : (path, f) ∈ (ofUnit parse u).files := by
        simp [hFiles]
      obtain ⟨file, -, hEq⟩ := List.mem_map.mp hMem
      cases hEq
      obtain ⟨hPath, hEnd⟩ := FileScopes.of_mem_frames hFrame rfl
      obtain ⟨t, ht, hSemicolon, rfl⟩ := hEnd stop hStop
      obtain ⟨ht, hOwn⟩ := List.mem_filter.mp ht
      exact ⟨t, ht, hSemicolon, by rw [hPath]; simpa using hOwn, rfl⟩

end UnitScopes

end Demacro
