import Demacro.Proofs.Classification.Findings
import Demacro.Proofs.Rewriting.SingleText

/-!
The texts of the declarations for macros. What a macro is found to stand for is its replacement with
names of types and parameters, so the declarations and the definitions outside of classes are lines
of code.
-/

namespace Demacro

open Piece

/-- The payload is the text with names of types and parameters. -/
inductive Payload.Gives (x : Text) : Payload → Prop where
  | constant {type : String} {integral : Bool} {value : Option Constant.Number}
      (hType : (Text.ofString type).IsQuiet) : Gives x (.constant type x integral value)
  | pointer {charType stringType : Option String}
      (hChar : ∀ t ∈ charType, (Text.ofString t).IsQuiet)
      (hString : ∀ t ∈ stringType, (Text.ofString t).IsQuiet) : Gives x
      (.pointer charType x stringType)
  | function {parameters mutated free : List String}
      (hNames : ∀ p ∈ parameters, (Text.ofString p).IsQuiet) :
      Gives x (.function parameters x mutated free)

theorem IntegerType.isQuiet_name (t : IntegerType) : (Text.ofString t.name).IsQuiet := by
  cases t <;> decide

theorem FloatingType.isQuiet_name (t : FloatingType) : (Text.ofString t.name).IsQuiet := by
  cases t <;> decide

theorem Survey.isQuiet_stringType (t : IntegerType) :
    ∀ s ∈ stringType t, (Text.ofString s).IsQuiet := by
  cases t <;> decide

/-- The payload of a macro is the text of its replacement. -/
theorem Survey.Outcome.gives {s : Survey} {name : String} {c : Classification} {d : ActiveSpan}
    (h : s.Outcome name c) (hSubject : s.subject name = .ok d)
    (hNames : ∀ p ∈ d.definition.shape.parameters, (Text.ofString p).IsQuiet) :
    ∀ payload ∈ c.payload, payload.Gives d.definition.text := by
  cases h with
  | unsuitable | rejected => simp [refuse]
  | @constant d' _ value _ hOther =>
      obtain rfl := Except.ok.inj (hSubject.symm.trans hOther)
      intro payload hPayload
      obtain rfl := Option.some.inj hPayload
      change Payload.Gives _ (constantPayload _ value.constant).1
      unfold constantPayload
      split
      · refine .pointer (fun t ht => ?_) (isQuiet_stringType _)
        obtain rfl := Option.some.inj ht
        exact IntegerType.isQuiet_name _
      · exact .pointer (by simp) (by simp)
      · exact .constant (IntegerType.isQuiet_name _)
      · exact .constant (FloatingType.isQuiet_name _)
  | function hOther =>
      obtain rfl := Except.ok.inj (hSubject.symm.trans hOther)
      intro payload hPayload
      obtain rfl := Option.some.inj hPayload
      exact .function hNames

namespace Declaration

variable {settings : Settings} {identifiers : List String} {id path name type : String}
  {c : Classification} {d : Declaration} {payload : Payload} {x : Text} {parts : List Text}
  {context : Context} {e : Edit}

theorem isQuiet_pieces (h : ∀ p ∈ parts, p.IsQuiet) : (pieces parts).IsQuiet := by
  intro c hc
  obtain ⟨p, hp, hc⟩ := List.mem_flatten.mp hc
  exact h p hp c hc

/-- Pieces of which the first one starts with a word. -/
theorem exists_head_pieces {s : String} (h : ∃ c ∈ (Text.ofString s).head?, isWord c = true)
    (parts : List Text) : ∃ c ∈ (pieces (Text.ofString s :: parts)).head?, isWord c = true :=
  exists_head_append h parts.flatten

theorem exists_head_const : ∃ c ∈ (Text.ofString "const ").head?, isWord c = true :=
  ⟨.char 'c', rfl, by decide +kernel⟩

theorem isCode_ofSimple (h : ofSimple name (some payload) = .ok d)
    (hName : (Text.ofString name).IsQuiet) (hGives : payload.Gives x) (hx : x.IsClosed) :
    d.text.IsCode := by
  cases hGives with
  | @constant type _ _ hType =>
      cases h
      have hFront : (pieces ["const ", type, " ", name]).IsQuiet := isQuiet_pieces (by
        simpa using ⟨by decide, hType, by decide, hName⟩)
      simpa [pieces] using isCode_assigned hFront (exists_head_pieces exists_head_const _) hx
  | pointer | function => cases h

theorem isQuiet_pointerType (h : (Text.ofString type).IsQuiet) :
    (Text.ofString (pointerType type)).IsQuiet :=
  (Text.IsQuiet.ofString_append (by decide) h).ofString_append (by decide)

theorem exists_head_pointerType (type : String) :
    ∃ c ∈ (Text.ofString (pointerType type)).head?, isWord c = true := by
  rw [pointerType, Text.ofString_append, Text.ofString_append]
  exact exists_head_append (exists_head_append exists_head_const _) _

theorem isCode_ofPointer (h : ofPointer settings name (some payload) = .ok d)
    (hName : (Text.ofString name).IsQuiet) (hGives : payload.Gives x) (hx : x.IsClosed) :
    d.text.IsCode := by
  cases hGives with
  | @pointer charType stringType hChar hString =>
      cases charType with
      | none => cases h
      | some charType =>
          have hPointer : (pieces [pointerType charType, " ", name]).IsQuiet := isQuiet_pieces (by
            simpa using ⟨isQuiet_pointerType (hChar charType rfl), by decide, hName⟩)
          have hAsPointer :=
            isCode_assigned hPointer (exists_head_pieces (exists_head_pointerType charType) _) hx
          unfold ofPointer at h
          dsimp only at h
          split at h
          · cases h
            simpa [pieces] using hAsPointer
          · rename_i type
            have hObject : (pieces ["const ", type, " ", name]).IsQuiet := isQuiet_pieces (by
              simpa using ⟨by decide, hString type rfl, by decide, hName⟩)
            split at h
            · cases h
              simpa [pieces] using isCode_constructed hObject
                (exists_head_pieces exists_head_const _) hx
            · cases h
              simpa [pieces] using hAsPointer
  | constant | function => cases h

/-- What is written behind the name of a member: a value or an argument. -/
inductive Assigns (x : Text) : Text → Prop where
  | value : Assigns x (pieces [" = ", x])
  | argument : Assigns x (pieces ["(", x, ")"])

theorem isCode_of_assigns {front initializer : Text} (hFront : front.IsQuiet)
    (hHead : ∃ c ∈ front.head?, isWord c = true) (h : Assigns x initializer) (hx : x.IsClosed) :
    (front ++ initializer ++ Text.ofString ";").IsCode := by
  cases h with
  | value => simpa [pieces] using isCode_assigned hFront hHead hx
  | argument => simpa [pieces, Text.ofString] using isCode_constructed hFront hHead hx

theorem memberForm?_eq_some {initializer : Text} {notes : List String} {limit : SafetyTier}
    (h : memberForm? settings (some payload) = some (type, initializer, notes, limit))
    (hGives : payload.Gives x) :
    (Text.ofString type).IsQuiet ∧ (∃ c ∈ (Text.ofString type).head?, isWord c = true)
    ∧ Assigns x initializer := by
  have hConst : ∀ s, (Text.ofString s).IsQuiet → (Text.ofString ("const " ++ s)).IsQuiet
      ∧ ∃ c ∈ (Text.ofString ("const " ++ s)).head?, isWord c = true := by
    intro s hs
    refine ⟨Text.IsQuiet.ofString_append (by decide) hs, ?_⟩
    rw [Text.ofString_append]
    exact exists_head_append exists_head_const _
  cases hGives with
  | constant hType =>
      cases h
      exact ⟨(hConst _ hType).1, (hConst _ hType).2, .value⟩
  | @pointer charType stringType hChar hString =>
      cases charType with
      | none => cases h
      | some charType =>
          unfold memberForm? at h
          dsimp only at h
          split at h
          · rename_i type hType
            cases h
            have hQuiet := hString type (Option.filter_eq_some_iff.mp hType).1
            exact ⟨(hConst _ hQuiet).1, (hConst _ hQuiet).2, .argument⟩
          · cases h
            exact ⟨isQuiet_pointerType (hChar charType rfl), exists_head_pointerType charType,
              .value⟩
  | function => cases h

/-- A definition outside of a class that does not go to another file starts a line of code. -/
theorem isCode_outsideDefinition {initializer : Text} {note : String} {limit : SafetyTier}
    (h : outsideDefinition settings id name path context type initializer = .ok (e, note, limit))
    (hAppend : e.isAppend = false) (hType : (Text.ofString type).IsQuiet)
    (hHead : ∃ c ∈ (Text.ofString type).head?, isWord c = true)
    (hName : (Text.ofString name).IsQuiet)
    (hScope : ∀ n ∈ context.scopePath, (Text.ofString n).IsQuiet) (hAssigns : Assigns x initializer)
    (hx : x.IsClosed) : ∃ w : Text, w.IsCode ∧ e.text = .char '\n' :: w := by
  unfold outsideDefinition at h
  dsimp only at h
  split at h
  · cases h
  split at h
  · cases h
  split at h
  · rw [Except.ok.injEq, Prod.mk.injEq] at h
    rw [← h.1] at hAppend
    cases hAppend
  split at h
  · cases h
  rw [Except.ok.injEq, Prod.mk.injEq] at h
  generalize hNames : (context.frames.filter (·.kind == .classScope)).filterMap Frame.name
    = names at h
  have hQuiet : ∀ n ∈ names, (Text.ofString n).IsQuiet := by
    intro n hn
    rw [← hNames] at hn
    obtain ⟨frame, hFrame, hn⟩ := List.mem_filterMap.mp hn
    obtain ⟨hFrame, hClass⟩ := List.mem_filter.mp hFrame
    refine hScope n (List.mem_filterMap.mpr ⟨frame, List.mem_filter.mpr ⟨hFrame, ?_⟩, hn⟩)
    rw [beq_iff_eq] at hClass
    simp [Frame.isDeclarative, hClass]
  have hQualified : (Text.ofString ("::".intercalate (names ++ [name]))).IsQuiet :=
    Text.isQuiet_intercalate (by decide) (by simpa [or_imp, forall_and] using ⟨hQuiet, hName⟩)
  have hFront : (pieces [type, " ", "::".intercalate (names ++ [name])]).IsQuiet :=
    isQuiet_pieces (by
    simpa using ⟨hType, by decide, hQualified⟩)
  refine ⟨_, isCode_of_assigns hFront (exists_head_pieces hHead _) hAssigns hx, ?_⟩
  rw [← h.1]
  simp [pieces, Text.ofString]

/-- A member is declared in its class, and what defines it outside starts a line of code. -/
theorem isCode_ofMember {place : Option Context}
    (h : ofMember settings id name path place (some payload) = .ok d)
    (hName : (Text.ofString name).IsQuiet)
    (hScope : ∀ context ∈ place, ∀ n ∈ context.scopePath, (Text.ofString n).IsQuiet)
    (hGives : payload.Gives x) (hx : x.IsClosed) : d.text.IsCode
      ∧ ∀ e ∈ d.outside, e.isAppend = false → ∃ w : Text, w.IsCode ∧ e.text = .char '\n' :: w := by
  unfold ofMember at h
  split at h
  · cases h
  rename_i context frame hContext
  obtain ⟨_, hSome, hFrame⟩ := Option.bind_eq_some_iff.mp hContext
  obtain ⟨_, -, hEq⟩ := Option.map_eq_some_iff.mp hFrame
  cases hEq
  dsimp only at h
  split at h
  · rename_i type initializer value hPayload
    cases hPayload
    cases hGives with
    | constant hType =>
        cases h
        refine ⟨?_, by simp⟩
        have hFront : (pieces ["static const ", type, " ", name]).IsQuiet := isQuiet_pieces (by
          simpa using ⟨by decide, hType, by decide, hName⟩)
        simpa [pieces] using isCode_assigned hFront
          (exists_head_pieces ⟨.char 's', rfl, by decide +kernel⟩ _) hx
  split at h
  · cases h
  rename_i type initializer notes limit hForm
  obtain ⟨hType, hHead, hAssigns⟩ := memberForm?_eq_some hForm hGives
  split at h
  · cases h
  rename_i outside note outsideLimit hOutside
  cases h
  constructor
  · have hFront : (pieces ["static ", type, " ", name]).IsQuiet := isQuiet_pieces (by
      simpa using ⟨by decide, hType, by decide, hName⟩)
    simpa [pieces] using isCode_declared hFront
      (exists_head_pieces ⟨.char 's', rfl, by decide +kernel⟩ _)
  · intro e he hAppend
    cases he
    exact isCode_outsideDefinition hOutside hAppend hType hHead hName (hScope context hSome)
      hAssigns hx

theorem isCode_ofEnumerator (h : ofEnumerator name (some payload) = .ok d)
    (hName : (Text.ofString name).IsQuiet) (hGives : payload.Gives x) (hx : x.IsClosed) :
    d.text.IsCode := by
  cases hGives with
  | @constant type integral _ hType =>
      unfold ofEnumerator at h
      dsimp only at h
      split at h
      · cases h
        have hFront : (pieces ["enum \x7b ", name]).IsQuiet :=
          isQuiet_pieces (by simpa using ⟨by decide, hName⟩)
        simpa [pieces] using isCode_enumerated hFront
          (exists_head_pieces ⟨.char 'e', rfl, by decide +kernel⟩ _) hx
      · cases h
  | pointer | function => cases h

theorem isQuiet_typeParameter (index : Nat) : (Text.ofString (typeParameter index)).IsQuiet :=
  Text.IsQuiet.ofString_append (by decide) (Text.isQuiet_toString (index + 1))

theorem isQuiet_parameterList {parameters : List String} (mutated : List String)
    (h : ∀ p ∈ parameters, (Text.ofString p).IsQuiet) :
    (Text.ofString (parameterList parameters mutated)).IsQuiet := by
  refine Text.isQuiet_intercalate (by decide) fun parameter hParameter => ?_
  obtain ⟨⟨p, i⟩, hMem, rfl⟩ := List.mem_map.mp hParameter
  have hp := h p (List.fst_mem_of_mem_zipIdx hMem)
  have hConst : (Text.ofString ("const " ++ typeParameter i)).IsQuiet :=
    Text.IsQuiet.ofString_append (by decide) (isQuiet_typeParameter i)
  dsimp only
  split
  · exact ((isQuiet_typeParameter i).ofString_append (by decide)).ofString_append hp
  · exact (hConst.ofString_append (by decide)).ofString_append hp

theorem isCode_ofFunction {notes : List String} {place : Option Context}
    (h : ofFunction name notes place (some payload) = .ok d) (hName : (Text.ofString name).IsQuiet)
    (hGives : payload.Gives x) (hx : x.IsClosed) : d.text.IsCode := by
  cases hGives with
  | @function parameters mutated free hNames =>
      cases h
      generalize hList : ", ".intercalate (List.map _ parameters.zipIdx) = types
      have hTypes : (Text.ofString types).IsQuiet := by
        rw [← hList]
        refine Text.isQuiet_intercalate (by decide) fun parameter hParameter => ?_
        obtain ⟨⟨p, i⟩, -, rfl⟩ := List.mem_map.mp hParameter
        exact Text.IsQuiet.ofString_append (by decide) (isQuiet_typeParameter i)
      have hKeyword : Text.IsQuiet (if (place.any fun c => c.class?.isSome) = true then "static"
          else "inline") := by
        split <;> decide
      generalize (if (place.any fun c => c.class?.isSome) = true then ("static" : Text)
        else "inline") = keyword at hKeyword ⊢
      have hFront :
        (pieces ["template<", types, "> ", keyword, " auto ", name, "(",
          parameterList parameters mutated, ") -> decltype"]).IsQuiet := isQuiet_pieces (by
        simpa using ⟨by decide, hTypes, by decide, hKeyword, by decide, hName, by decide,
          isQuiet_parameterList mutated hNames, by decide⟩)
      simpa [pieces, Text.ofString] using
        isCode_returned hFront (exists_head_pieces ⟨.char 't', rfl, by decide +kernel⟩ _) hx
  | constant | pointer => cases h

/-- What takes the place of a macro is lines of code. -/
theorem isCode_ofClassification (h : ofClassification settings identifiers id path c = .ok d)
    (hWords : ∀ a ∈ c.name.toList, Unicode.isWord a = true) (hNe : c.name ≠ "")
    (hScope : ∀ context ∈ c.context, ∀ n ∈ context.scopePath, (Text.ofString n).IsQuiet)
    (hGives : ∀ payload ∈ c.payload, payload.Gives x) (hx : x.IsClosed) : d.text.IsCode := by
  have hName : (Text.ofString c.name).IsQuiet :=
    Text.isQuiet_of_isWord (by simpa [Text.ofString, isWord, SourceChar.satisfies] using hWords)
  unfold ofClassification at h
  cases hPayload : c.payload with
  | none =>
      rw [hPayload] at h
      split at h
      · cases h
      · cases h
      · unfold ofMember at h
        split at h <;> cases h
      · cases h
      · split at h <;> cases h
      · cases h
  | some payload =>
      have hGiven := hGives payload hPayload
      rw [hPayload] at h
      split at h
      · exact isCode_ofSimple h hName hGiven hx
      · exact isCode_ofPointer h hName hGiven hx
      · exact (isCode_ofMember h hName hScope hGiven hx).1
      · exact isCode_ofEnumerator h hName hGiven hx
      · split at h
        · cases h
        rename_i newName notes hNew
        refine isCode_ofFunction h ?_ hGiven hx
        rw [(functionName_eq_ok hNew).1]
        split
        · exact Text.isQuiet_ofString.mpr (of_camelCase hWords hNe).2
        · exact hName
      · cases h

/-- What is defined outside of a class starts a line of code, unless it goes to the end of a
file. -/
theorem isCode_of_mem_outside (h : ofClassification settings identifiers id path c = .ok d)
    (he : e ∈ d.outside) (hAppend : e.isAppend = false) (hName : (Text.ofString c.name).IsQuiet)
    (hScope : ∀ context ∈ c.context, ∀ n ∈ context.scopePath, (Text.ofString n).IsQuiet)
    (hGives : ∀ payload ∈ c.payload, payload.Gives x) (hx : x.IsClosed) :
    ∃ w : Text, w.IsCode ∧ e.text = .char '\n' :: w := by
  have hPattern := (of_outside_eq_some h he).1
  unfold ofClassification at h
  rw [hPattern] at h
  dsimp only at h
  cases hPayload : c.payload with
  | none =>
      rw [hPayload] at h
      unfold ofMember at h
      split at h <;> cases h
  | some payload =>
      rw [hPayload] at h
      exact (isCode_ofMember h hName hScope (hGives payload hPayload) hx).2 e he hAppend

end Declaration

end Demacro
