import Demacro.Proofs.Lexing.Echo
import Demacro.Proofs.Naming
import Demacro.Proofs.Proposal

/-!
Texts that are made of names, and the declarations that take the place of macros. Names hold no
quotation marks, comments and line ends, so they are passed in front of whatever does not go on with
them, and a change of case keeps them so. A declaration is made of names and of the text of a
replacement, so it is read to its end as lines of code if the replacement is.
-/

namespace Demacro

open Piece

/-- The characters of quotation marks, comments, line ends and splices. -/
def loudChars : List Char :=
  ['"', '\'', '\n', '/', '\\', '\r']

/-- No letter or number is one of the loud characters. -/
theorem isWord_of_mem_loudChars : ∀ d ∈ loudChars, Unicode.isWord d = false :=
  List.forall_mem_of_all (by decide +kernel)

/-- A character of no quotation mark, comment or line end. -/
def SourceChar.isQuiet (c : SourceChar) : Bool :=
  !c.satisfies (loudChars.contains ·)

theorem SourceChar.isQuiet_char {c : Char} : isQuiet (.char c) = true ↔ c ∉ loudChars := by
  simp [isQuiet, satisfies]

/-- A text without literals, comments and line ends. -/
def Text.IsQuiet (v : Text) : Prop :=
  ∀ c ∈ v, c.isQuiet = true

instance (v : Text) : Decidable v.IsQuiet :=
  inferInstanceAs (Decidable (∀ c ∈ v, c.isQuiet = true))

namespace Text

variable {u v : Text} {s t : String}

theorem isQuiet_append : (u ++ v).IsQuiet ↔ u.IsQuiet ∧ v.IsQuiet :=
  List.forall_mem_append

theorem IsQuiet.append (hu : u.IsQuiet) (hv : v.IsQuiet) : (u ++ v).IsQuiet :=
  isQuiet_append.mpr ⟨hu, hv⟩

theorem ofString_append (s t : String) : ofString (s ++ t) = ofString s ++ ofString t := by
  rw [ofString, String.toList_append, List.map_append]
  rfl

theorem IsQuiet.ofString_append (hs : (ofString s).IsQuiet) (ht : (ofString t).IsQuiet) :
    (ofString (s ++ t)).IsQuiet := by
  rw [Text.ofString_append]
  exact hs.append ht

theorem isQuiet_ofString : (ofString s).IsQuiet ↔ ∀ c ∈ s.toList, c ∉ loudChars := by
  simp [IsQuiet, ofString, SourceChar.isQuiet_char]

theorem isQuiet_of_isWord (h : ∀ c ∈ v, isWord c = true) : v.IsQuiet := by
  intro c hc
  have hWord := h c hc
  cases c with
  | byte b => rfl
  | char c =>
      refine SourceChar.isQuiet_char.mpr fun hLoud => ?_
      rw [isWord, SourceChar.satisfies, isWord_of_mem_loudChars c hLoud] at hWord
      cases hWord

/-- What is made of names with something between them is made of names. -/
theorem isQuiet_intercalate {names : List String} (hs : (ofString s).IsQuiet)
    (h : ∀ name ∈ names, (ofString name).IsQuiet) : (ofString (s.intercalate names)).IsQuiet := by
  induction names with
  | nil =>
      rw [String.intercalate_nil]
      decide
  | cons name names ih =>
      obtain ⟨hName, hNames⟩ := List.forall_mem_cons.mp h
      cases names with
      | nil => rwa [String.intercalate_singleton]
      | cons next names =>
          rw [String.intercalate_cons_cons]
          exact (hName.ofString_append hs).ofString_append (ih hNames)

theorem isQuiet_toString (n : Nat) : (ofString (toString n)).IsQuiet := by
  have hOthers : ∀ d ∈ loudChars, d.isDigit = false :=
    List.forall_mem_of_all (by decide)
  refine isQuiet_ofString.mpr fun c hc hLoud => ?_
  have hDigits : (toString n).toList = Nat.toDigits 10 n := Nat.toList_repr
  rw [hDigits] at hc
  have hDigit := Nat.isDigit_of_mem_toDigits (by decide) (by decide) hc
  rw [hOthers c hLoud] at hDigit
  cases hDigit

theorem IsQuiet.ne {c : SourceChar} (h : v.IsQuiet) (hc : c ∈ v) {d : Char} (hd : d ∈ loudChars) :
    c ≠ .char d := by
  rintro rfl
  exact SourceChar.isQuiet_char.mp (h _ hc) hd

theorem IsQuiet.satisfies_eq_false {c : SourceChar} (h : v.IsQuiet) (hc : c ∈ v) {chars : List Char}
    (hChars : chars ⊆ loudChars) : c.satisfies (chars.contains ·) = false := by
  cases c with
  | byte b => rfl
  | char c =>
      rw [SourceChar.satisfies, ← Bool.not_eq_true, List.contains_iff_mem]
      exact fun hMem => h.ne hc (hChars hMem) rfl

theorem IsQuiet.isPlain (h : v.IsQuiet) : IsPlain v where
  plain c hc := h.satisfies_eq_false hc (by decide)
  noComment := by
    refine (List.pairwise_of_forall_mem_list fun c hc d _ => ?_).isChain
    rintro ⟨hSlash, -⟩
    exact h.ne hc (by decide) hSlash

/-- A text without literals, comments and line ends is passed in front of what its last piece cannot
go on with. -/
theorem IsQuiet.meets {r : Text} (h : v.IsQuiet)
    (hr : ∀ c ∈ r.head?, isHard c = true ∧ isInner c = false) : Meets v r where
  last a ha := h.satisfies_eq_false (List.mem_of_getLast? ha) (by decide)
  inner c hc := (hr c hc).2
  hard c hc := .inl (hr c hc).1

end Text

variable {name : String}

/-- The name of a function that replaces a macro starts with a letter or number and holds names
only. -/
theorem of_camelCase (hWords : ∀ c ∈ name.toList, Unicode.isWord c = true) (hNe : name ≠ "") :
    (∃ c ∈ (camelCase name).toList.head?, Unicode.isWord c = true) ∧ ∀ c ∈ (camelCase name).toList,
    c ∉ loudChars := by
  have hQuiet : ∀ c ∈ name.toList, c ∉ loudChars := by
    intro c hc hLoud
    have hWord := hWords c hc
    rw [isWord_of_mem_loudChars c hLoud] at hWord
    cases hWord
  by_cases hNew : camelCase name = name
  · obtain ⟨c, cs, hName⟩ := List.exists_cons_of_ne_nil (l := name.toList) (by simpa using hNe)
    rw [hNew]
    exact ⟨⟨c, by rw [hName]; rfl, hWords c (hName ▸ List.mem_cons_self)⟩, hQuiet⟩
  constructor
  · obtain ⟨c, hc, d, hd, -, hWord⟩ := exists_head_camelCase hNew
    have hOther : c ≠ '_' := by simpa using List.find?_some hc
    refine ⟨d, hd, hWord ?_⟩
    simpa [Unicode.isWord, hOther] using hWords c (List.mem_of_find?_eq_some hc)
  · intro d hd hLoud
    have hMarks : ∀ d ∈ loudChars, Unicode.inRanges Unicode.letterRanges d.toNat = false :=
      List.forall_mem_of_all (by decide)
    obtain ⟨part, hPart, hMem⟩ := exists_part_of_mem_camelCase hNew hd (hMarks d hLoud)
    exact hQuiet d ((of_mem_nameParts hPart).2 d hMem).1 hLoud

/-- The text is read to its end in front of whatever bounds it. -/
def Text.IsClosed (x : Text) : Prop :=
  ∀ r : Text, (∀ c ∈ r.head?, IsBound c) → Passes false (x ++ r) r

/-- The text is read to its end as lines of code, whatever stands behind it. -/
def Text.IsCode (w : Text) : Prop :=
  ∀ r : Text, Passes true (w ++ r) r

variable {v s r x : Text} {start : Bool}

theorem passes_space (h : Passes start s r) : Passes start (.char ' ' :: s) r :=
  .blank (x := [.char ' ']) rfl h

theorem passes_solo {c : Char} (hc : c ∈ [';', '(', ')', '[', ']', '\x7b', '\x7d'])
    (h : Passes false s r) : Passes false (.char c :: s) r :=
  .token (x := [.char c]) (first_solo hc s) (fun hStart => absurd hStart Bool.false_ne_true) h

/-- Names in front of what bounds them. -/
theorem Text.IsQuiet.passes (h : v.IsQuiet) (hHead : ∃ c ∈ v.head?, isWord c = true)
    (hBound : ∀ c ∈ s.head?, IsBound c) (hRest : Passes false s r) (start : Bool) :
    Passes start (v ++ s) r := by
  have hMeets : Meets v s := h.meets fun c hc =>
    ⟨(hBound c hc).1, by simpa using And.left (by simpa [isLoose] using (hBound c hc).2.1)⟩
  exact (h.isPlain.passes hMeets hHead start).trans hRest

theorem isBound_cons {c : Char} (h : c ∈ [' ', ';', '(', ')', '[', ']', '\x7b', '\x7d'])
    (s : Text) : ∀ d ∈ (SourceChar.char c :: s).head?, IsBound d := by
  intro d hd
  obtain rfl := Option.some.inj hd
  exact isBound_of_mem h

theorem exists_head_append (h : ∃ c ∈ v.head?, isWord c = true) (s : Text) :
    ∃ c ∈ (v ++ s).head?, isWord c = true := by
  obtain ⟨c, hc, hWord⟩ := h
  refine ⟨c, ?_, hWord⟩
  rw [List.head?_append, Option.mem_def.mp hc]
  rfl

namespace Declaration

variable {front : Text} (hFront : front.IsQuiet) (hHead : ∃ c ∈ front.head?, isWord c = true)

include hFront hHead

/-- A name that is declared without a value. -/
theorem isCode_declared : (front ++ Text.ofString ";").IsCode := by
  intro r
  have hText : front ++ Text.ofString ";" ++ r = front ++ .char ';' :: r := by
    simp [Text.ofString]
  rw [hText]
  exact hFront.passes hHead (isBound_cons (by decide) _) (passes_solo (by decide) (.done r)) true

/-- A name that is declared with a value. -/
theorem isCode_assigned (hx : x.IsClosed) :
    (front ++ Text.ofString " = " ++ x ++ Text.ofString ";").IsCode := by
  intro r
  have hText : front ++ Text.ofString " = " ++ x ++ Text.ofString ";" ++ r
      = (front ++ Text.ofString " =") ++ .char ' ' :: (x ++ .char ';' :: r) := by
    simp [Text.ofString]
  rw [hText]
  refine (hFront.append (by decide)).passes (exists_head_append hHead _)
    (isBound_cons (by decide) _) (passes_space ?_) true
  exact (hx _ (isBound_cons (by decide) _)).trans (passes_solo (by decide) (.done r))

/-- An object that is declared with an argument. -/
theorem isCode_constructed (hx : x.IsClosed) :
    (front ++ Text.ofString "(" ++ x ++ Text.ofString ");").IsCode := by
  intro r
  have hText : front ++ Text.ofString "(" ++ x ++ Text.ofString ");" ++ r
      = front ++ .char '(' :: (x ++ .char ')' :: .char ';' :: r) := by
    simp [Text.ofString]
  rw [hText]
  refine hFront.passes hHead (isBound_cons (by decide) _) (passes_solo (by decide) ?_) true
  exact (hx _ (isBound_cons (by decide) _)).trans
    (passes_solo (by decide) (passes_solo (by decide) (.done r)))

/-- An enumerator with a value. -/
theorem isCode_enumerated (hx : x.IsClosed) :
    (front ++ Text.ofString " = " ++ x ++ Text.ofString " \x7d;").IsCode := by
  intro r
  have hText : front ++ Text.ofString " = " ++ x ++ Text.ofString " \x7d;" ++ r
      = (front ++ Text.ofString " =") ++ .char ' ' :: (x ++ .char ' ' :: .char '\x7d' :: .char ';'
        :: r) := by
    simp [Text.ofString]
  rw [hText]
  refine (hFront.append (by decide)).passes (exists_head_append hHead _)
    (isBound_cons (by decide) _) (passes_space ?_) true
  refine (hx _ (isBound_cons (by decide) _)).trans (passes_space ?_)
  exact passes_solo (by decide) (passes_solo (by decide) (.done r))

/-- A function that returns a value. -/
theorem isCode_returned (hx : x.IsClosed) :
    (front ++ Text.ofString "(" ++ x ++ Text.ofString ") \x7b return " ++ x
    ++ Text.ofString "; \x7d").IsCode := by
  intro r
  have hText : front ++ Text.ofString "(" ++ x ++ Text.ofString ") \x7b return " ++ x
    ++ Text.ofString "; \x7d" ++ r
      = front ++ .char '(' :: (x ++ .char ')' :: .char ' ' :: .char '\x7b' :: .char ' '
        :: (Text.ofString "return" ++ .char ' ' :: (x ++ .char ';' :: .char ' ' :: .char '\x7d'
          :: r))) := by
    simp [Text.ofString]
  have hReturn :
      Passes false
        (Text.ofString "return" ++ .char ' ' :: (x ++ .char ';' :: .char ' ' :: .char '\x7d' :: r))
        r := by
    refine Text.IsQuiet.passes (by decide) ⟨.char 'r', rfl, by decide +kernel⟩
      (isBound_cons (by decide) _) (passes_space ?_) false
    refine (hx _ (isBound_cons (by decide) _)).trans (passes_solo (by decide) (passes_space ?_))
    exact passes_solo (by decide) (.done r)
  rw [hText]
  refine hFront.passes hHead (isBound_cons (by decide) _) (passes_solo (by decide) ?_) true
  refine (hx _ (isBound_cons (by decide) _)).trans (passes_solo (by decide) (passes_space ?_))
  exact passes_solo (by decide) (passes_space hReturn)

end Declaration

end Demacro
