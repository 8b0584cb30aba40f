import Demacro.Keyword
import Demacro.Naming
import Demacro.Token.Lexer
import Mathlib.Data.List.TakeWhile

/-!
Names in another case. A change of case leaves digits and marks alone and turns letters into
letters, but for a few letters whose other form has an accent of its own. So a function gets a name
of letters, and whether that is an identifier is decided by the first character of the macro's name
that is no underscore.
-/

namespace Demacro

namespace Unicode

variable {c d : Char} {cs before : List Char} {runs : List (Nat × Nat × Nat × Int)}
  {r : Nat × Nat × Nat × Int} {ranges : List (Nat × Nat)}

/-- The first and the last image of a run. -/
def imagesOf (r : Nat × Nat × Nat × Int) : Nat × Nat :=
  ((r.1 + r.2.2.2).toNat, (r.2.1 + r.2.2.2).toNat)

/-- All images of a run are numbers of characters. -/
def imagesExist (r : Nat × Nat × Nat × Int) : Bool :=
  0 ≤ r.1 + r.2.2.2 && ((imagesOf r).2 < 0xd800 || 0xdfff < (imagesOf r).1
    && (imagesOf r).2 < 0x110000)

/-- All images of a run are in one of the ranges. The tables are long, so numbers are compared by
what evaluates fast. -/
def imagesIn (ranges : List (Nat × Nat)) (r : Nat × Nat × Nat × Int) : Bool :=
  ranges.any fun g => g.1.ble (imagesOf r).1 && (imagesOf r).2.ble g.2

/-- Nothing between two numbers is in one of the ranges. -/
def apart (ranges : List (Nat × Nat)) (first last : Nat) : Bool :=
  ranges.all fun g => g.2.blt first || last.blt g.1

/-- The numbers of characters that letters may be changed to. -/
def letterRanges : List (Nat × Nat) :=
  [(65, 90), (97, 0x10ffff)]

/-- The small letters of ASCII. -/
def smallRange : Nat × Nat :=
  (97, 122)

/-- A run of letters that are put in lower case: they become letters, words stay words, and no
decimal digit is changed or made. -/
structure IsLowering (r : Nat × Nat × Nat × Int) : Prop where
  exist : imagesExist r = true
  letters : imagesIn letterRanges r = true
  words : imagesIn alphanumericRanges r = true ∨ apart alphanumericRanges r.1 r.2.1 = true
  digits : apart decimalRanges r.1 r.2.1 = true
  images : apart decimalRanges (imagesOf r).1 (imagesOf r).2 = true

/-- A run of letters that are put in upper case: they become letters that are no small ones of
ASCII. -/
structure IsRaising (r : Nat × Nat × Nat × Int) : Prop where
  exist : imagesExist r = true
  letters : imagesIn letterRanges r = true
  words : 128 ≤ r.1 ∨ imagesIn alphanumericRanges r = true
  small : apart [smallRange] (imagesOf r).1 (imagesOf r).2 = true

/-- A character outside ASCII that is put in upper case as several letters, the first of which is no
small one. -/
structure IsLong (r : Nat × List Nat) : Prop where
  far : 128 ≤ r.1
  ne_nil : r.2 ≠ []
  letters : ∀ n ∈ r.2, inRanges letterRanges (Char.ofNat n).toNat = true
  small : ∀ n ∈ r.2.head?, inRanges [smallRange] (Char.ofNat n).toNat = false

instance : DecidablePred IsLowering :=
  fun _ => decidable_of_iff (_ ∧ _ ∧ _ ∧ _ ∧ _) ⟨fun ⟨h₁, h₂, h₃, h₄, h₅⟩ => ⟨h₁, h₂, h₃, h₄, h₅⟩,
    fun ⟨h₁, h₂, h₃, h₄, h₅⟩ => ⟨h₁, h₂, h₃, h₄, h₅⟩⟩

instance : DecidablePred IsRaising :=
  fun _ => decidable_of_iff (_ ∧ _ ∧ _ ∧ _) ⟨fun ⟨h₁, h₂, h₃, h₄⟩ => ⟨h₁, h₂, h₃, h₄⟩,
    fun ⟨h₁, h₂, h₃, h₄⟩ => ⟨h₁, h₂, h₃, h₄⟩⟩

instance : DecidablePred IsLong :=
  fun _ => decidable_of_iff (_ ∧ _ ∧ _ ∧ _) ⟨fun ⟨h₁, h₂, h₃, h₄⟩ => ⟨h₁, h₂, h₃, h₄⟩,
    fun ⟨h₁, h₂, h₃, h₄⟩ => ⟨h₁, h₂, h₃, h₄⟩⟩

theorem inRanges_iff {n : Nat} : inRanges ranges n = true ↔ ∃ g ∈ ranges, g.1 ≤ n ∧ n ≤ g.2 := by
  simp [inRanges]

theorem isAllUpper_eq_false {s : String}
    (h : ∀ c ∈ s.toList, inRanges [smallRange] c.toNat = true) : isAllUpper s = false := by
  have hApart : ∀ r ∈ upperRuns, r.2.1 < 97 ∨ 122 < r.1 := by
    decide +kernel
  rw [isAllUpper, Bool.and_eq_false_iff]
  refine .inl (List.any_eq_false.mpr fun c hc hUpper => ?_)
  obtain ⟨r, hr, hIn⟩ := List.any_eq_true.mp hUpper
  have hFar := hApart r hr
  have hSmall := h c hc
  simp only [Bool.and_eq_true, decide_eq_true_eq] at hIn
  simp only [inRanges_iff, smallRange, List.mem_singleton, exists_eq_left] at hSmall
  omega

theorem isLong_of_mem : ∀ r ∈ toUpperLong, IsLong r := by
  decide +kernel

theorem isRaising_of_mem : ∀ r ∈ toUpperRuns, IsRaising r := by
  decide +kernel

theorem isLowering_of_mem : ∀ r ∈ toLowerRuns, IsLowering r := by
  decide +kernel

theorem toNat_ofNat {n : Nat} (h : n < 0xd800 ∨ 0xdfff < n ∧ n < 0x110000) :
    (Char.ofNat n).toNat = n := by
  rw [Char.ofNat, dif_pos h]
  rfl

theorem not_inRanges_of_apart {first last n : Nat} (h : apart ranges first last = true)
    (hFirst : first ≤ n) (hLast : n ≤ last) : inRanges ranges n = false := by
  rw [← Bool.not_eq_true, inRanges_iff]
  rintro ⟨g, hg, hInside⟩
  have hApart := List.all_eq_true.mp h g hg
  simp only [Bool.or_eq_true, Nat.blt_eq] at hApart
  omega

theorem inRanges_of_imagesIn {n : Nat} (h : imagesIn ranges r = true) (hFirst : (imagesOf r).1 ≤ n)
    (hLast : n ≤ (imagesOf r).2) : inRanges ranges n = true := by
  obtain ⟨g, hg, hInside⟩ := List.any_eq_true.mp h
  simp only [Bool.and_eq_true, Nat.ble_eq] at hInside
  exact inRanges_iff.mpr ⟨g, hg, by omega⟩

/-- A character that is in no run stays, and one that is in a run becomes one of its images. -/
theorem mapBy_eq (hRuns : ∀ r ∈ runs, imagesExist r = true) (c : Char) :
    (mapBy runs c = c ∧ ∀ r ∈ runs, ¬(r.1 ≤ c.toNat ∧ c.toNat ≤ r.2.1
      ∧ (c.toNat - r.1) % r.2.2.1 = 0))
      ∨ ∃ r ∈ runs, r.1 ≤ c.toNat ∧ c.toNat ≤ r.2.1
        ∧ (imagesOf r).1 ≤ (mapBy runs c).toNat ∧ (mapBy runs c).toNat ≤ (imagesOf r).2 := by
  unfold mapBy
  split
  · rename_i r hFound
    have hMem := List.mem_of_find?_eq_some hFound
    have hIn := List.find?_some hFound
    have hExist := hRuns r hMem
    unfold imagesExist at hExist
    simp only [Bool.and_eq_true, Bool.or_eq_true, decide_eq_true_eq] at hIn hExist
    have hImages : (imagesOf r).1 ≤ (c.toNat + r.2.2.2).toNat ∧ (c.toNat + r.2.2.2).toNat
        ≤ (imagesOf r).2 := by
      unfold imagesOf
      omega
    rw [toNat_ofNat (by omega)]
    exact .inr ⟨r, hMem, hIn.1.1, hIn.1.2, hImages⟩
  · rename_i hNone
    refine .inl ⟨rfl, fun r hr hIn => List.find?_eq_none.mp hNone r hr ?_⟩
    simpa [and_assoc] using hIn

/-- What is no letter does not come from another character. -/
theorem mapBy_eq_self (hRuns : ∀ r ∈ runs, imagesExist r = true)
    (hLetters : ∀ r ∈ runs, imagesIn letterRanges r = true)
    (hMark : inRanges letterRanges (mapBy runs c).toNat = false) : mapBy runs c = c := by
  rcases mapBy_eq hRuns c with ⟨hSame, -⟩ | ⟨r, hr, -, -, hFirst, hLast⟩
  · exact hSame
  · rw [inRanges_of_imagesIn (hLetters r hr) hFirst hLast] at hMark
    cases hMark

/-- The lower case form of a letter or number is one. -/
theorem isWord_mapBy_toLowerRuns (hRanges : inRanges alphanumericRanges c.toNat = true) :
    isWord (mapBy toLowerRuns c) = true := by
  rw [isWord, Bool.or_eq_true]
  rcases mapBy_eq (fun r hr => (isLowering_of_mem r hr).exist) c with ⟨hSame, -⟩
    | ⟨r, hr, hFrom, hTo, hFirst, hLast⟩
  · exact .inr (by rwa [hSame])
  · rcases (isLowering_of_mem r hr).words with hImages | hNone
    · exact .inr (inRanges_of_imagesIn hImages hFirst hLast)
    · rw [not_inRanges_of_apart hNone hFrom hTo] at hRanges
      cases hRanges

/-- A character is a decimal digit exactly if its lower case form is one. -/
theorem isDecimal_mapBy_toLowerRuns : isDecimal (mapBy toLowerRuns c) = isDecimal c := by
  rcases mapBy_eq (fun r hr => (isLowering_of_mem r hr).exist) c with ⟨hSame, -⟩
    | ⟨r, hr, hFrom, hTo, hFirst, hLast⟩
  · rw [hSame]
  · have hRun := isLowering_of_mem r hr
    rw [isDecimal, isDecimal, not_inRanges_of_apart hRun.digits hFrom hTo,
      not_inRanges_of_apart hRun.images hFirst hLast]

theorem mem_of_mem_lowerChar (h : d ∈ lowerChar c) (hMark : inRanges letterRanges d.toNat = false) :
    d = c := by
  unfold lowerChar at h
  split at h
  · have hLetters : ['i', Char.ofNat 0x307].all (inRanges letterRanges ·.toNat) = true := by
      decide
    rw [List.all_eq_true.mp hLetters d h] at hMark
    cases hMark
  · rw [List.mem_singleton] at h
    subst h
    exact mapBy_eq_self (fun r hr => (isLowering_of_mem r hr).exist)
      (fun r hr => (isLowering_of_mem r hr).letters) hMark

theorem mem_of_mem_upperChar (h : d ∈ upperChar c) (hMark : inRanges letterRanges d.toNat = false) :
    d = c := by
  unfold upperChar at h
  split at h
  · rename_i r hFound
    obtain ⟨n, hn, rfl⟩ := List.mem_map.mp h
    rw [(isLong_of_mem r (List.mem_of_find?_eq_some hFound)).letters n hn] at hMark
    cases hMark
  · rw [List.mem_singleton] at h
    subst h
    exact mapBy_eq_self (fun r hr => (isRaising_of_mem r hr).exist)
      (fun r hr => (isRaising_of_mem r hr).letters) hMark

/-- What is no letter in a text in lower case is in the text. -/
theorem mem_of_mem_lowerAfter (h : d ∈ lowerAfter before cs)
    (hMark : inRanges letterRanges d.toNat = false) : d ∈ cs := by
  induction cs generalizing before with
  | nil => simp [lowerAfter] at h
  | cons c cs ih =>
      rw [lowerAfter, List.mem_append] at h
      rcases h with hFirst | hRest
      · split at hFirst
        · have hSigmas :
              ∀ b : Bool, inRanges letterRanges (Char.ofNat (if b then 0x3c2 else 0x3c3)).toNat
              = true := by
            decide
          rw [List.mem_singleton] at hFirst
          rw [hFirst, hSigmas] at hMark
          cases hMark
        · rw [mem_of_mem_lowerChar hFirst hMark]
          exact List.mem_cons_self
      · exact List.mem_cons_of_mem c (ih hRest)

/-- The first character in lower case is a letter or number if the first character is, and a digit
exactly if that is one. -/
theorem exists_head_lowerAfter :
    ∃ d ∈ (lowerAfter before (c :: cs)).head?, isDecimal d = isDecimal c
    ∧ (inRanges alphanumericRanges c.toNat = true → isWord d = true) := by
  rw [lowerAfter]
  split
  · rename_i hSigma
    have hChar : c = Char.ofNat 0x3a3 := by
      rw [beq_iff_eq] at hSigma
      rw [← hSigma, Char.ofNat_toNat]
    refine ⟨_, rfl, ?_⟩
    rw [hChar]
    split <;> decide
  · unfold lowerChar
    split
    · rename_i hDotted
      have hChar : c = Char.ofNat 0x130 := by
        rw [beq_iff_eq] at hDotted
        rw [← hDotted, Char.ofNat_toNat]
      refine ⟨'i', rfl, ?_⟩
      rw [hChar]
      decide
    · exact ⟨_, rfl, isDecimal_mapBy_toLowerRuns, isWord_mapBy_toLowerRuns⟩

theorem isWord_lowerChar (hWord : isWord c = true) (hAscii : c.toNat < 128) :
    ∀ d ∈ lowerChar c, isWord d = true := by
  unfold lowerChar
  split
  · rename_i hDotted
    rw [beq_iff_eq] at hDotted
    omega
  · refine List.forall_mem_singleton.mpr ?_
    rw [isWord, Bool.or_eq_true] at hWord
    rcases hWord with hMark | hRanges
    · obtain rfl := beq_iff_eq.mp hMark
      decide
    · exact isWord_mapBy_toLowerRuns hRanges

theorem isWord_upperChar (hWord : isWord c = true) (hAscii : c.toNat < 128) :
    ∀ d ∈ upperChar c, isWord d = true := by
  unfold upperChar
  split
  · rename_i r hFound
    have hSame := List.find?_some hFound
    have hFar := (isLong_of_mem r (List.mem_of_find?_eq_some hFound)).far
    rw [beq_iff_eq] at hSame
    omega
  · refine List.forall_mem_singleton.mpr ?_
    rcases mapBy_eq (fun r hr => (isRaising_of_mem r hr).exist) c with ⟨hSame, -⟩
      | ⟨r, hr, hFrom, -, hFirst, hLast⟩
    · rwa [hSame]
    · rw [isWord, Bool.or_eq_true]
      exact .inr (inRanges_of_imagesIn ((isRaising_of_mem r hr).words.resolve_left (by omega))
        hFirst hLast)

theorem exists_head_upperChar : ∃ d, d ∈ (upperChar c).head? := by
  unfold upperChar
  split
  · rename_i r hFound
    obtain ⟨n, ns, hImage⟩ :=
      List.exists_cons_of_ne_nil (isLong_of_mem r (List.mem_of_find?_eq_some hFound)).ne_nil
    exact ⟨Char.ofNat n, by rw [hImage]; rfl⟩
  · exact ⟨_, rfl⟩

/-- What is put in upper case does not start with a small letter. -/
theorem not_small_head_upperChar (h : d ∈ (upperChar c).head?) :
    inRanges [smallRange] d.toNat = false := by
  unfold upperChar at h
  split at h
  · rename_i r hFound
    rw [List.head?_map] at h
    obtain ⟨n, hn, rfl⟩ := Option.map_eq_some_iff.mp h
    exact (isLong_of_mem r (List.mem_of_find?_eq_some hFound)).small n hn
  · obtain rfl := Option.some.inj h
    rcases mapBy_eq (fun r hr => (isRaising_of_mem r hr).exist) c with ⟨hSame, hNone⟩
      | ⟨r, hr, -, -, hFirst, hLast⟩
    · have hSmall := hNone (97, 122, 1, -32) (List.mem_of_head? rfl)
      rw [hSame, ← Bool.not_eq_true, inRanges_iff]
      simp [smallRange] at hSmall ⊢
      omega
    · exact not_inRanges_of_apart (isRaising_of_mem r hr).small hFirst hLast

end Unicode

open Unicode

variable {name : String} {cs part : List Char} {c d : Char}

/-- The name is read as one identifier. -/
def IsIdentifier (name : String) : Prop :=
  Piece.identifierLength? (Text.ofString name) = some name.toList.length

instance (name : String) : Decidable (IsIdentifier name) :=
  inferInstanceAs (Decidable (_ = _))

/-- An identifier is spelled with letters, digits and underscores, and has no digit in front. -/
theorem isIdentifier_iff : IsIdentifier name ↔
    (∃ c ∈ name.toList.head?, isDecimal c = false) ∧ ∀ c ∈ name.toList, isWord c = true := by
  unfold IsIdentifier Text.ofString
  cases name.toList with
  | nil => simp [Piece.identifierLength?]
  | cons c cs =>
      have hAll : (cs.takeWhile isWord).length = cs.length ↔ ∀ c ∈ cs, isWord c = true :=
        ⟨fun h => List.takeWhile_eq_self_iff.mp ((List.takeWhile_prefix isWord).eq_of_length h),
          fun h => by rw [List.takeWhile_eq_self_iff.mpr h]⟩
      have hText : List.takeWhile (SourceChar.satisfies isWord) (cs.map SourceChar.char)
          = (cs.takeWhile isWord).map SourceChar.char :=
        List.takeWhile_map
      simp only [List.map_cons, Piece.identifierLength?, hText, List.length_map, List.head?_cons,
        List.length_cons]
      by_cases hStart : isWord c = true ∧ isDecimal c = false
      · simp [hStart, hAll]
      · have hNone : ¬((isWord c && !isDecimal c) = true) := by simpa using hStart
        rw [if_neg hNone]
        simp only [reduceCtorEq, Option.mem_some_iff, exists_eq_left', List.forall_mem_cons,
          false_iff]
        rintro ⟨hDecimal, hWord, -⟩
        exact hStart ⟨hWord, hDecimal⟩

theorem nameParts_underscore : nameParts ('_' :: cs) = nameParts cs := by
  simp [nameParts]

/-- The first part is what stands in front of the next underscore. -/
theorem nameParts_cons (hc : c ≠ '_') : nameParts (c :: cs) =
    (c :: cs.takeWhile (· ≠ '_')) :: nameParts (cs.dropWhile (· ≠ '_')) := by
  unfold nameParts
  dsimp only
  generalize hStep : (fun (c : Char) (acc : List Char × List (List Char)) =>
    if c = '_' then (([] : List Char), if acc.1.isEmpty then acc.2 else acc.1 :: acc.2)
      else (c :: acc.1, acc.2)) = step
  have hMark : ∀ acc, (step '_' acc).1 = [] := by
    simp [← hStep]
  have hOther : ∀ {c}, c ≠ '_' → ∀ acc, step c acc = (c :: acc.1, acc.2) := by
    intro c hc acc
    rw [← hStep]
    exact if_neg hc
  clear hStep
  -- Behind the first part comes an underscore, so that the rest has nothing in front of its first
  -- underscore.
  have hFirst : ∀ cs : List Char, (cs.foldr step ([], [])).1 = cs.takeWhile (· ≠ '_')
      ∧ (cs.foldr step ([], [])).2 = ((cs.dropWhile (· ≠ '_')).foldr step ([], [])).2
      ∧ ((cs.dropWhile (· ≠ '_')).foldr step ([], [])).1 = [] := by
    intro cs
    induction cs with
    | nil => simp
    | cons d cs ih =>
        by_cases hd : d = '_'
        · simp [hd, hMark]
        · simpa [hd, hOther hd] using ih
  obtain ⟨hTake, hDrop, hNone⟩ := hFirst cs
  rw [List.foldr_cons, hOther hc, hTake, hDrop, hNone]
  rfl

/-- The parts of a name are not empty, and no underscore is in them. -/
theorem of_mem_nameParts (h : part ∈ nameParts cs) : part ≠ [] ∧ ∀ c ∈ part, c ∈ cs ∧ c ≠ '_' := by
  induction hLength : cs.length using Nat.strongRecOn generalizing cs with
  | ind n ih =>
      subst hLength
      cases cs with
      | nil => cases h
      | cons c cs =>
          by_cases hc : c = '_'
          · rw [hc, nameParts_underscore] at h
            obtain ⟨hNe, hChars⟩ := ih cs.length (by simp) h rfl
            exact ⟨hNe, fun d hd => (hChars d hd).imp_left (List.mem_cons_of_mem c)⟩
          · rw [nameParts_cons hc, List.mem_cons] at h
            rcases h with rfl | h
            · refine ⟨by simp, List.forall_mem_cons.mpr ⟨⟨List.mem_cons_self, hc⟩, fun d hd => ?_⟩⟩
              exact ⟨List.mem_cons_of_mem c (List.takeWhile_subset _ hd),
                by simpa using List.mem_takeWhile_imp hd⟩
            · have hSuffix := List.dropWhile_suffix (· ≠ '_') (l := cs)
              obtain ⟨hNe, hChars⟩ := ih _ (Nat.lt_succ_of_le hSuffix.length_le) h rfl
              exact ⟨hNe, fun d hd => (hChars d hd).imp_left fun hMem => List.mem_cons_of_mem c
                (hSuffix.subset hMem)⟩

/-- The first part starts with the first character that is no underscore. -/
theorem head_nameParts : (nameParts cs).head?.bind List.head? = cs.find? (· ≠ '_') := by
  induction cs with
  | nil => rfl
  | cons c cs ih =>
      by_cases hc : c = '_'
      · rw [hc, nameParts_underscore, ih]
        rfl
      · rw [nameParts_cons hc]
        simp [hc]

theorem camelCase_of_nil (h : nameParts name.toList = []) : camelCase name = name := by
  rw [camelCase, h]

theorem camelCase_of_single (h : nameParts name.toList = [part]) : camelCase name =
    if isAllUpper (String.ofList part) then toLower (String.ofList part)
    else String.ofList part := by
  rw [camelCase, h]

theorem camelCase_of_cons {next : List Char} {parts : List (List Char)}
    (h : nameParts name.toList = part :: next :: parts) : camelCase name =
      toLower (String.ofList part) ++ String.join ((next :: parts).map capitalized) := by
  rw [camelCase, h]

theorem toList_toLower : (toLower (String.ofList cs)).toList = lowerAfter [] cs := by
  rw [toLower, String.toList_ofList, String.toList_ofList]

theorem mem_of_mem_capitalized (h : d ∈ (capitalized part).toList)
    (hMark : inRanges letterRanges d.toNat = false) : d ∈ part := by
  rw [capitalized, String.toList_append, toList_toLower, toUpper, String.toList_ofList,
    String.toList_ofList, List.mem_append, List.mem_flatMap] at h
  rcases h with ⟨c, hc, hUpper⟩ | hLower
  · rw [mem_of_mem_upperChar hUpper hMark]
    exact List.mem_of_mem_take hc
  · exact List.mem_of_mem_drop (mem_of_mem_lowerAfter hLower hMark)

/-- What is no letter in the name of a function is in a part of the name of the macro. -/
theorem exists_part_of_mem_camelCase (hNew : camelCase name ≠ name)
    (h : d ∈ (camelCase name).toList) (hMark : inRanges letterRanges d.toNat = false) :
    ∃ part ∈ nameParts name.toList, d ∈ part := by
  rcases hParts : nameParts name.toList with _ | ⟨part, _ | ⟨next, parts⟩⟩
  · exact absurd (camelCase_of_nil hParts) hNew
  · refine ⟨part, List.mem_cons_self, ?_⟩
    rw [camelCase_of_single hParts] at h
    split at h
    · rw [toList_toLower] at h
      exact mem_of_mem_lowerAfter h hMark
    · rwa [String.toList_ofList] at h
  · rw [camelCase_of_cons hParts, String.toList_append, toList_toLower, String.toList_join,
      List.flatMap_map, List.mem_append] at h
    rcases h with hFirst | hOthers
    · exact ⟨part, List.mem_cons_self, mem_of_mem_lowerAfter hFirst hMark⟩
    · obtain ⟨other, hOther, hd⟩ := List.mem_flatMap.mp hOthers
      exact ⟨other, List.mem_cons_of_mem part hOther, mem_of_mem_capitalized hd hMark⟩

/-- The name of a function starts with the form of the first character that is no underscore. -/
theorem exists_head_camelCase (hNew : camelCase name ≠ name) :
    ∃ c ∈ name.toList.find? (· ≠ '_'), ∃ d ∈ (camelCase name).toList.head?,
    isDecimal d = isDecimal c
      ∧ (inRanges alphanumericRanges c.toNat = true → isWord d = true) := by
  rw [← head_nameParts]
  rcases hParts : nameParts name.toList with _ | ⟨part, parts⟩
  · exact absurd (camelCase_of_nil hParts) hNew
  obtain ⟨c, cs, rfl⟩ :=
    List.exists_cons_of_ne_nil (of_mem_nameParts (hParts ▸ List.mem_cons_self)).1
  refine ⟨c, rfl, ?_⟩
  cases parts with
  | nil =>
      rw [camelCase_of_single hParts]
      split
      · rw [toList_toLower]
        exact exists_head_lowerAfter
      · rw [String.toList_ofList]
        exact ⟨c, rfl, rfl, fun hLetter => by rw [isWord, hLetter, Bool.or_true]⟩
  | cons next parts =>
      obtain ⟨d, hd, hHead⟩ := @exists_head_lowerAfter c cs []
      refine ⟨d, ?_, hHead⟩
      rw [camelCase_of_cons hParts, String.toList_append, toList_toLower, List.head?_append,
        Option.mem_def.mp hd]
      rfl

/-- The name of a function is an identifier, as far as its letters have forms that are letters,
exactly if the first character of the macro's name that is no underscore is no digit. -/
theorem isIdentifier_camelCase_iff (hNew : camelCase name ≠ name) : IsIdentifier (camelCase name) ↔
    (∀ c ∈ name.toList.find? (· ≠ '_'), isDecimal c = false) ∧ ∀ c ∈ (camelCase name).toList,
    isWord c = true := by
  obtain ⟨c, hc, d, hd, hSame, -⟩ := exists_head_camelCase hNew
  rw [isIdentifier_iff]
  refine and_congr_left fun _ => ⟨?_, fun h => ⟨d, hd, hSame ▸ h c hc⟩⟩
  rintro ⟨d', hd', hDecimal⟩ c' hc'
  obtain rfl := Option.mem_unique hd hd'
  obtain rfl := Option.mem_unique hc hc'
  exact hSame ▸ hDecimal

/-- The forms of the letters of ASCII are letters. -/
theorem isWord_camelCase_of_ascii (hWords : ∀ c ∈ name.toList, isWord c = true)
    (hAscii : ∀ c ∈ name.toList, c.toNat < 128) :
    ∀ c ∈ (camelCase name).toList, isWord c = true := by
  have hLower : ∀ {cs : List Char} {before : List Char}, (∀ c ∈ cs, c ∈ name.toList) →
      ∀ d ∈ lowerAfter before cs, isWord d = true := by
    intro cs
    induction cs with
    | nil => simp [lowerAfter]
    | cons c cs ih =>
        intro before hMem
        obtain ⟨hc, hcs⟩ := List.forall_mem_cons.mp hMem
        rw [lowerAfter]
        refine List.forall_mem_append.mpr ⟨?_, ih hcs⟩
        split
        · exact List.forall_mem_singleton.mpr (by split <;> decide)
        · exact isWord_lowerChar (hWords c hc) (hAscii c hc)
  rcases hParts : nameParts name.toList with _ | ⟨part, _ | ⟨next, parts⟩⟩
  · rwa [camelCase_of_nil hParts]
  · have hPart : ∀ c ∈ part, c ∈ name.toList := fun c hc =>
      ((of_mem_nameParts (hParts ▸ List.mem_cons_self)).2 c hc).1
    rw [camelCase_of_single hParts]
    split
    · rw [toList_toLower]
      exact hLower hPart
    · rw [String.toList_ofList]
      exact fun c hc => hWords c (hPart c hc)
  · have hPart : ∀ p ∈ part :: next :: parts, ∀ c ∈ p, c ∈ name.toList := fun p hp c hc =>
      ((of_mem_nameParts (hParts ▸ hp)).2 c hc).1
    rw [camelCase_of_cons hParts, String.toList_append, toList_toLower, String.toList_join,
      List.flatMap_map]
    refine List.forall_mem_append.mpr ⟨hLower (hPart part List.mem_cons_self), fun d hd => ?_⟩
    obtain ⟨other, hOther, hd⟩ := List.mem_flatMap.mp hd
    have hMem := hPart other (List.mem_cons_of_mem part hOther)
    rw [capitalized, String.toList_append, toList_toLower, toUpper, String.toList_ofList,
      String.toList_ofList] at hd
    rcases List.mem_append.mp hd with hUpper | hRest
    · obtain ⟨c, hc, hd⟩ := List.mem_flatMap.mp hUpper
      have hc := hMem c (List.mem_of_mem_take hc)
      exact isWord_upperChar (hWords c hc) (hAscii c hc) d hd
    · exact hLower (fun c hc => hMem c (List.mem_of_mem_drop hc)) d hRest

/-- A reserved word without underscores is made of small letters. -/
theorem small_of_mem_reserved {word : String} (h : word ∈ Keyword.reserved)
    (hOne : '_' ∉ word.toList) : ∀ c ∈ word.toList, inRanges [smallRange] c.toNat = true := by
  have hAll : ∀ word ∈ Keyword.reserved, '_' ∈ word.toList
      ∨ word.toList.all (inRanges [smallRange] ·.toNat) = true := by
    decide
  exact List.all_eq_true.mp ((hAll word h).resolve_left hOne)

/-- A function gets a reserved word for a name only if the macro's name is that word, alone or in
capitals, between underscores. -/
theorem camelCase_mem_reserved_iff (hNew : camelCase name ≠ name) :
    camelCase name ∈ Keyword.reserved ↔ ∃ part, nameParts name.toList = [part]
      ∧ (String.ofList part ∈ Keyword.reserved
        ∨ isAllUpper (String.ofList part) = true
        ∧ toLower (String.ofList part) ∈ Keyword.reserved) := by
  rcases hParts : nameParts name.toList with _ | ⟨part, _ | ⟨next, parts⟩⟩
  · exact absurd (camelCase_of_nil hParts) hNew
  · simp only [List.cons.injEq, and_true, exists_eq_left', camelCase_of_single hParts]
    split
    · rename_i hUpper
      refine ⟨fun h => .inr ⟨hUpper, h⟩, ?_⟩
      rintro (h | ⟨-, h⟩)
      · have hOne : '_' ∉ (String.ofList part).toList := fun hMem =>
          ((of_mem_nameParts (hParts ▸ List.mem_cons_self)).2 _ (by simpa using hMem)).2 rfl
        rw [isAllUpper_eq_false (small_of_mem_reserved h hOne)] at hUpper
        cases hUpper
      · exact h
    · rename_i hUpper
      exact ⟨.inl, fun h => h.resolve_right fun hBoth => hUpper hBoth.1⟩
  · simp only [List.cons.injEq, reduceCtorEq, and_false, false_and, exists_false, iff_false]
    intro hReserved
    have hOne : '_' ∉ (camelCase name).toList := by
      intro hMark
      obtain ⟨part, hPart, hMem⟩ := exists_part_of_mem_camelCase hNew hMark (by decide)
      exact ((of_mem_nameParts hPart).2 _ hMem).2 rfl
    -- The second part starts with a character that is no small letter.
    obtain ⟨c, cs, rfl⟩ := List.exists_cons_of_ne_nil
      (of_mem_nameParts (hParts ▸ List.mem_cons_of_mem part List.mem_cons_self)).1
    obtain ⟨d, hd⟩ : ∃ d, d ∈ (upperChar c).head? := exists_head_upperChar
    refine Bool.false_ne_true ((not_small_head_upperChar hd).symm.trans
      (small_of_mem_reserved hReserved hOne d ?_))
    rw [camelCase_of_cons hParts, List.map_cons, String.join_cons, String.toList_append,
      String.toList_append, capitalized, String.toList_append, toUpper]
    simp [List.mem_of_head? hd]

end Demacro
