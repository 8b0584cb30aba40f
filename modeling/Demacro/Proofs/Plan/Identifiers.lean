import Demacro.Proofs.Accounting
import Demacro.Proofs.Scopes.Names
import Mathlib.Algebra.Group.Nat.Even
import Mathlib.Data.List.TakeWhile

/-!
Identifiers of proposals are read back. The text of an identifier is cut at pairs of colons from the
front, so that a colon at the end of a path pairs up with the separator behind it. The main result
is that the parts of an identifier are read back exactly if its path ends in an even number of
colons, and that an identifier has one text only.
-/

namespace Demacro

namespace QualifiedName

variable {part path : List Char} {c d : Char}

/-- The number of colons at the end. -/
def endColons (cs : List Char) : Nat :=
  (cs.reverse.takeWhile (· == ':')).length

theorem endColons_of_forall {cs : List Char} (h : ∀ c ∈ cs, c = ':') :
    endColons cs = cs.length := by
  have hAll : ∀ c ∈ cs.reverse, (c == ':') = true := by simpa using h
  rw [endColons, List.takeWhile_eq_self_iff.mpr hAll, List.length_reverse]

/-- Nothing in front of another character counts. -/
theorem endColons_cons {cs : List Char} (h : ¬ ∀ x ∈ c :: cs, x = ':') :
    endColons (c :: cs) = endColons cs := by
  rw [endColons, endColons, List.reverse_cons]
  by_cases hColons : ∀ x ∈ cs, x = ':'
  · have hAll : ∀ x ∈ cs.reverse, (x == ':') = true := by simpa using hColons
    have hFirst : c ≠ ':' := fun hSame => h (List.forall_mem_cons.mpr ⟨hSame, hColons⟩)
    rw [List.takeWhile_append_of_pos hAll, List.takeWhile_eq_self_iff.mpr hAll]
    simp [hFirst]
  · have hShort : (cs.reverse.takeWhile (· == ':')).length ≠ cs.reverse.length := by
      intro hLength
      refine hColons ?_
      simpa using List.takeWhile_eq_self_iff.mp ((List.takeWhile_prefix _).eq_of_length hLength)
    rw [List.takeWhile_append, if_neg hShort]

theorem endColons_concat (cs : List Char) : endColons (cs ++ [':']) = endColons cs + 1 := by
  simp [endColons]

theorem even_endColons_colons (cs : List Char) :
    Even (endColons (':' :: ':' :: cs)) ↔ Even (endColons cs) := by
  by_cases hColons : ∀ x ∈ cs, x = ':'
  · have hMore : ∀ x ∈ ':' :: ':' :: cs, x = ':' := by simpa using hColons
    rw [endColons_of_forall hColons, endColons_of_forall hMore, List.length_cons, List.length_cons,
      add_assoc, Nat.even_add]
    simp
  · rw [endColons_cons fun hAll => hColons fun x hx => hAll x (by simp [hx]),
      endColons_cons fun hAll => hColons fun x hx => hAll x (by simp [hx])]

theorem endColons_cons_cons (h : ¬ (c = ':' ∧ d = ':')) (cs : List Char) :
    endColons (c :: d :: cs) = endColons (d :: cs) :=
  endColons_cons fun hAll => h ⟨hAll c (by simp), hAll d (by simp)⟩

theorem exists_concat_of_not_even {cs : List Char} (h : ¬ Even (endColons cs)) :
    ∃ front, cs = front ++ [':'] := by
  rcases List.eq_nil_or_concat cs with rfl | ⟨front, c, rfl⟩
  · exact absurd Even.zero h
  · rw [List.concat_eq_append] at h ⊢
    by_cases hLast : c = ':'
    · exact ⟨front, by rw [hLast]⟩
    · refine absurd ?_ h
      simp [endColons, hLast]

/-- A character that does not start a separator belongs to the first component. -/
theorem components_cons {cs : List Char} (h : ∀ ds, c :: cs ≠ ':' :: ':' :: ds) :
    components (c :: cs) = (components cs).modifyHead (c :: ·) := by
  rw [components.eq_def]
  split
  · rename_i hEmpty
    cases hEmpty
  · exact absurd ‹_› (h _)
  · rename_i hList
    cases hList
    cases hParts : components cs with
    | nil => exact absurd hParts (components_ne_nil cs)
    | cons part parts => rfl

/-- The components are those of both sides, if no colon in front pairs up with the separator. -/
theorem components_append : ∀ cs : List Char, Even (endColons cs) → ∀ ds,
    components (cs ++ ':' :: ':' :: ds) = components cs ++ components ds
  | [], _, ds => by simp [components]
  | [c], hEven, ds => by
      have hFirst : c ≠ ':' := by
        rintro rfl
        exact absurd hEven (by decide)
      have hOne : components [c] = [[c]] := by
        rw [components_cons (by simp)]
        rfl
      rw [List.singleton_append, components_cons (by simp [hFirst]), hOne]
      simp [components]
  | c :: d :: cs, hEven, ds => by
      by_cases hColons : c = ':' ∧ d = ':'
      · obtain ⟨rfl, rfl⟩ := hColons
        have ih := components_append cs ((even_endColons_colons cs).mp hEven) ds
        simp only [List.cons_append, components, ih]
      · rw [endColons_cons_cons hColons] at hEven
        have ih := components_append (d :: cs) hEven ds
        have hApart : ∀ xs ys, c :: d :: xs ≠ ':' :: ':' :: ys := by
          rintro xs ys hSame
          cases hSame
          exact hColons ⟨rfl, rfl⟩
        rw [List.cons_append, List.cons_append, components_cons (hApart _),
          components_cons (hApart _), ← List.cons_append, ih]
        cases hParts : components (d :: cs) with
        | nil => exact absurd hParts (components_ne_nil _)
        | cons part parts => rfl

theorem components_of_colon_notMem (h : ':' ∉ part) : components part = [part] := by
  induction part with
  | nil => rfl
  | cons c cs ih =>
      rw [List.mem_cons, not_or] at h
      rw [components_cons (by rintro ds ⟨⟩; exact h.1 rfl), ih h.2]
      rfl

theorem endColons_of_colon_notMem (h : ':' ∉ part) : endColons part = 0 := by
  induction part with
  | nil => rfl
  | cons c cs ih =>
      rw [List.mem_cons, not_or] at h
      rw [endColons_cons fun hAll => h.1 (hAll c List.mem_cons_self).symm, ih h.2]

/-- The components make up the name. -/
theorem ofComponents_components (cs : List Char) : ofComponents (components cs) = cs := by
  have hHead : ∀ (c : Char) parts, parts ≠ [] → ofComponents (parts.modifyHead (c :: ·)) = c
      :: ofComponents parts := by
    intro c parts hSome
    obtain ⟨part, rest, rfl⟩ := List.exists_cons_of_ne_nil hSome
    cases rest <;> simp [ofComponents, List.intercalate]
  fun_induction components cs with
  | case1 => rfl
  | case2 cs ih =>
      have hMore : ∀ parts, parts ≠ [] → ofComponents ([] :: parts) = ':' :: ':'
          :: ofComponents parts := by
        intro parts hSome
        obtain ⟨part, rest, rfl⟩ := List.exists_cons_of_ne_nil hSome
        simp [ofComponents, List.intercalate]
      rw [hMore _ (components_ne_nil cs), ih]
  | case3 c cs hApart part parts hParts ih =>
      rw [← List.modifyHead_cons, ← hParts, hHead c _ (components_ne_nil cs), ih]
  | case4 c cs hApart hParts => exact absurd hParts (components_ne_nil cs)

end QualifiedName

namespace ProposalId

variable {id id' : ProposalId} {text : String} {front name pattern : List Char} {n : Nat}

theorem isDigit_of_mem_toDigits {c : Char} (h : c ∈ Nat.toDigits 10 n) : isDigit c = true :=
  Nat.isDigit_of_mem_toDigits (by decide) (by decide) h

theorem lineDigits?_line (n : Nat) :
    lineDigits? ('L' :: (toString (n : Int)).toList) = some (Nat.toDigits 10 n) := by
  have hDigits : (toString (n : Int)).toList = Nat.toDigits 10 n := Nat.toList_repr
  have hTake : (Nat.toDigits 10 n).takeWhile isDigit = Nat.toDigits 10 n :=
    List.takeWhile_eq_self_iff.mpr fun c hc => isDigit_of_mem_toDigits hc
  have hDrop : (Nat.toDigits 10 n).dropWhile isDigit = [] :=
    List.dropWhile_eq_nil_iff.mpr fun c hc => isDigit_of_mem_toDigits hc
  rw [hDigits, lineDigits?, hTake, hDrop]
  simp

/-- The digits of a number come to the number. -/
theorem foldl_toDigits (n : Nat) :
    (Nat.toDigits 10 n).foldl (fun n c => n * 10 + (c.toNat - 48)) 0 = n := by
  have hRead := Nat.ofDigitChars_ten_toDigits (n := n)
  unfold Nat.ofDigitChars at hRead
  simpa [Nat.mul_comm] using hRead

theorem isShort_iff (n : Nat) :
    Numeral.isShort (n : Int) = true ↔ (Nat.toDigits 10 n).length ≤ Numeral.maxDigits := by
  have hLength : (toString n).length = (Nat.toDigits 10 n).length := by
    rw [Nat.toString_eq_ofList_toDigits, String.length_ofList]
  rw [Numeral.isShort, Int.natAbs_natCast, hLength, decide_eq_true_iff]

/-- What is read from a text with the given parts, if no colon pairs up with a separator. -/
theorem parse_of_toList (hFront : Even (QualifiedName.endColons front))
    (hName : QualifiedName.components name = [name]) (hApart : Even (QualifiedName.endColons name))
    (hPattern : ':' ∉ pattern)
    (h : text.toList = front ++ ':' :: ':' :: (name ++ ':' :: ':' ::
      (pattern ++ ':' :: ':' :: 'L' :: (toString (n : Int)).toList))) :
    parse text = if Numeral.isShort n then .ok ⟨String.ofList front, String.ofList name,
      String.ofList pattern, n⟩
      else .error (.longLine (Nat.toDigits 10 n).length) := by
  have hPatternEven : Even (QualifiedName.endColons pattern) := by
    rw [QualifiedName.endColons_of_colon_notMem hPattern]
    exact Even.zero
  have hComponents : QualifiedName.components text.toList
      = QualifiedName.components front ++ [name, pattern, 'L' :: (toString (n : Int)).toList] := by
    rw [h, QualifiedName.components_append front hFront,
      QualifiedName.components_append name hApart, hName,
      QualifiedName.components_append pattern hPatternEven, QualifiedName.components_of_colon_notMem
        hPattern,
      QualifiedName.components_of_colon_notMem (colon_notMem_line n)]
    rfl
  obtain ⟨p, rest, hRest⟩ :=
    List.exists_cons_of_ne_nil (List.reverse_ne_nil_iff.mpr (QualifiedName.components_ne_nil front))
  have hReverse : (p :: rest).reverse = QualifiedName.components front := by
    rw [← hRest, List.reverse_reverse]
  rw [parse, hComponents, List.reverse_append, hRest]
  simp only [List.reverse_cons, List.reverse_nil, List.nil_append, List.cons_append,
    lineDigits?_line, foldl_toDigits]
  rw [← List.reverse_cons, hReverse, QualifiedName.ofComponents_components]
  by_cases hShort : (Nat.toDigits 10 n).length ≤ Numeral.maxDigits
  · rw [if_neg (Nat.not_lt.mpr hShort), if_pos ((isShort_iff n).mpr hShort)]
  · rw [if_pos (Nat.not_le.mp hShort), if_neg fun h => hShort ((isShort_iff n).mp h)]

theorem toList_text_eq (id : ProposalId) : id.text.toList = id.path.toList ++ ':' :: ':' ::
    (id.macroName.toList ++ ':' :: ':' ::
      (id.pattern.toList ++ ':' :: ':' :: 'L' :: (toString (id.line : Int)).toList)) := by
  simp [toList_text]

/-- Behind a path that ends in an even number of colons all parts are read back. -/
theorem parse_text_of_even (hPath : Even (QualifiedName.endColons id.path.toList))
    (hName : ':' ∉ id.macroName.toList) (hPattern : ':' ∉ id.pattern.toList) :
    parse id.text = if Numeral.isShort id.line then .ok id
      else .error (.longLine (Nat.toDigits 10 id.line).length) := by
  have hEven : Even (QualifiedName.endColons id.macroName.toList) := by
    rw [QualifiedName.endColons_of_colon_notMem hName]
    exact Even.zero
  have hRead := parse_of_toList hPath (QualifiedName.components_of_colon_notMem hName) hEven
    hPattern (toList_text_eq id)
  simpa only [String.ofList_toList] using hRead

/-- The last colon of a path that ends in an odd number of them is read as the first character of
the name. -/
theorem parse_text_of_odd (hPath : ¬ Even (QualifiedName.endColons id.path.toList))
    (hName : ':' ∉ id.macroName.toList) (hSome : id.macroName.toList ≠ [])
    (hPattern : ':' ∉ id.pattern.toList) :
    parse id.text = if Numeral.isShort id.line then
        .ok { id with
          path := String.ofList id.path.toList.dropLast
          macroName := ":" ++ id.macroName }
      else .error (.longLine (Nat.toDigits 10 id.line).length) := by
  obtain ⟨c, cs, hChars⟩ := List.exists_cons_of_ne_nil hSome
  have hFirst : c ≠ ':' := fun hSame => hName (by simp [hChars, hSame])
  obtain ⟨front, hColon⟩ := QualifiedName.exists_concat_of_not_even hPath
  have hFront : Even (QualifiedName.endColons front) := by
    rw [hColon, QualifiedName.endColons_concat] at hPath
    exact Nat.even_add_one.not_left.mp hPath
  have hOne : QualifiedName.components (':' :: id.macroName.toList) =
      [':' :: id.macroName.toList] := by
    rw [QualifiedName.components_cons (by simp [hChars, hFirst]),
      QualifiedName.components_of_colon_notMem hName]
    rfl
  have hApart : Even (QualifiedName.endColons (':' :: id.macroName.toList)) := by
    rw [hChars, QualifiedName.endColons_cons_cons (by simp [hFirst]), ← hChars,
      QualifiedName.endColons_of_colon_notMem hName]
    exact Even.zero
  have hText := toList_text_eq id
  rw [hColon, List.append_assoc, List.singleton_append] at hText
  have hRead := parse_of_toList hFront hOne hApart hPattern hText
  have hColonName : String.ofList (':' :: id.macroName.toList) = ":" ++ id.macroName :=
    String.toList_injective (by simp)
  rw [hRead, hColon, List.dropLast_concat, hColonName, String.ofList_toList]

/-- An identifier has one text only. -/
theorem eq_of_text_eq (h : id.text = id'.text) (hName : ':' ∉ id.macroName.toList)
    (hName' : ':' ∉ id'.macroName.toList) (hPattern : ':' ∉ id.pattern.toList)
    (hPattern' : ':' ∉ id'.pattern.toList) : id = id' := by
  have hList := congrArg String.toList h
  rw [toList_text, toList_text] at hList
  obtain ⟨hList, hLine⟩ := eq_of_append_colon hList (colon_notMem_line _) (colon_notMem_line _)
  obtain ⟨hList, hPatterns⟩ :=
    eq_of_append_colon (List.append_cancel_right hList) hPattern hPattern'
  obtain ⟨hList, hNames⟩ := eq_of_append_colon (List.append_cancel_right hList) hName hName'
  have hPaths := List.append_cancel_right hList
  have hDigits : Nat.toDigits 10 id.line = Nat.toDigits 10 id'.line := by
    have hText := (List.cons.inj hLine).2
    rwa [show (toString (id.line : Int)).toList = Nat.toDigits 10 id.line from Nat.toList_repr,
      show (toString (id'.line : Int)).toList = Nat.toDigits 10 id'.line
        from Nat.toList_repr] at hText
  have hLines : id.line = id'.line := by
    rw [← foldl_toDigits id.line, hDigits, foldl_toDigits]
  cases id
  cases id'
  simp only [mk.injEq]
  exact ⟨String.toList_injective hPaths, String.toList_injective hNames,
    String.toList_injective hPatterns, hLines⟩

/-- The site of the definition that an identifier is about. -/
def site (id : ProposalId) : DefinitionSite :=
  ⟨id.path, id.macroName, id.line⟩

/-- What a merge says of a proposal that it has no other reason to drop. -/
theorem refusal?_eq {m : EditPlan.Merging} {p : Proposal} (hDiverged : p.id ∉ m.diverged)
    (hWithheld : p.id ∉ m.withheld) :
    m.refusal? p = (parse p.id).map fun id => (m.blocked.lookup id.site).map fun reason =>
      ("Unclassified in another translation unit: " : Text) ++ reason := by
  unfold EditPlan.Merging.refusal?
  rw [if_neg (by simpa using hDiverged), if_neg (by simpa using hWithheld)]
  cases parse p.id <;> rfl

/-- The parts of an identifier are read back exactly if its path ends in an even number of colons,
the number of its line being short enough to be read. No other definition has the same text. And a
merge that has no other reason to drop a proposal drops it for what is known of the site of its
definition, but for nothing at all if a colon at the end of the path is left over. -/
theorem parse_text_iff (hName : ':' ∉ id.macroName.toList) (hSome : id.macroName ≠ "")
    (hPattern : ':' ∉ id.pattern.toList) :
    (parse id.text = .ok id ↔ Even (QualifiedName.endColons id.path.toList)
      ∧ Numeral.isShort id.line = true)
      ∧ (∀ id' : ProposalId, ':' ∉ id'.macroName.toList → ':' ∉ id'.pattern.toList →
        id'.text = id.text → id' = id)
      ∧ ∀ (m : EditPlan.Merging) (p : Proposal), p.id = id.text → Numeral.isShort id.line = true →
        p.id ∉ m.diverged → p.id ∉ m.withheld → (∀ b ∈ m.blocked, ':' ∉ b.1.macroName.toList) →
        m.refusal? p = .ok (if Even (QualifiedName.endColons id.path.toList) then
          (m.blocked.lookup id.site).map fun reason =>
            ("Unclassified in another translation unit: " : Text) ++ reason
          else none) := by
  have hChars : id.macroName.toList ≠ [] := by simpa using hSome
  have hColon : ':' ∈ (":" ++ id.macroName).toList := by simp
  refine ⟨?_, fun id' hName' hPattern' hText => eq_of_text_eq hText hName' hName hPattern' hPattern,
    ?_⟩
  · by_cases hEven : Even (QualifiedName.endColons id.path.toList)
    · rw [parse_text_of_even hEven hName hPattern, and_iff_right hEven]
      by_cases hShort : Numeral.isShort id.line = true
      · rw [if_pos hShort]
        exact iff_of_true rfl hShort
      · rw [if_neg hShort]
        exact iff_of_false nofun hShort
    · refine iff_of_false ?_ fun h => hEven h.1
      rw [parse_text_of_odd hEven hName hChars hPattern]
      intro hSame
      split at hSame
      · have hNames : ":" ++ id.macroName = id.macroName := congrArg macroName (Except.ok.inj hSame)
        exact hName (hNames ▸ hColon)
      · cases hSame
  · intro m p hId hShort hDiverged hWithheld hBlocked
    rw [refusal?_eq hDiverged hWithheld, hId]
    by_cases hEven : Even (QualifiedName.endColons id.path.toList)
    · rw [parse_text_of_even hEven hName hPattern, if_pos hShort, if_pos hEven]
      rfl
    · rw [parse_text_of_odd hEven hName hChars hPattern, if_pos hShort, if_neg hEven]
      -- No site that is blocked has a name that starts with a colon.
      refine congrArg Except.ok
        (Option.map_eq_none_iff.mpr (lookup_eq_none_iff_notMem.mpr fun hMem => ?_))
      obtain ⟨b, hb, hSite⟩ := List.mem_map.mp hMem
      refine hBlocked b hb ?_
      rw [hSite]
      exact hColon

/-- A path that holds separators and ends in one. -/
theorem parse_text_iff_separators :
    let id : ProposalId := ⟨"d::e/a::", "N", "SimpleConstant", 3⟩
    ':' ∉ id.macroName.toList ∧ id.macroName ≠ "" ∧ ':' ∉ id.pattern.toList
      ∧ Even (QualifiedName.endColons id.path.toList) ∧ parse "d::e/a::::N::SimpleConstant::L3"
      = .ok id
      ∧ (parse id.text = .ok id ↔ Even (QualifiedName.endColons id.path.toList)
        ∧ Numeral.isShort id.line = true)
      ∧ (∀ id' : ProposalId, ':' ∉ id'.macroName.toList → ':' ∉ id'.pattern.toList →
        id'.text = id.text → id' = id)
      ∧ ∀ (m : EditPlan.Merging) (p : Proposal), p.id = id.text → Numeral.isShort id.line = true →
        p.id ∉ m.diverged → p.id ∉ m.withheld → (∀ b ∈ m.blocked, ':' ∉ b.1.macroName.toList) →
        m.refusal? p = .ok (if Even (QualifiedName.endColons id.path.toList) then
          (m.blocked.lookup id.site).map fun reason =>
            ("Unclassified in another translation unit: " : Text) ++ reason
          else none) := by
  intro id
  have hEven : Even (QualifiedName.endColons id.path.toList) := by decide +kernel
  have hShort : Numeral.isShort id.line = true := by decide +kernel
  have hResult := @parse_text_iff id (by decide) (by decide) (by decide)
  have hText : id.text = "d::e/a::::N::SimpleConstant::L3" := by decide +kernel
  refine ⟨by decide, by decide, by decide, hEven, ?_, hResult⟩
  rw [← hText]
  exact hResult.1.mpr ⟨hEven, hShort⟩

/-- A header whose name ends in a colon. What is read back is the name of another file and no name
of a macro, and a merge emits the proposal though the definition is blocked in the other unit. -/
theorem not_parse_text_colon :
    let id : ProposalId := ⟨"a:", "N", "SimpleConstant", 1⟩
    let files : List (String × Text) := [("a:", "#define N 1\n"),
      ("u.cpp", "#include \"a:\"\n#define N 2\n"), ("v.cpp", "#include \"a:\"\n")]
    parse id.text = .ok ⟨"a", ":N", "SimpleConstant", 1⟩ ∧ parse id.text ≠ .ok id
      ∧ (∃ a ∈ Run.analyses .scopeless {} (Run.readFrom files) ["u.cpp", "v.cpp"],
        id.site ∈ a.plan.blocked.map Prod.fst)
      ∧ ∃ merged, EditPlan.merge
        ((Run.analyses .scopeless {} (Run.readFrom files) ["u.cpp", "v.cpp"]).map (·.plan))
        = .ok merged ∧ id.text ∈ merged.emitted := by
  intro id files
  have hRead : parse id.text = .ok ⟨"a", ":N", "SimpleConstant", 1⟩ := by
    obtain ⟨read, hRead, hSame⟩ := Except.exists_of_passes (x := parse id.text)
      (fun read => decide (read = ⟨"a", ":N", "SimpleConstant", 1⟩)) (by decide +kernel)
      fun _ _ h => of_decide_eq_true h
    rw [hRead, hSame]
  refine ⟨hRead, ?_, ?_, ?_⟩
  · rw [hRead]
    exact fun hSame => absurd (congrArg path (Except.ok.inj hSame)) (by decide)
  · have hBlocked :
        ((Run.analyses .scopeless {} (Run.readFrom files) ["u.cpp", "v.cpp"]).any fun a =>
        decide (id.site ∈ a.plan.blocked.map Prod.fst)) = true := by
      decide +kernel
    obtain ⟨a, ha, hSite⟩ := List.any_eq_true.mp hBlocked
    exact ⟨a, ha, of_decide_eq_true hSite⟩
  · exact Except.exists_of_passes (fun merged => decide (id.text ∈ merged.emitted))
      (by decide +kernel) fun merged _ h => of_decide_eq_true h

end ProposalId

end Demacro
