import Demacro.Proofs.Expr.Evaluation
import Demacro.Proofs.Substitution.Scanning

/-!
The steps of the grammar with tokens put in the place of names. Each rule that takes tokens without
reading an expression takes them from the image as well, and nothing is put in the place of what
comes next.
-/

namespace Demacro.Expr

open Source

variable {t : Token} {ts : List Token} {s m rest : Source} {g : Goal} {es es' : List Expr}
  {e e' base base' : Expr} {r r' : TokenRange} {names : List String} {tree : String → Expr}
  {i j : Nat}

theorem head_eq_operator {op : UnaryOp} (h : Head.of t = .operator op) :
    ∃ symbol, operator? t = some symbol ∧ UnaryOp.ofSymbol? symbol = some op := by
  unfold Head.of at h
  split at h
  · rename_i op' hOp
    cases h
    exact Option.bind_eq_some_iff.mp hOp
  · split_ifs at h

theorem isIdentifier_of_isNamed {word : String} (h : t.isNamed word = true) :
    t.isIdentifier = true := by
  simp only [Token.isNamed, Bool.and_eq_true] at h
  exact h.1

theorem isIdentifier_of_head
    (h : Head.of t = .measure ∨ Head.of t = .allocate ∨ Head.of t = .free) :
    t.isIdentifier = true := by
  unfold Head.of at h
  split at h
  · simp at h
  split_ifs at h with hMeasure hAllocate hFree
  · rcases Bool.or_eq_true_iff.mp hMeasure with hWord | hWord
      <;> exact isIdentifier_of_isNamed hWord
  · exact isIdentifier_of_isNamed hAllocate
  · exact isIdentifier_of_isNamed hFree
  · simp at h

/-- An operator before its operand is no parenthesis and no comma. -/
theorem not_isPunctIn_of_head (h : Head.of t ≠ .other) : t.isPunctIn ["(", ","] = false := by
  cases hHead : Head.of t with
  | operator op =>
      have hOther : ∀ symbol ∈ ["(", ","], UnaryOp.ofSymbol? symbol = none := by decide
      obtain ⟨symbol, hSymbol, hOp⟩ := head_eq_operator hHead
      refine not_isPunctIn hSymbol fun hMem => ?_
      rw [hOther symbol hMem] at hOp
      cases hOp
  | measure => exact not_isPunctIn_of_isIdentifier (isIdentifier_of_head (.inl hHead)) _
  | allocate => exact not_isPunctIn_of_isIdentifier (isIdentifier_of_head (.inr (.inl hHead))) _
  | free => exact not_isPunctIn_of_isIdentifier (isIdentifier_of_head (.inr (.inr hHead))) _
  | other => exact absurd hHead h

theorem bare_listed (he : e'.bare = graft names tree e)
    (hes : es'.map bare = es.map (graft names tree)) :
    (listed r' e' es').bare = graft names tree (listed r e es) := by
  cases es with
  | nil =>
      obtain rfl := List.map_eq_nil_iff.mp hes
      exact he
  | cons x es =>
      obtain ⟨x', es', rfl, -, -⟩ := List.map_eq_cons_iff.mp hes
      have hAll : (e' :: x' :: es').map bare = (e :: x :: es).map (graft names tree) := by
        rw [List.map_cons, List.map_cons (f := graft names tree), he, hes]
      show comma _ (rebuildAll _ _ _) = comma _ (rebuildAll _ _ _)
      rw [rebuildAll_eq_map, rebuildAll_eq_map]
      exact congrArg _ hAll

theorem Prefix.bare_eq {build : TokenRange → Expr → Expr} (h : Prefix g s build m)
    (he : e'.bare = graft names tree e) : (build r' e').bare = graft names tree (build r e) := by
  simp only [bare, graft] at he ⊢
  cases h <;> simp only [rebuild, he]

theorem Opening.bare_eq {build : TokenRange → Expr → Expr} (h : Opening s build m)
    (he : e'.bare = graft names tree e) : (build r' e').bare = graft names tree (build r e) := by
  simp only [bare, graft] at he ⊢
  cases h <;> simp only [rebuild, he]

theorem Suffix.bare_eq {build : TokenRange → Expr → Expr} (h : Suffix s build m)
    (he : e'.bare = graft names tree e) : (build r' e').bare = graft names tree (build r e) := by
  simp only [bare, graft] at he ⊢
  cases h <;> simp only [rebuild, he]

theorem Bracket.bare_eq {opener closer : String} {build : TokenRange → Expr → List Expr → Expr}
    (h : Bracket opener g closer build) (hBase : base'.bare = graft names tree base)
    (hes : es'.map bare = es.map (graft names tree)) :
    (build r' base' es').bare = graft names tree (build r base es) := by
  simp only [bare, graft] at hBase hes ⊢
  cases h with
  | call => simp only [rebuild, rebuildAll_eq_map, hBase, hes]
  | subscript =>
      cases es with
      | nil =>
          obtain rfl := List.map_eq_nil_iff.mp hes
          simp only [List.headD_nil, rebuild, hBase]
      | cons x es =>
          obtain ⟨x', es', rfl, hx, -⟩ := List.map_eq_cons_iff.mp hes
          simp only [List.headD_cons, rebuild, hBase, hx]

/-- What is read for the goal starts with a token that nothing is put in the place of. -/
def Goal.IsInner : Goal → Prop
  | .conditional | .binary _ | .unary | .primary => True
  | _ => False

/-- What is read for the goal goes on with what was read before. -/
def Goal.GoesOn : Goal → Prop
  | .items | .operands .. | .suffixes .. => True
  | _ => False

/-- What is read for the goal ends before a comma. -/
def Goal.IsListed : Goal → Prop
  | .expression | .items | .arguments => True
  | _ => False

namespace Filling

variable {f : Filling}

theorem off_of_op? {op : String} (h : s.op? = some op) : f.Off s.tokens := by
  obtain ⟨t, hTokens, hToken, -⟩ := image_of_op? (f := f) h
  rw [hTokens]
  rintro _ ⟨⟩
  exact not_fills_of_operator? hToken

theorem off_of_expect {wanted : String} (h : s.expect wanted = .ok rest) :
    f.Off s.tokens ∧ s.tokens ≠ [] := by
  obtain ⟨i, ts⟩ := s
  cases ts with
  | nil => cases h
  | cons t ts =>
      simp only [expect] at h
      split at h
      · rename_i hPunct
        refine ⟨?_, List.cons_ne_nil _ _⟩
        rintro _ ⟨⟩
        exact not_fills_of_isPunct hPunct
      · cases h

theorem off_next {op : String} (hAdmits : f.Admits s.tokens) (h : s.op? = some op)
    (hOp : op ∉ ["(", ","]) : f.Off s.next.tokens := by
  obtain ⟨t, hTokens, hToken, -⟩ := image_of_op? (f := f) h
  rw [hTokens] at hAdmits
  exact hAdmits.off (not_isPunctIn hToken hOp)

theorem not_fills_of_isNamed {word : String}
    (hWord : word ∈ ["throw", "sizeof", "alignof", "new", "delete"]) (h : t.isNamed word = true) :
    ¬f.Fills t := fun hFills => by
  rw [hFills.isName.isNamed hWord] at h
  cases h

theorem not_fills_of_head (h : Head.of t ≠ .other) : ¬f.Fills t :=
  fun hFills => h hFills.isName.head

/-- Where a name stands that nothing is put in the place of, it is not one of the names. -/
theorem graft_name {text : String} {ts : List Token} (hName : t.isIdentifier = true)
    (hFills : ¬f.Fills t) (h : Source.nameParts t.spelling i ts = .ok (text, rest)) :
    (name r' text).bare = graft f.names f.tree (name r text) := by
  have hOther : text ∉ f.names := fun hText =>
    hFills ⟨hName, eq_of_nameParts (f.plain text hText).2 h ▸ hText⟩
  simp [bare, graft, rebuild, hOther]

theorem graft_qualified {text word : String} {ts : List Token}
    (h : Source.nameParts ("::" ++ word) i ts = .ok (text, rest)) :
    (name r' text).bare = graft f.names f.tree (name r text) := by
  have hOther : text ∉ f.names := fun hText => by
    have hColon := (f.plain text hText).2
    rw [← eq_of_nameParts hColon h] at hColon
    simp at hColon
  simp [bare, graft, rebuild, hOther]

theorem atom_image {build : TokenRange → Expr} (hAdmits : f.Admits s.tokens)
    (hStart : f.Off s.tokens) (hStop : f.Off rest.tokens) (h : Atom g s build rest) :
    (∃ k, Atom g ⟨j, f.image s.tokens⟩ build ⟨k, f.image rest.tokens⟩)
      ∧ ∀ r r', (build r').bare = graft f.names f.tree (build r) := by
  cases h with
  | @raise i t ts hHead hEnd =>
      rw [image_cons (hStart t rfl)]
      exact ⟨⟨j + 1, .raise hHead (isAtEnd_image (s := ⟨i + 1, ts⟩) hStop hEnd)⟩, fun _ _ => rfl⟩
  | @measure i t ts rest hHead hOpen hGroup =>
      rw [image_cons (hStart t rfl)]
      obtain ⟨k, hGroup'⟩ := skipGroup_image (s := ⟨i + 1, ts⟩) (j := j + 1) (by decide)
        (hAdmits.skipped t List.mem_cons_self (.inl hHead)) hOpen hGroup
      exact ⟨⟨k, .measure hHead (isAt_image (s := ⟨i + 1, ts⟩) hOpen) hGroup'⟩, fun _ _ => rfl⟩
  | @allocate i t ts rest hHead hRest =>
      rw [image_cons (hStart t rfl)]
      have hOff :=
        hAdmits.off (not_isPunctIn_of_isIdentifier (isIdentifier_of_head (.inr (.inl hHead))) _)
      obtain ⟨k, hRest'⟩ := skipAllocation_image (s := ⟨i + 1, ts⟩) (j := j + 1)
        (hAdmits.skipped t List.mem_cons_self (.inr hHead)) hAdmits.tail hOff hRest
      exact ⟨⟨k, .allocate hHead hRest'⟩, fun _ _ => rfl⟩
  | @constant i t ts hKind =>
      rw [image_cons (hStart t rfl)]
      exact ⟨⟨j + 1, .constant hKind⟩, fun _ _ => rfl⟩
  | @strings i t ts found rest hKind hFound =>
      obtain ⟨k, hFound'⟩ := strings_image (f := f) (j := j) hFound hStop
      rw [image_cons (hStart t rfl)] at hFound' ⊢
      exact ⟨⟨k, .strings hKind hFound'⟩, fun _ _ => rfl⟩
  | @name i t ts text rest hHead hCast hParts =>
      rw [image_cons (hStart t rfl)]
      obtain ⟨k, hParts'⟩ := nameParts_image (j := j + 1) hAdmits.tail hParts hStop
      exact ⟨⟨k, .name hHead hCast hParts'⟩, fun _ _ => graft_name hHead (hStart t rfl) hParts⟩
  | @qualified i t part ts text rest hHead hPart hParts =>
      have hOff : f.Off (part :: ts) :=
        hAdmits.off (not_isPunctIn (operator?_of_isPunct hHead) (by decide))
      rw [image_cons (hStart t rfl), image_cons (hOff part rfl)]
      obtain ⟨k, hParts'⟩ := nameParts_image (j := j + 2) hAdmits.tail.tail hParts hStop
      exact ⟨⟨k, .qualified hHead hPart hParts'⟩, fun _ _ => graft_qualified hParts⟩

theorem prefix_image {build : TokenRange → Expr → Expr} (hAdmits : f.Admits s.tokens)
    (h : Prefix g s build m) : (∃ k, Prefix g ⟨j, f.image s.tokens⟩ build ⟨k, f.image m.tokens⟩)
    ∧ f.Off m.tokens := by
  cases h with
  | @throw i t ts hHead hEnd =>
      have hOff := hAdmits.off (not_isPunctIn_of_isIdentifier (isIdentifier_of_isNamed hHead) _)
      rw [image_cons (not_fills_of_isNamed (by decide) hHead)]
      refine ⟨⟨j + 1, .throw hHead ?_⟩, hOff⟩
      cases ts with
      | nil => cases hEnd
      | cons b ts =>
          rw [image_cons (hOff b rfl)]
          exact hEnd
  | @operator i t ts op hHead =>
      have hOther : Head.of t ≠ .other := by simp [hHead]
      rw [image_cons (not_fills_of_head hOther)]
      exact ⟨⟨j + 1, .operator hHead⟩, hAdmits.off (not_isPunctIn_of_head hOther)⟩
  | @measure i t ts hHead hOpen =>
      have hOther : Head.of t ≠ .other := by simp [hHead]
      have hOff := hAdmits.off (not_isPunctIn_of_head hOther)
      rw [image_cons (not_fills_of_head hOther)]
      exact ⟨⟨j + 1,
        .measure hHead (isAt_image_eq_false (s := ⟨i + 1, ts⟩) hOff (by decide) hOpen)⟩, hOff⟩
  | @free i t ts hHead hOpen =>
      have hOther : Head.of t ≠ .other := by simp [hHead]
      have hOff := hAdmits.off (not_isPunctIn_of_head hOther)
      rw [image_cons (not_fills_of_head hOther)]
      exact ⟨⟨j + 1, .free hHead (isAt_image_eq_false (s := ⟨i + 1, ts⟩) hOff (by decide) hOpen)⟩,
        hOff⟩
  | @freeAll i t opening closing ts hHead hOpen hClose =>
      have hOther : Head.of t ≠ .other := by simp [hHead]
      rw [image_cons (not_fills_of_head hOther), image_cons (not_fills_of_operator? hOpen),
        image_cons (not_fills_of_isPunct hClose)]
      exact ⟨⟨j + 3, .freeAll hHead hOpen hClose⟩,
        hAdmits.tail.tail.off (not_isPunctIn (operator?_of_isPunct hClose) (by decide))⟩
  | @cast i t ts type rest hHead hType =>
      rw [image_cons (not_fills_of_isPunct hHead)]
      obtain ⟨k, hType'⟩ := castType?_image (f := f) (j := j) hType
      exact ⟨⟨k, .cast hHead hType'⟩, off_of_castType? hAdmits hType⟩

/-- A cast with a word is left as it is, because nothing is put beside one. -/
theorem opening_image {build : TokenRange → Expr → Expr} (hAdmits : f.Admits s.tokens)
    (h : Opening s build m) : ∃ k, Opening ⟨j, f.image s.tokens⟩ build ⟨k, f.image m.tokens⟩ := by
  by_cases hNames : f.names = []
  · obtain ⟨used, hTokens, -, hMove⟩ := passes_opening h
    have hNone : ∀ t ∈ used, ¬f.Fills t := fun t _ hFills => by simpa [hNames] using hFills.2
    rw [hTokens, image_append hNone]
    exact ⟨_, hMove j _ trivial⟩
  · cases h with
    | @paren i t ts hHead =>
        rw [image_cons (not_fills_of_isPunct hHead)]
        exact ⟨j + 1, .paren hHead⟩
    | @cast i t ts words angle closed rest hHead hCast hAngle hWords hOpen =>
        exact absurd (by simpa using hCast) (hAdmits.castless hNames t List.mem_cons_self hHead)

theorem suffix_image {build : TokenRange → Expr → Expr} (hAdmits : f.Admits s.tokens)
    (h : Suffix s build m) : ∃ k, Suffix ⟨j, f.image s.tokens⟩ build ⟨k, f.image m.tokens⟩ := by
  cases h with
  | @member i t part ts op hHead hMember hPart =>
      have hOff : f.Off (part :: ts) :=
        hAdmits.off (not_isPunctIn hHead (by rcases hMember with rfl | rfl <;> decide))
      rw [image_cons (not_fills_of_operator? hHead), image_cons (hOff part rfl)]
      exact ⟨j + 2, .member hHead hMember hPart⟩
  | @step i t ts op step hHead hStep =>
      rw [image_cons (not_fills_of_operator? hHead)]
      exact ⟨j + 1, .step hHead hStep⟩

end Filling

/-- Before what goes on with an expression comes an operator, a comma, a bracket or what is behind
it. -/
theorem Parses.off {f : Filling} (h : Parses g s es rest) (hGoal : g.GoesOn)
    (hStop : f.Off rest.tokens) : f.Off s.tokens := by
  cases h with
  | noItem | lastOperand | lastSuffix => exact hStop
  | item hNext => exact Filling.off_of_op? (op?_of_isAt hNext)
  | operand hOp =>
      obtain ⟨symbol, hSymbol, -⟩ := op?_of_bind hOp
      exact Filling.off_of_op? hSymbol
  | suffix hSuffix =>
      cases hSuffix with
      | member hHead | step hHead => exact Filling.off_of_op? (s := ⟨_, _⟩) hHead
  | bracket _ hOpen => exact Filling.off_of_op? (op?_of_isAt hOpen)
  | atom hAtom => cases hAtom <;> cases hGoal
  | prefixed hPrefix => cases hPrefix <;> cases hGoal
  | expression | assign | unassigned | conditional | unconditional | binary | simple | noArguments
      | arguments
    | enclosed => cases hGoal

end Demacro.Expr
