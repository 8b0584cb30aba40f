import Demacro.Proofs.Inclusion.Opening
import Demacro.Proofs.Lexing

/-!
What the files of a unit add to it. A file adds its own tokens each time it is opened, so they
repeat if it is opened again. If it is not opened inside of itself, it is marked by the time that it
would be opened again.
-/

namespace Demacro

/-- Where the tokens of a file start. -/
def Token.startsIn (path : String) (tokens : List Token) : List Nat :=
  (tokens.filter (·.span.path == path)).map (·.span.start)

namespace Token

variable {path p : String} {text : Text} {tokens : List Token}

theorem startsIn_append (path : String) (tokens others : List Token) :
    startsIn path (tokens ++ others) = startsIn path tokens ++ startsIn path others := by
  simp [startsIn]

theorem startsIn_eq_nil (h : ∀ t ∈ tokens, t.span.path ≠ p) : startsIn p tokens = [] := by
  simpa [startsIn] using h

theorem startsIn_ofText_ne (h : ofText path text = .ok tokens) (hOther : path ≠ p) :
    startsIn p tokens = [] := by
  obtain ⟨hPlaces, -⟩ := pairwise_of_ofTextAt h
  apply startsIn_eq_nil
  intro t ht
  rw [(hPlaces t ht).1]
  exact hOther

/-- In a text, no two tokens start at the same place. -/
theorem nodup_startsIn_ofText (h : ofText path text = .ok tokens) : (startsIn p tokens).Nodup := by
  obtain ⟨-, hOrder⟩ := pairwise_of_ofTextAt h
  exact List.pairwise_map.mpr ((hOrder.sublist List.filter_sublist).imp Nat.ne_of_lt)

end Token

namespace Reading

/-- All tokens that were read. -/
def tokens (r : Reading) : List Token :=
  r.lines.toList.flatMap fun line => line.first :: line.rest

/-- Where the tokens of a file start that were read. -/
def starts (path : String) (r : Reading) : List Nat :=
  Token.startsIn path r.tokens

@[simp] theorem starts_add (path : String) (r : Reading) (line : UnitLine) :
    (r.add line).starts path = r.starts path ++ Token.startsIn path (line.first :: line.rest) := by
  simp [starts, tokens, add, Token.startsIn]

@[simp] theorem starts_addOnce (p path : String) (r : Reading) :
    (r.addOnce path).starts p = r.starts p := rfl

@[simp] theorem starts_started (p path : String) (text : Text) (lines : List (List Token))
    (r : Reading) : (r.started path text lines).starts p = r.starts p := rfl

variable {s : IncludeSearch} {follow : Option Follow} {path p : String} {text : Text}
  {outer : Reachability} {isGuard : Bool} {first : Token} {rest : List Token}
  {lines : List (List Token)} {groups groups' : List Group} {r r' : Reading} {o o' : Opening}
  {budget : Nat} {chain : List String}

/-- What holds of the tokens of the file that were read so far and of the whole reading, if each
line that is added preserves it and so does each file that is opened. -/
theorem addLines_preserves {P : List Token → Reading → Prop} (done : List Token)
    (hAdd : ∀ ts r line, P ts r → P (ts ++ line.first :: line.rest) (r.add line))
    (hOnce : ∀ ts r, P ts r → P ts (r.addOnce path))
    (hOpens : ∀ f ∈ follow, ∀ ts o r', OpensFrom s follow path outer isGuard lines groups r o →
      P ts o.before → o.read f = .ok r' → P ts r')
    (hr : P done r)
    (h : addLines (some s) follow path outer isGuard lines groups r = .ok (groups', r')) :
    P (done ++ lines.flatten) r' := by
  induction lines generalizing isGuard groups r done with
  | nil =>
      cases h
      simpa using hr
  | cons line lines ih =>
      cases line with
      | nil => exact ih done (fun f hf ts o r' hOpen => hOpens f hf ts o r' (.blank hOpen)) hr h
      | cons first rest =>
          obtain ⟨⟨groups₁, r₁⟩, hLine, h⟩ := Except.bind_eq_ok_iff.mp h
          have hStep : P (done ++ first :: rest) r₁ := by
            rcases addLine_eq_ok hLine with ⟨line, rfl, rfl, rfl⟩ | ⟨f, hf, o, hLeads, hRead⟩
            · split
              · exact hOnce _ _ (hAdd _ _ line hr)
              · exact hAdd _ _ line hr
            · refine hOpens f hf _ o r₁ (.here hLeads) ?_ hRead
              rw [hLeads.before]
              exact hAdd _ _ ⟨first, rest, _, _⟩ hr
          have hAll :=
            ih _ (fun f hf ts o r' hOpen => hOpens f hf ts o r' (.later hLine hOpen)) hStep h
          simpa using hAll

theorem Opening.read_preserves {P : List Token → Reading → Prop}
    (hAdd : ∀ ts r line, P ts r → P (ts ++ line.first :: line.rest) (r.add line))
    (hOnce : ∀ ts r, P ts r → P ts (r.addOnce o.path))
    (hStart : ∀ lines, P [] (o.before.started o.path o.text lines))
    (hOpens : ∀ less ts o' r', budget = less + 1 → Opens s less o o' → P ts o'.before →
      o'.read (addFileWithin (some s) less) = .ok r' → P ts r')
    (h : o.read (addFileWithin (some s) budget) = .ok r') :
    ∃ tokens, Token.ofText o.path o.text = .ok tokens ∧ P tokens r' := by
  obtain ⟨follow, hEq, hFollow⟩ := addFileWithin_eq_addFile s budget
  unfold Opening.read at h
  rw [hEq] at h
  obtain ⟨tokens, last, hTokens, hLines, rfl⟩ := addFile_eq_ok h
  refine ⟨tokens, hTokens, ?_⟩
  have hLast : P tokens last := by
    rw [← Token.flatten_logicalLines tokens]
    refine addLines_preserves [] hAdd hOnce (fun f hf ts o' r' hOpen => ?_) (hStart _) hLines
    obtain ⟨less, hLess, rfl⟩ := hFollow f hf
    cases hf
    exact hOpens less ts o' r' hLess ⟨tokens, hTokens, hOpen⟩
  split
  · exact hOnce _ _ hLast
  · exact hLast

/-- A file that opens no file in which `p` is read adds no other tokens of `p` than its own. -/
theorem Opening.starts_read (hInside : ∀ less o' r', budget = less + 1 → Opens s less o o' →
      o'.read (addFileWithin (some s) less) = .ok r' → r'.starts p = o'.before.starts p)
    (h : o.read (addFileWithin (some s) budget) = .ok r') :
    ∃ tokens, Token.ofText o.path o.text = .ok tokens
      ∧ r'.starts p = o.before.starts p ++ Token.startsIn p tokens := by
  refine Opening.read_preserves (P := fun ts r => r.starts p = o.before.starts p
    ++ Token.startsIn p ts) ?_ ?_ ?_ ?_ h
  · intro ts r line hr
    simp [hr, Token.startsIn_append]
  · exact fun ts r hr => hr
  · simp [Token.startsIn]
  · intro less ts o' r' hLess hOpens hr hRead
    rw [hInside less o' r' hLess hOpens hRead, hr]

/-- Where a file is not open, none of its tokens are read. -/
theorem starts_eq_of_not_nested (hNot : ∀ chain, Nested s budget o chain → p ∉ chain)
    (h : o.read (addFileWithin (some s) budget) = .ok r') : r'.starts p = o.before.starts p := by
  induction budget using Nat.strongRecOn generalizing o r' with
  | ind budget ih =>
      obtain ⟨tokens, hTokens, hStarts⟩ :=
          Opening.starts_read (p := p) (fun less o' r' hLess hOpens hRead => by
        subst hLess
        exact ih less (Nat.lt_succ_self less)
          (fun chain hChain hMem => hNot _ (.enter hOpens hChain) (List.mem_cons_of_mem _ hMem))
          hRead) h
      have hOther : o.path ≠ p := fun hSame => hNot _ (.self budget o) (by simp [hSame])
      rw [hStarts, Token.startsIn_ofText_ne hTokens hOther, List.append_nil]

/-- A file that is not open inside of itself adds its tokens once. -/
theorem starts_eq_of_not_reentered (hSelf : o.path = p)
    (hOnce : ∀ chain, Nested s budget o chain → chain.count p ≤ 1)
    (h : o.read (addFileWithin (some s) budget) = .ok r') :
    ∃ tokens, Token.ofText o.path o.text = .ok tokens
      ∧ r'.starts p = o.before.starts p ++ Token.startsIn p tokens := by
  refine Opening.starts_read (fun less o' r' hLess hOpens hRead => ?_) h
  subst hLess
  refine starts_eq_of_not_nested (fun chain hChain hMem => ?_) hRead
  have hCount := hOnce _ (.enter hOpens hChain)
  rw [hSelf, List.count_cons_self] at hCount
  have hPos := List.count_pos_iff.mpr hMem
  omega

/-- The tokens of a file were read once, and not at all if it is not marked. -/
structure Clean (p : String) (r : Reading) : Prop where
  nodup : (r.starts p).Nodup
  eq_nil : p ∉ r.once → r.starts p = []

theorem Clean.add {line : UnitLine} (h : Clean p r)
    (hOther : ∀ t ∈ line.first :: line.rest, t.span.path ≠ p) : Clean p (r.add line) := by
  have hSame : (r.add line).starts p = r.starts p := by
    rw [starts_add, Token.startsIn_eq_nil hOther, List.append_nil]
  exact ⟨hSame ▸ h.nodup, fun hNot => hSame ▸ h.eq_nil hNot⟩

theorem Clean.addOnce (h : Clean p r) (path : String) : Clean p (r.addOnce path) :=
  ⟨h.nodup, fun hNot => h.eq_nil fun hMem => hNot (List.mem_cons_of_mem path hMem)⟩

/-- Reading another file stays clean if reading the files that it opens does. -/
theorem clean_read_of_ne (hOther : o.path ≠ p) (hr : Clean p o.before)
    (hInside : ∀ less o' r', budget = less + 1 → Opens s less o o' → Clean p o'.before →
      o'.read (addFileWithin (some s) less) = .ok r' → Clean p r')
    (h : o.read (addFileWithin (some s) budget) = .ok r') : Clean p r' := by
  have hRun : ∃ tokens, Token.ofText o.path o.text = .ok tokens
      ∧ ((∀ t ∈ tokens, t.span.path ≠ p) → Clean p r') := by
    refine Opening.read_preserves (P := fun ts r => (∀ t ∈ ts, t.span.path ≠ p) → Clean p r) ?_
      ?_ ?_ ?_ h
    · intro ts r line hTs hOthers
      exact (hTs fun t ht => hOthers t (List.mem_append_left _ ht)).add
        fun t ht => hOthers t (List.mem_append_right _ ht)
    · exact fun ts r hTs hOthers => (hTs hOthers).addOnce _
    · exact fun lines _ => ⟨hr.nodup, hr.eq_nil⟩
    · exact fun less ts o' r' hLess hOpens hTs hRead hOthers => hInside less o' r' hLess hOpens
        (hTs hOthers) hRead
  obtain ⟨tokens, hTokens, hClean⟩ := hRun
  apply hClean
  intro t ht
  rw [((Token.pairwise_of_ofTextAt hTokens).1 t ht).1]
  exact hOther

/-- A reading stays clean for a file that is marked when it was read and never open inside of
itself. -/
theorem clean_read (hLoad : ∀ data, s.load p = .ok data → IsOnce p (Text.decode data))
    (hText : o.path = p → IsOnce p o.text ∧ p ∉ o.before.once)
    (hOnce : ∀ chain, Nested s budget o chain → chain.count p ≤ 1) (hr : Clean p o.before)
    (h : o.read (addFileWithin (some s) budget) = .ok r') : Clean p r' := by
  induction budget using Nat.strongRecOn generalizing o r' with
  | ind budget ih =>
      by_cases hSelf : o.path = p
      · -- It is opened for the first time, since it is not marked, and it is marked afterwards.
        obtain ⟨hIsOnce, hFresh⟩ := hText hSelf
        obtain ⟨tokens, hTokens, hStarts⟩ := starts_eq_of_not_reentered hSelf hOnce h
        rw [hr.eq_nil hFresh, List.nil_append] at hStarts
        have hMarked : p ∈ r'.once := mem_once_of_isOnce hIsOnce (by rwa [← hSelf])
        exact {
          nodup := hStarts ▸ Token.nodup_startsIn_ofText hTokens
          eq_nil := fun hNot => absurd hMarked hNot }
      · refine clean_read_of_ne hSelf hr (fun less o' r' hLess hOpens hClean hRead => ?_) h
        subst hLess
        have ⟨_, _, hFrom⟩ := hOpens
        refine ih less (Nat.lt_succ_self less) (fun hSame => ?_) (fun chain hChain => ?_)
          hClean hRead
        · obtain ⟨data, hData, hDecoded⟩ := hFrom.exists_data
          rw [hSame] at hData
          refine ⟨hDecoded ▸ hLoad data hData, ?_⟩
          rw [← hSame]
          exact hFrom.fresh
        · have hCount := hOnce _ (.enter hOpens hChain)
          rwa [List.count_cons_of_ne hSelf] at hCount

/-- Reading adds tokens and takes none away. -/
theorem count_read (c : Nat) (h : o.read (addFileWithin (some s) budget) = .ok r') :
    ∃ tokens, Token.ofText o.path o.text = .ok tokens
      ∧ (o.before.starts p).count c + (Token.startsIn p tokens).count c
      ≤ (r'.starts p).count c := by
  induction budget using Nat.strongRecOn generalizing o r' with
  | ind budget ih =>
      refine Opening.read_preserves
        (P := fun ts r => (o.before.starts p).count c + (Token.startsIn p ts).count c
          ≤ (r.starts p).count c)
        ?_ ?_ ?_ ?_ h
      · intro ts r line hTs
        simp only [starts_add, Token.startsIn_append, List.count_append]
        omega
      · exact fun ts r hTs => hTs
      · simp [Token.startsIn]
      · intro less ts o' r' hLess hOpens hTs hRead
        obtain ⟨tokens, -, hCount⟩ := ih less (by omega) hRead
        omega

theorem count_addLines (c : Nat)
    (h : addLines (some s) (some (addFileWithin (some s) budget)) path outer isGuard lines groups r
      = .ok (groups', r')) :
    (r.starts p).count c + (Token.startsIn p lines.flatten).count c ≤ (r'.starts p).count c := by
  refine addLines_preserves []
    (P := fun ts r' => (r.starts p).count c + (Token.startsIn p ts).count c ≤ (r'.starts p).count c)
    ?_ ?_ ?_ ?_ h
  · intro ts r line hTs
    simp only [starts_add, Token.startsIn_append, List.count_append]
    omega
  · exact fun ts r hTs => hTs
  · intro f hf ts o r' _ hTs hRead
    cases hf
    obtain ⟨tokens, -, hCount⟩ := count_read (p := p) c hRead
    omega
  · simp [Token.startsIn]

/-- Reading lines adds the tokens on them and those that a file adds that is opened there. -/
theorem OpensFrom.count_addLines {c k : Nat}
    (hOpens : OpensFrom s (some (addFileWithin (some s) budget)) path outer isGuard lines
      groups r o)
    (hInside : ∀ r', o.read (addFileWithin (some s) budget) = .ok r' →
      (o.before.starts p).count c + k ≤ (r'.starts p).count c)
    (h : addLines (some s) (some (addFileWithin (some s) budget)) path outer isGuard lines groups r
      = .ok (groups', r')) :
    (r.starts p).count c + (Token.startsIn p lines.flatten).count c
    + k ≤ (r'.starts p).count c := by
  induction hOpens with
  | @here isGuard first rest lines groups r o hLeads =>
      obtain ⟨⟨groups₁, r₁⟩, hLine, h⟩ := Except.bind_eq_ok_iff.mp h
      rw [hLeads.addLine_eq] at hLine
      obtain ⟨r₁, hRead, hEq⟩ := Except.map_eq_ok_iff.mp hLine
      cases hEq
      have hOpened := hInside r₁ hRead
      have hRest := Reading.count_addLines (p := p) c h
      rw [hLeads.before] at hOpened
      simp only [starts_add, List.flatten_cons, Token.startsIn_append,
        List.count_append] at hOpened ⊢
      omega
  | blank _ ih => exact ih hInside h
  | @later isGuard first rest lines groups groups₁ r r₁ o hLine hRest ih =>
      obtain ⟨⟨groups₂, r₂⟩, hSame, h⟩ := Except.bind_eq_ok_iff.mp h
      cases hLine.symm.trans hSame
      have hFirst : addLines (some s) (some (addFileWithin (some s) budget)) path outer isGuard
          [first :: rest] groups r = .ok (groups₁, r₁) := by
        rw [addLines, hLine]
        rfl
      have hAdded := Reading.count_addLines (p := p) c hFirst
      have hLater := ih hInside h
      simp only [List.flatten_cons, List.flatten_nil, List.append_nil, Token.startsIn_append,
        List.count_append] at hAdded ⊢
      omega

/-- A token of `p` is read as often as `p` is open in a chain. -/
theorem Nested.count_le {t : Text} {tokens : List Token} {c : Nat} (h : Nested s budget o chain)
    (hText : o.path = p → o.text = t) (hLoad : ∀ data, s.load p = .ok data → Text.decode data = t)
    (hTokens : Token.ofText p t = .ok tokens) (hc : c ∈ Token.startsIn p tokens)
    (hRead : o.read (addFileWithin (some s) budget) = .ok r') :
    (o.before.starts p).count c + chain.count p ≤ (r'.starts p).count c := by
  -- The file itself adds the token if it is `p`; the rest of the chain is below one of its
  -- includes.
  have hOwn : ∀ {o : Opening} {ts}, (o.path = p → o.text = t) →
    Token.ofText o.path o.text = .ok ts →
      [o.path].count p ≤ (Token.startsIn p ts).count c := by
    intro o ts hSame hTs
    by_cases hSelf : o.path = p
    · rw [hSame hSelf, hSelf] at hTs
      cases hTokens.symm.trans hTs
      rw [hSelf, List.count_singleton_self]
      exact List.count_pos_iff.mpr hc
    · rw [List.count_singleton, if_neg (by simpa using hSelf)]
      exact Nat.zero_le _
  induction h generalizing r' with
  | self budget o =>
      obtain ⟨ts, hTs, hCount⟩ := count_read (p := p) c hRead
      have hAtLeast := hOwn hText hTs
      omega
  | @enter budget o o' chain hOpens hRest ih =>
      obtain ⟨ts, hTs, hFrom⟩ := hOpens
      obtain ⟨ts', last, hTs', hLines, rfl⟩ := addFile_eq_ok hRead
      cases hTs.symm.trans hTs'
      obtain ⟨data, hData, hDecoded⟩ := hFrom.exists_data
      have hCount := hFrom.count_addLines (p := p) (k := chain.count p)
        (fun r' hInner => ih (fun hSame => hDecoded.trans (hLoad data (hSame ▸ hData))) hInner)
        hLines
      rw [Token.flatten_logicalLines, starts_started] at hCount
      have hAtLeast := hOwn hText hTs
      rw [← List.singleton_append, List.count_append]
      split
      · rw [starts_addOnce]
        omega
      · omega

/-- The texts of the files are texts that are read for the unit. -/
def Sourced (s : IncludeSearch) (path : String) (text : Text) (r : Reading) : Prop :=
  ∀ file ∈ r.files, IsSource (some s) path text file.1 file.2

theorem sourced_read (hSource : IsSource (some s) path text o.path o.text)
    (hr : Sourced s path text o.before) (h : o.read (addFileWithin (some s) budget) = .ok r') :
    Sourced s path text r' := by
  induction budget using Nat.strongRecOn generalizing o r' with
  | ind budget ih =>
      have hRun : ∃ tokens, Token.ofText o.path o.text = .ok tokens ∧ Sourced s path text r' := by
        refine Opening.read_preserves (P := fun _ r => Sourced s path text r) ?_ ?_ ?_ ?_ h
        · exact fun ts r line hr => hr
        · exact fun ts r hr => hr
        · intro lines file hFile
          rcases mem_assign hFile with rfl | hFile
          · exact hSource
          · exact hr file hFile
        · intro less ts o' r' hLess hOpens hr hRead
          obtain ⟨tokens, -, hFrom⟩ := hOpens
          obtain ⟨data, hData, hDecoded⟩ := hFrom.exists_data
          exact ih less (by omega) (.inr ⟨s, rfl, data, hData, hDecoded⟩) hr hRead
      obtain ⟨tokens, -, hSourced⟩ := hRun
      exact hSourced

/-- A file that is read once is not empty. -/
theorem IsOnce.exists_start (h : IsOnce path text) :
    ∃ tokens c, Token.ofText path text = .ok tokens ∧ c ∈ Token.startsIn path tokens := by
  obtain ⟨tokens, hTokens, hMarks⟩ := h
  have hLine : ∃ line ∈ Token.logicalLines tokens, ∃ t, t ∈ line := by
    rcases hMarks with hGuard | ⟨line, hLine, hMarks⟩
    · obtain ⟨guard, hGuard⟩ := Option.isSome_iff_exists.mp hGuard
      obtain ⟨o, os, d, ds, others, hLines, -⟩ := includeGuard?_eq_some hGuard
      exact ⟨o :: os, by simp [hLines], o, List.mem_cons_self⟩
    · cases line with
      | nil => cases hMarks
      | cons t ts => exact ⟨t :: ts, hLine, t, List.mem_cons_self⟩
  obtain ⟨line, hLine, t, ht⟩ := hLine
  have hMem := Token.mem_of_mem_logicalLines hLine ht
  refine ⟨tokens, t.span.start, hTokens, List.mem_map_of_mem (List.mem_filter.mpr ⟨hMem, ?_⟩)⟩
  simpa using ((Token.pairwise_of_ofTextAt hTokens).1 t hMem).1

end Reading

end Demacro
