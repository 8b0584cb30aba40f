import Demacro.Proofs.Lexing.Layout
import Demacro.Proofs.Scopes

/-!
Scopes that are read off tokens, also where braces do not balance. A look back from a place that
counts closing braces finds those braces without a partner in front of the place that are open for
who goes through the tokens from the front, and a look ahead from each of them that counts opening
braces finds its end behind the place. So the scopes lie around the place and in one another.
-/

namespace Demacro

/-- The numbers of the open braces after one more token, the innermost first. A closing brace that
has no partner is passed over. -/
def OpenBrace.nest (stack : List Nat) : PlacedToken × Nat → List Nat
  | (t, i) => if t.isOpenBrace then i :: stack else if t.isCloseBrace then stack.tail else stack

/-- The numbers of the braces that are open behind some tokens, the innermost first. -/
def OpenBrace.forward (tokens : List PlacedToken) : List Nat :=
  tokens.zipIdx.foldl nest []

/-- A token with those in front of it and those behind it. -/
def OpenBrace.at? (tokens : List PlacedToken) (i : Nat) : Option OpenBrace :=
  tokens[i]?.map fun t => ⟨(tokens.take i).reverse, t, tokens.drop (i + 1)⟩

/-- The scopes around an offset, the outermost first, for who goes through the tokens in front of it
from the first one on. -/
def FileTokens.framesFromFront (f : FileTokens) (offset : Int) : List Frame :=
  (OpenBrace.forward (f.tokens.toList.filter fun t => t.span.start < offset)).reverse.filterMap
      fun i =>
    (OpenBrace.at? f.tokens.toList i).bind (OpenBrace.frame? f offset)

/-- Closing braces do not end in front of where they start, nor in front of where one before them
ends, and they end in the text. -/
structure ClosesFit (code : List PlacedToken) (length : Nat) : Prop where
  inText : ∀ t ∈ code, t.isCloseBrace = true → t.span.start ≤ t.span.stop ∧ t.span.stop ≤ length
  ordered : code.Pairwise fun t u => t.isCloseBrace = true → u.isCloseBrace = true →
    t.span.stop ≤ u.span.stop

theorem Token.isOpenBrace_eq_false {t : Token} (h : t.isCloseBrace = true) :
    t.isOpenBrace = false :=
  isPunct_eq_false h _ (by decide)

namespace OpenBrace

variable {before after ts : List PlacedToken} {closed depth j s : Nat} {b : OpenBrace}

theorem forward_reverse_cons (before : List PlacedToken) (t : PlacedToken) :
    forward (t :: before).reverse = nest (forward before.reverse) (t, before.length) := by
  rw [List.reverse_cons, forward, List.zipIdx_append, List.foldl_append]
  simp [forward]

theorem at?_reverse (before after : List PlacedToken) (t : PlacedToken) :
    at? (before.reverse ++ t :: after) before.length = some ⟨before, t, after⟩ := by
  have hFront : (before.reverse ++ t :: after).take before.length = before.reverse :=
    List.take_left' List.length_reverse
  have hBack : (before.reverse ++ t :: after).drop (before.length + 1) = after := by
    rw [List.append_cons]
    exact List.drop_left' (by simp)
  simp [at?, hFront, hBack]

/-- A look back passes over as many of the braces that are open in front as it has met closing
ones. -/
theorem scan_eq_filterMap (closed : Nat) (before after : List PlacedToken) :
    scan closed before after
      = ((forward before.reverse).drop closed).filterMap (at? (before.reverse ++ after)) := by
  fun_induction scan closed before after with
  | case1 => simp [forward]
  | case2 closed t before after hClose ih =>
      rw [ih, forward_reverse_cons, nest, if_neg (by simp [Token.isOpenBrace_eq_false hClose]),
        if_pos hClose, List.drop_tail, List.reverse_cons, List.append_assoc, List.singleton_append]
  | case3 t before after hClose hOpen ih =>
      rw [ih, forward_reverse_cons, nest, if_pos hOpen, List.reverse_cons, List.append_assoc,
        List.singleton_append, List.drop_zero, List.drop_zero, List.filterMap_cons_some
          (at?_reverse before after t)]
  | case4 t before after hClose hOpen n ih =>
      rw [ih, forward_reverse_cons, nest, if_pos hOpen, List.reverse_cons, List.append_assoc,
        List.singleton_append, List.drop_succ_cons]
  | case5 closed t before after hClose hOpen ih =>
      rw [ih, forward_reverse_cons, nest, if_neg hOpen, if_neg hClose, List.reverse_cons,
        List.append_assoc, List.singleton_append]

/-- The braces that a look back finds come from the tokens that it passes, in their order. -/
theorem scan_sublist (closed : Nat) (before after : List PlacedToken) :
    ((scan closed before after).map (·.brace)).Sublist before := by
  fun_induction scan closed before after with
  | case1 => exact .slnil
  | case2 closed t before after hClose ih => exact ih.cons t
  | case3 t before after hClose hOpen ih => exact ih.cons_cons t
  | case4 t before after hClose hOpen n ih => exact ih.cons t
  | case5 closed t before after hClose hOpen ih => exact ih.cons t

/-- Each brace that a look back finds is closed behind the place, by the brace that closes it and
all those that it found before. -/
theorem closing?_of_scan (hFound : (scan closed before after)[j]? = some b) :
    closing? 1 b.after = closing? (j + closed + 1) after := by
  fun_induction scan closed before after generalizing j with
  | case1 => simp at hFound
  | case2 closed t before after hClose ih =>
      rw [ih hFound, closing?, if_neg (by simp [Token.isOpenBrace_eq_false hClose]), if_pos hClose,
        if_neg (by omega)]
      rfl
  | case3 t before after hClose hOpen ih =>
      cases j with
      | zero =>
          obtain rfl := Option.some.inj hFound
          rfl
      | succ j => rw [ih hFound, closing?, if_pos hOpen]
  | case4 t before after hClose hOpen n ih =>
      rw [ih hFound, closing?, if_pos hOpen]
      rfl
  | case5 closed t before after hClose hOpen ih =>
      rw [ih hFound, closing?, if_neg hOpen, if_neg hClose]

theorem exists_of_closing? (h : closing? depth ts = some s) :
    ∃ t ∈ ts, t.isCloseBrace = true ∧ t.span.stop = s := by
  fun_induction closing? depth ts with
  | case1 => cases h
  | case2 depth t ts hOpen ih => exact List.exists_mem_cons_of_exists (ih h)
  | case3 depth t ts hOpen hClose hLast => exact ⟨t, List.mem_cons_self, hClose, Option.some.inj h⟩
  | case4 depth t ts hOpen hClose hInner ih => exact List.exists_mem_cons_of_exists (ih h)
  | case5 depth t ts hOpen hClose ih => exact List.exists_mem_cons_of_exists (ih h)

/-- One brace more is closed no earlier. -/
theorem closing?_succ (hDepth : 1 ≤ depth)
    (hOrdered : ts.Pairwise fun t u => t.isCloseBrace = true → u.isCloseBrace = true →
      t.span.stop ≤ u.span.stop)
    (h : closing? (depth + 1) ts = some s) : ∃ s', closing? depth ts = some s' ∧ s' ≤ s := by
  fun_induction closing? depth ts with
  | case1 => cases h
  | case2 depth t ts hOpen ih =>
      rw [closing?, if_pos hOpen] at h
      exact ih (by omega) hOrdered.of_cons h
  | case3 depth t ts hOpen hClose hLast =>
      rw [closing?, if_neg hOpen, if_pos hClose, if_neg (by omega)] at h
      obtain ⟨u, hu, hCloses, rfl⟩ := exists_of_closing? h
      exact ⟨t.span.stop, rfl, (List.pairwise_cons.mp hOrdered).1 u hu hClose hCloses⟩
  | case4 depth t ts hOpen hClose hInner ih =>
      rw [closing?, if_neg hOpen, if_pos hClose, if_neg (by omega)] at h
      exact ih (by omega) hOrdered.of_cons (by rwa [Nat.sub_add_cancel hDepth])
  | case5 depth t ts hOpen hClose ih =>
      rw [closing?, if_neg hOpen, if_neg hClose] at h
      exact ih hDepth hOrdered.of_cons h

/-- The more braces are to be closed, the later this is done. What is never done counts as done at
the end. -/
theorem closing?_getD_mono {length : Nat} (hFit : ClosesFit ts length) {d d' : Nat} (hDepth : 1 ≤ d)
    (hLe : d ≤ d') : (closing? d ts).getD length ≤ (closing? d' ts).getD length := by
  induction hLe with
  | refl => exact Nat.le_refl _
  | @step d' hLe ih =>
      refine ih.trans ?_
      cases hNext : closing? (d' + 1) ts with
      | some s =>
          obtain ⟨s', hSame, hLess⟩ := closing?_succ (hDepth.trans hLe) hFit.ordered hNext
          simpa [hSame] using hLess
      | none =>
          cases hSame : closing? d' ts with
          | none => exact Nat.le_refl _
          | some s =>
              obtain ⟨t, ht, hClose, rfl⟩ := exists_of_closing? hSame
              exact (hFit.inText t ht hClose).2

/-- A scope that is read off tokens reaches from its brace to where that is closed. -/
theorem range_of_frame? {f : FileTokens} {offset : Int} {g : Frame}
    (h : frame? f offset b = some g) :
    g.start = b.brace.span.start ∧ g.stop = (closing? 1 b.after).getD f.length := by
  unfold frame? at h
  dsimp only at h
  repeat' split at h
  all_goals cases h
  all_goals exact ⟨rfl, rfl⟩

end OpenBrace

theorem lowerBound_eq {p : Nat → Bool} {low high k : Nat} (hLow : low ≤ k) (hHigh : k ≤ high)
    (hBelow : ∀ i < k, p i = true) (hAbove : ∀ i, k ≤ i → p i = false) :
    lowerBound p low high = k := by
  fun_induction lowerBound p low high with
  | case1 low high hRoom middle hTest ih =>
      refine ih ?_ hHigh
      by_contra hFar
      have hFail := hAbove middle (by omega)
      rw [hTest] at hFail
      cases hFail
  | case2 low high hRoom middle hTest ih =>
      refine ih hLow ?_
      by_contra hFar
      exact hTest (hBelow middle (by omega))
  | case3 low high hRoom => omega

/-- A test that only the first elements of a list pass divides the list. -/
theorem filter_append_filter_not {α : Type} {p : α → Bool} {l : List α}
    (h : l.Pairwise fun x y => p y = true → p x = true) : l.filter p ++ l.filter (!p ·) = l := by
  induction l with
  | nil => rfl
  | cons x l ih =>
      obtain ⟨hFirst, hRest⟩ := List.pairwise_cons.mp h
      cases hTest : p x with
      | true => simp [hTest, ih hRest]
      | false =>
          have hNone : ∀ y ∈ l, p y = false := by
            intro y hy
            by_contra hPass
            rw [hFirst y hy (by simpa using hPass)] at hTest
            cases hTest
          have hEmpty : l.filter p = [] := List.filter_eq_nil_iff.mpr fun y hy => by
            simp [hNone y hy]
          have hFull : l.filter (!p ·) = l := List.filter_eq_self.mpr fun y hy => by
            simp [hNone y hy]
          simp [hTest, hEmpty, hFull]

namespace FileTokens

variable {f : FileTokens} {offset : Int} {b : OpenBrace}

/-- The search finds where the tokens that start in front of an offset end. -/
theorem countBefore_eq {front back : List PlacedToken} (hTokens : f.tokens.toList = front ++ back)
    (hFront : ∀ t ∈ front, (t.span.start : Int) < offset)
    (hBack : ∀ t ∈ back, offset ≤ t.span.start) : f.countBefore offset = front.length := by
  have hToken : ∀ i : Nat, f.tokens[i]? = (front ++ back)[i]? := by
    intro i
    rw [← hTokens, Array.getElem?_toList]
  refine lowerBound_eq (Nat.zero_le _) ?_ ?_ ?_
  · rw [← Array.length_toList, hTokens, List.length_append]
    exact Nat.le_add_right _ _
  · intro i hi
    rw [hToken, List.getElem?_append_left hi, List.getElem?_eq_getElem hi]
    simpa using hFront _ (List.getElem_mem hi)
  · intro i hi
    rw [hToken, List.getElem?_append_right hi]
    cases hAt : back[i - front.length]? with
    | none => rfl
    | some t => simpa using hBack t (List.mem_of_getElem? hAt)

theorem before_after_of_append (offset : Int) {front back : List PlacedToken}
    (hTokens : f.tokens.toList = front ++ back)
    (hFront : ∀ t ∈ front, (t.span.start : Int) < offset)
    (hBack : ∀ t ∈ back, offset ≤ t.span.start) :
    f.before offset = front.reverse ∧ f.after offset = back := by
  rw [before, after, countBefore_eq hTokens hFront hBack, hTokens, List.take_left, List.drop_left]
  exact ⟨rfl, rfl⟩

/-- Where tokens are sorted, a place has those that start in front of it before it and all others
after it. -/
theorem exists_split (hSorted : f.tokens.toList.Pairwise fun t u => t.span.start ≤ u.span.start)
    (offset : Int) :
    f.before offset = (f.tokens.toList.filter fun t => t.span.start < offset).reverse
      ∧ f.tokens.toList = (f.before offset).reverse ++ f.after offset
      ∧ (∀ t ∈ f.before offset, (t.span.start : Int) < offset) ∧ ∀ t ∈ f.after offset,
      offset ≤ t.span.start := by
  have hOrder : f.tokens.toList.Pairwise fun t u =>
      decide ((u.span.start : Int) < offset) = true → decide
          ((t.span.start : Int) < offset) = true := by
    refine hSorted.imp fun hLe hLess => ?_
    rw [decide_eq_true_iff] at hLess ⊢
    omega
  have hSplit := filter_append_filter_not hOrder
  obtain ⟨hBefore, hAfter⟩ := before_after_of_append offset hSplit.symm (by simp) (by simp)
  refine ⟨hBefore, ?_, ?_, ?_⟩
  · rw [hBefore, hAfter, List.reverse_reverse, hSplit]
  · simp [hBefore]
  · simp [hAfter]

/-- A look back finds the braces that are open for who goes through the tokens from the front. -/
theorem openBraces_eq (hSorted : f.tokens.toList.Pairwise fun t u => t.span.start ≤ u.span.start)
    (offset : Int) : f.openBraces offset
      = (OpenBrace.forward (f.tokens.toList.filter fun t => t.span.start < offset)).filterMap
          (OpenBrace.at? f.tokens.toList) := by
  obtain ⟨hBefore, hTokens, -, -⟩ := exists_split hSorted offset
  rw [openBraces, OpenBrace.scan_eq_filterMap, List.drop_zero, ← hTokens, hBefore,
    List.reverse_reverse]

/-- A brace that is open at a place starts in front of it and ends behind it. -/
theorem range_of_mem_openBraces
    (hSorted : f.tokens.toList.Pairwise fun t u => t.span.start ≤ u.span.start)
    (hFit : ClosesFit f.tokens.toList f.length) (hOffset : offset ≤ f.length)
    (hb : b ∈ f.openBraces offset) :
    (b.brace.span.start : Int) < offset
    ∧ offset ≤ (OpenBrace.closing? 1 b.after).getD f.length := by
  obtain ⟨-, hTokens, hFront, hBack⟩ := exists_split hSorted offset
  constructor
  · exact hFront _ ((OpenBrace.scan_sublist 0 _ _).subset (List.mem_map_of_mem hb))
  · obtain ⟨j, hj⟩ := List.getElem?_of_mem hb
    rw [OpenBrace.closing?_of_scan hj]
    cases hClose : OpenBrace.closing? (j + 0 + 1) (f.after offset) with
    | none => exact hOffset
    | some s =>
        obtain ⟨t, ht, hCloses, rfl⟩ := OpenBrace.exists_of_closing? hClose
        have hMem : t ∈ f.tokens.toList := hTokens ▸ List.mem_append_right _ ht
        have hStart := hBack t ht
        have hStop := (hFit.inText t hMem hCloses).1
        rw [Option.getD_some]
        omega

/-- Of two braces that are open at a place the outer one starts first and ends last. -/
theorem openBraces_pairwise
    (hSorted : f.tokens.toList.Pairwise fun t u => t.span.start ≤ u.span.start)
    (hFit : ClosesFit f.tokens.toList f.length) : (f.openBraces offset).Pairwise fun inner outer =>
    outer.brace.span.start ≤ inner.brace.span.start
      ∧ (OpenBrace.closing? 1 inner.after).getD f.length
      ≤ (OpenBrace.closing? 1 outer.after).getD f.length := by
  obtain ⟨-, hTokens, -, -⟩ := exists_split hSorted offset
  refine List.Pairwise.and ?_ ?_
  · rw [hTokens] at hSorted
    have hBefore := List.pairwise_reverse.mp (List.pairwise_append.mp hSorted).1
    exact List.pairwise_map.mp (hBefore.sublist (OpenBrace.scan_sublist 0 _ (f.after offset)))
  · have hAfter : ClosesFit (f.after offset) f.length := by
      constructor
      · intro t ht
        exact hFit.inText t (hTokens ▸ List.mem_append_right _ ht)
      · have hOrdered := hFit.ordered
        rw [hTokens] at hOrdered
        exact (List.pairwise_append.mp hOrdered).2.1
    refine List.pairwise_iff_getElem.mpr fun j k hj hk hLess => ?_
    rw [OpenBrace.closing?_of_scan (List.getElem?_eq_getElem hj),
      OpenBrace.closing?_of_scan (List.getElem?_eq_getElem hk)]
    exact OpenBrace.closing?_getD_mono hAfter (by omega) (by omega)

/-- The tokens of a text stand in it as they are listed. -/
theorem sorted_closesFit_of_ofText {path : String} {t : Text} {code : List PlacedToken}
    (hRead : Token.ofText path t = .ok (code.map (·.toToken))) :
    code.Pairwise (fun t u => t.span.start ≤ u.span.start) ∧ ClosesFit code t.length := by
  have hCover := Token.cover_of_ofText hRead
  have hPart : ∀ x ∈ code, x.span.start < x.span.stop ∧ x.span.stop ≤ t.length := by
    intro x hx
    have hPart := hCover.parts x.toToken (List.mem_map_of_mem hx)
    exact ⟨hPart.nonempty, hPart.inside⟩
  have hApart : code.Pairwise fun x y => x.span.stop ≤ y.span.start :=
    List.pairwise_map.mp hCover.apart
  refine ⟨?_, fun x hx _ => ⟨(hPart x hx).1.le, (hPart x hx).2⟩, ?_⟩
  · refine hApart.imp_of_mem fun hx _ hLe => ?_
    exact (hPart _ hx).1.le.trans hLe
  · refine hApart.imp_of_mem fun _ hy hLe _ _ => ?_
    exact hLe.trans (hPart _ hy).1.le

/-- Whether or not braces balance, a look back finds the scopes of the braces that are open for who
goes through the compiled tokens from the front. The scopes lie around the place and in one
another. -/
theorem framesAt_ofCode {path : String} {code : List PlacedToken} {length : Nat}
    (hSorted : code.Pairwise fun t u => t.span.start ≤ u.span.start) (hOffset : offset ≤ length) :
    (ofCode path code length).framesAt offset = (ofCode path code length).framesFromFront offset
      ∧ (ClosesFit code length →
        (∀ g ∈ (ofCode path code length).framesAt offset, (g.start : Int) < offset
          ∧ offset ≤ g.stop)
        ∧ ((ofCode path code length).framesAt offset).Pairwise fun outer inner =>
          outer.start ≤ inner.start ∧ inner.stop ≤ outer.stop) := by
  have hLive :
      (ofCode path code length).tokens.toList = code.filter (·.reachability != .disabled) :=
    List.toList_toArray
  have hSorted : (ofCode path code length).tokens.toList.Pairwise fun t u =>
      t.span.start ≤ u.span.start := by
    rw [hLive]
    exact hSorted.filter _
  constructor
  · rw [framesAt, openBraces_eq hSorted, ← List.filterMap_reverse, List.filterMap_filterMap]
    rfl
  · intro hFit
    have hFit : ClosesFit (ofCode path code length).tokens.toList length := by
      rw [hLive]
      exact ⟨fun t ht => hFit.inText t (List.mem_of_mem_filter ht), hFit.ordered.filter _⟩
    constructor
    · intro g hg
      obtain ⟨b, hb, hFrame⟩ := List.mem_filterMap.mp hg
      obtain ⟨hStart, hStop⟩ := OpenBrace.range_of_frame? hFrame
      rw [hStart, hStop]
      exact range_of_mem_openBraces hSorted hFit hOffset (List.mem_reverse.mp hb)
    · refine (List.pairwise_reverse.mpr (openBraces_pairwise hSorted hFit)).filterMap _ ?_
      intro outer inner hWithin g hg g' hg'
      obtain ⟨hStart, hStop⟩ := OpenBrace.range_of_frame? hg
      obtain ⟨hStart', hStop'⟩ := OpenBrace.range_of_frame? hg'
      rw [hStart, hStop, hStart', hStop']
      exact hWithin

/-- Code with a brace that closes nothing and a scope that is never closed. An enumeration is no
scope. -/
theorem framesAt_ofCode_unbalanced :
    let text : Text :=
      "\x7d class A \x7b \x7d; namespace n \x7b enum \x7b void g() \x7b here \x7d \x7d x"
    ∃ tokens, Token.ofText "f.cpp" text = .ok tokens
      ∧ let code : List PlacedToken := tokens.map fun t => ⟨t, 0, .unconditional⟩
        let f := ofCode "f.cpp" code 57
        code.Pairwise (fun t u => t.span.start ≤ u.span.start) ∧ (47 : Int) ≤ (57 : Nat)
        ∧ ClosesFit code 57
        ∧ (f.framesFromFront 47).map (fun g => (g.name, g.start, g.stop)) = [(some "n", 27, 57),
          (some "g", 45, 53)]
        ∧ f.framesAt 47 = f.framesFromFront 47
        ∧ (ClosesFit code 57 →
          (∀ g ∈ f.framesAt 47, (g.start : Int) < 47 ∧ 47 ≤ (g.stop : Int))
          ∧ (f.framesAt 47).Pairwise fun outer inner => outer.start ≤ inner.start
          ∧ inner.stop ≤ outer.stop) := by
  intro text
  refine Except.exists_of_passes (fun tokens =>
    let code : List PlacedToken := tokens.map fun t => ⟨t, 0, .unconditional⟩
    ((ofCode "f.cpp" code 57).framesFromFront 47).map (fun g => (g.name, g.start, g.stop))
      = [(some "n", 27, 57), (some "g", 45, 53)]) (by decide +kernel) ?_
  intro tokens hRead hKnown code f
  have hCode : Token.ofText "f.cpp" text = .ok (code.map (·.toToken)) := by
    rw [hRead, List.map_map]
    exact congrArg Except.ok (List.map_id tokens).symm
  obtain ⟨hSorted, hFit⟩ := sorted_closesFit_of_ofText hCode
  exact ⟨hSorted, by decide, hFit, of_decide_eq_true hKnown, framesAt_ofCode hSorted (by decide)⟩

end FileTokens

end Demacro
