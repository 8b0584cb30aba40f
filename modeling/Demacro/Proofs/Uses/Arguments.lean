import Demacro.Proofs.Success

/-!
What an argument list is, told apart from the way it is read: arguments between a parenthesis and
its partner, with commas between them that stand in no inner pair. The reader finds exactly these
lists. Counting parentheses tells the same: a list is found if and only if its parenthesis has a
partner, and its arguments are what the outer commas leave of the tokens between the two.
-/

namespace Demacro

namespace Arguments

/-- Each parenthesis in the tokens has its partner among them. `commas` says whether commas may
stand outside of all pairs. -/
inductive Balanced : Bool → List PlacedToken → Prop
  | nil {commas : Bool} : Balanced commas []
  | token {commas : Bool} {t : PlacedToken} {ts : List PlacedToken}
      (notOpen : t.isPunct "(" = false)
      (notClose : t.isPunct ")" = false) (notComma : commas = false → t.isPunct "," = false)
      (rest : Balanced commas ts) : Balanced commas (t :: ts)
  | group {commas : Bool} {opening closing : PlacedToken} {inner ts : List PlacedToken}
      (isOpen : opening.isPunct "(" = true) (isClose : closing.isPunct ")" = true)
      (inside : Balanced true inner)
      (rest : Balanced commas ts) : Balanced commas (opening :: inner ++ closing :: ts)

/-- The tokens are the arguments with a comma between each two of them. -/
inductive Separated : List PlacedToken → List (List PlacedToken) → Prop
  | last {argument : List PlacedToken} (h : Balanced false argument) : Separated argument [argument]
  | more {argument ts : List PlacedToken} {comma : PlacedToken}
      {arguments : List (List PlacedToken)}
      (h : Balanced false argument) (isComma : comma.isPunct "," = true)
      (rest : Separated ts arguments) : Separated (argument ++ comma :: ts) (argument :: arguments)

/-- The tokens start with an argument list that has the given arguments; `n` tokens come before the
parenthesis that closes it. -/
structure Starts (tokens : List PlacedToken) (arguments : List (List PlacedToken)) (n : Nat) :
    Prop where
  exists_split : ∃ opening inside closing rest, tokens = opening :: inside ++ closing :: rest
    ∧ opening.isPunct "(" = true ∧ closing.isPunct ")" = true ∧ Separated inside arguments
    ∧ n = inside.length + 1

section

variable {commas : Bool} {t closing : PlacedToken} {ts inner rest : List PlacedToken} {depth : Int}
  {argument : List PlacedToken} {arguments : List (List PlacedToken)} {n : Nat}
  {r : List (List PlacedToken) × Nat}

theorem Separated.group (isOpen : t.isPunct "(" = true) (isClose : closing.isPunct ")" = true)
    (inside : Balanced true inner) (h : Separated ts (argument :: arguments)) :
    Separated (t :: inner ++ closing :: ts) ((t :: inner ++ closing :: argument) :: arguments) := by
  cases h with
  | last hArgument => exact .last (.group isOpen isClose inside hArgument)
  | more hArgument isComma hRest =>
      simpa using Separated.more (.group isOpen isClose inside hArgument) isComma hRest

theorem Separated.token (notOpen : t.isPunct "(" = false) (notClose : t.isPunct ")" = false)
    (notComma : t.isPunct "," = false) (h : Separated ts (argument :: arguments)) :
    Separated (t :: ts) ((t :: argument) :: arguments) := by
  cases h with
  | last hArgument => exact .last (.token notOpen notClose (fun _ => notComma) hArgument)
  | more hArgument isComma hRest =>
      exact .more (.token notOpen notClose (fun _ => notComma) hArgument) isComma hRest

/-- Reading in front of more tokens than the list needs. -/
theorem push_cons : push t (argument :: arguments, n) = ((t :: argument) :: arguments, n + 1) := rfl

theorem foldr_push_cons (pre : List PlacedToken) :
    pre.foldr push (argument :: arguments, n) = ((pre ++ argument) :: arguments,
      n + pre.length) := by
  induction pre with
  | nil => rfl
  | cons t pre ih => rw [List.foldr_cons, ih, push_cons]; simp; omega

theorem scan_open (h : t.isPunct "(" = true) (hDepth : depth ≠ 0) :
    scan depth (t :: ts) = (scan (depth + 1) ts).map (push t) := by
  simp [scan, h, hDepth]

theorem scan_close (h : t.isPunct ")" = true) (hDepth : depth ≠ 1) :
    scan depth (t :: ts) = (scan (depth - 1) ts).map (push t) := by
  simp [scan, h, hDepth, Token.isPunct_eq_false h "(" (by decide)]

theorem scan_last (h : t.isPunct ")" = true) : scan 1 (t :: ts) = some ([[]], 0) := by
  simp [scan, h, Token.isPunct_eq_false h "(" (by decide)]

theorem scan_comma (h : t.isPunct "," = true) : scan 1 (t :: ts) = (scan 1 ts).map fun r =>
    ([] :: r.1, r.2 + 1) := by
  simp [scan, h, Token.isPunct_eq_false h "(" (by decide), Token.isPunct_eq_false h ")" (by decide)]

theorem scan_token (notOpen : t.isPunct "(" = false) (notClose : t.isPunct ")" = false)
    (notComma : depth = 1 → t.isPunct "," = false) :
    scan depth (t :: ts) = (scan depth ts).map (push t) := by
  by_cases hDepth : depth = 1
  · simp [scan, notOpen, notClose, notComma hDepth]
  · simp [scan, notOpen, notClose, hDepth]

/-- Tokens that are balanced among themselves all go into the argument that they stand in. -/
theorem Balanced.scan_append (h : Balanced commas inner) (hDepth : 0 < depth)
    (hCommas : depth = 1 → commas = false) :
    scan depth (inner ++ rest) = (scan depth rest).map (inner.foldr push) := by
  induction h generalizing depth rest with
  | nil => simp
  | @token commas t ts notOpen notClose notComma _ ih =>
      rw [List.cons_append, scan_token notOpen notClose fun h => notComma (hCommas h),
        ih hDepth hCommas, Option.map_map]
      rfl
  | @group commas opening closing inner ts isOpen isClose _ _ ihInside ihRest =>
      have hAppend : opening :: inner ++ closing :: ts ++ rest = opening
          :: (inner ++ closing :: (ts ++ rest)) := by
        simp
      rw [hAppend, scan_open isOpen (by omega), ihInside (by omega) (by omega),
        scan_close isClose (by omega), Int.add_sub_cancel, ihRest hDepth hCommas]
      simp [Function.comp_def]

/-- A list is read with its arguments. -/
theorem Separated.scan_append (h : Separated inner arguments)
    (isClose : closing.isPunct ")" = true) :
    scan 1 (inner ++ closing :: rest) = some (arguments, inner.length) := by
  induction h with
  | @last argument hArgument =>
      rw [hArgument.scan_append Int.one_pos fun _ => rfl, scan_last isClose, Option.map_some,
        foldr_push_cons]
      simp
  | @more argument ts comma arguments hArgument isComma _ ih =>
      rw [List.append_assoc, List.cons_append, hArgument.scan_append Int.one_pos fun _ => rfl,
        scan_comma isComma, ih]
      simp only [Option.map_some, foldr_push_cons]
      simp; omega

/-- What is read inside of an inner pair goes on behind the parenthesis that closes the pair. -/
theorem exists_of_scan_inner (hDepth : 0 < depth) (h : scan (depth + 1) ts = some r) :
    ∃ inner closing rest r', ts = inner ++ closing :: rest ∧ Balanced true inner
    ∧ closing.isPunct ")" = true
      ∧ scan depth rest = some r' ∧ r = (inner ++ [closing]).foldr push r' := by
  induction hLength : ts.length using Nat.strongRecOn generalizing ts depth r with
  | ind length ih =>
      subst hLength
      cases ts with
      | nil => cases h
      | cons t ts =>
          by_cases isOpen : t.isPunct "(" = true
          · rw [scan_open isOpen (by omega), Option.map_eq_some_iff] at h
            obtain ⟨r₁, h₁, rfl⟩ := h
            obtain ⟨inner, closing, behind, r₂, rfl, hInner, isClose, h₂, rfl⟩ :=
              ih ts.length (by simp) (by omega) h₁ rfl
            obtain ⟨after, last, rest, r', rfl, hAfter, isLast, h', rfl⟩ :=
              ih behind.length (by simp; omega) hDepth h₂ rfl
            exact ⟨t :: inner ++ closing :: after, last, rest, r',
              by simp, .group isOpen isClose hInner hAfter, isLast, h', by simp⟩
          rw [Bool.not_eq_true] at isOpen
          by_cases isClose : t.isPunct ")" = true
          · rw [scan_close isClose (by omega), Option.map_eq_some_iff, Int.add_sub_cancel] at h
            obtain ⟨r', h', rfl⟩ := h
            exact ⟨[], t, ts, r', rfl, .nil, isClose, h', rfl⟩
          rw [Bool.not_eq_true] at isClose
          rw [scan_token isOpen isClose (by omega), Option.map_eq_some_iff] at h
          obtain ⟨r₁, h₁, rfl⟩ := h
          obtain ⟨inner, closing, rest, r', rfl, hInner, isLast, h', rfl⟩ :=
            ih ts.length (by simp) hDepth h₁ rfl
          exact ⟨t :: inner, closing, rest, r', rfl, .token isOpen isClose nofun hInner, isLast,
            h', rfl⟩

/-- What is read as a list is one. -/
theorem exists_of_scan (h : scan 1 ts = some (arguments, n)) :
    ∃ inside closing rest, ts = inside ++ closing :: rest
    ∧ closing.isPunct ")" = true ∧ Separated inside arguments ∧ n = inside.length := by
  induction hLength : ts.length using Nat.strongRecOn generalizing ts arguments n with
  | ind length ih =>
      subst hLength
      cases ts with
      | nil => cases h
      | cons t ts =>
          by_cases isOpen : t.isPunct "(" = true
          · rw [scan_open isOpen (by omega), Option.map_eq_some_iff] at h
            obtain ⟨r₁, h₁, hPush⟩ := h
            obtain ⟨inner, closing, behind, ⟨arguments', n'⟩, rfl, hInner, isClose, h₂, rfl⟩ :=
              exists_of_scan_inner Int.one_pos h₁
            obtain ⟨inside, last, rest, rfl, isLast, hSeparated, rfl⟩ :=
              ih behind.length (by simp; omega) h₂ rfl
            obtain ⟨argument, more, rfl⟩ : ∃ argument more, arguments' = argument :: more := by
              cases hSeparated <;> exact ⟨_, _, rfl⟩
            rw [foldr_push_cons, push_cons, Prod.mk.injEq] at hPush
            obtain ⟨rfl, rfl⟩ := hPush
            refine ⟨t :: inner ++ closing :: inside, last, rest,
              by simp, isLast, ?_, by simp; omega⟩
            simpa using hSeparated.group isOpen isClose hInner
          rw [Bool.not_eq_true] at isOpen
          by_cases isClose : t.isPunct ")" = true
          · rw [scan_last isClose] at h
            cases h
            exact ⟨[], t, ts, rfl, isClose, .last .nil, rfl⟩
          rw [Bool.not_eq_true] at isClose
          by_cases isComma : t.isPunct "," = true
          · rw [scan_comma isComma, Option.map_eq_some_iff] at h
            obtain ⟨⟨arguments', n'⟩, h₁, hCons⟩ := h
            obtain ⟨inside, closing, rest, rfl, isLast, hSeparated, rfl⟩ :=
              ih ts.length (by simp) h₁ rfl
            obtain ⟨rfl, rfl⟩ := Prod.mk.inj hCons
            exact ⟨t :: inside, closing, rest, rfl, isLast, .more .nil isComma hSeparated, rfl⟩
          rw [Bool.not_eq_true] at isComma
          rw [scan_token isOpen isClose fun _ => isComma, Option.map_eq_some_iff] at h
          obtain ⟨⟨arguments', n'⟩, h₁, hPush⟩ := h
          obtain ⟨inside, closing, rest, rfl, isLast, hSeparated, rfl⟩ :=
            ih ts.length (by simp) h₁ rfl
          obtain ⟨argument, more, rfl⟩ : ∃ argument more, arguments' = argument :: more := by
            cases hSeparated <;> exact ⟨_, _, rfl⟩
          obtain ⟨rfl, rfl⟩ := Prod.mk.inj hPush
          exact ⟨t :: inside, closing, rest, rfl, isLast, hSeparated.token isOpen isClose isComma,
            rfl⟩

/-- The reader finds exactly the argument lists. -/
theorem split?_eq_some_iff (isOpen : t.isPunct "(" = true) :
    split? (t :: ts) = some (arguments, n) ↔ Starts (t :: ts) arguments n := by
  have hSplit : split? (t :: ts) = (scan 1 ts).map fun r => (r.1, r.2 + 1) := by
    simp [split?, scan, isOpen]
  rw [hSplit, Option.map_eq_some_iff]
  constructor
  · rintro ⟨⟨arguments', n'⟩, h, hEq⟩
    obtain ⟨inside, closing, rest, rfl, isClose, hSeparated, rfl⟩ := exists_of_scan h
    obtain ⟨rfl, rfl⟩ := Prod.mk.inj hEq
    exact ⟨t, inside, closing, rest, by simp, isOpen, isClose, hSeparated, rfl⟩
  · rintro ⟨opening, inside, closing, rest, hTokens, -, isClose, hSeparated, rfl⟩
    obtain ⟨rfl, rfl⟩ := List.cons.inj hTokens
    exact ⟨_, hSeparated.scan_append isClose, rfl⟩

end

/-- How many more parentheses the tokens open than they close. -/
def nesting (ts : List PlacedToken) : Int :=
  ts.countP (·.isPunct "(") - ts.countP (·.isPunct ")")

/-- The tokens close what they open, and nothing else. -/
structure IsBalanced (ts : List PlacedToken) : Prop where
  nesting_eq : nesting ts = 0
  nesting_take : ∀ n, 0 ≤ nesting (ts.take n)

/-- The tokens are balanced, and each comma among them stands inside of parentheses. -/
structure IsArgument (ts : List PlacedToken) : Prop extends IsBalanced ts where
  comma : ∀ {n t}, ts[n]? = some t → t.isPunct "," = true → 0 < nesting (ts.take n)

/-- The tokens strictly between two places. -/
def between (tokens : List PlacedToken) (i k : Nat) : List PlacedToken :=
  (tokens.take k).drop (i + 1)

/-- The token at `k` closes the parenthesis at `i`. -/
structure Closes (tokens : List PlacedToken) (i k : Nat) : Prop where
  lt : i < k
  isClose : ∃ t ∈ tokens[k]?, t.isPunct ")" = true
  isBalanced : IsBalanced (between tokens i k)

/-- The tokens are the arguments with one comma between each two of them. -/
inductive Joined : List PlacedToken → List (List PlacedToken) → Prop
  | last {argument : List PlacedToken} : Joined argument [argument]
  | more {argument ts : List PlacedToken} {comma : PlacedToken}
      {arguments : List (List PlacedToken)}
      (isComma : comma.isPunct "," = true) (rest : Joined ts arguments) :
      Joined (argument ++ comma :: ts) (argument :: arguments)

variable {tokens ts us pre inside rest : List PlacedToken} {t closing : PlacedToken} {commas : Bool}
  {i k k' n : Nat} {depth : Int} {arguments arguments' : List (List PlacedToken)}

@[simp]
theorem nesting_nil : nesting [] = 0 := rfl

theorem nesting_open (h : t.isPunct "(" = true) : nesting (t :: ts) = nesting ts + 1 := by
  simp only [nesting, List.countP_cons, h, Token.isPunct_eq_false h ")" (by decide)]
  simp
  omega

theorem nesting_close (h : t.isPunct ")" = true) : nesting (t :: ts) = nesting ts - 1 := by
  simp only [nesting, List.countP_cons, h, Token.isPunct_eq_false h "(" (by decide)]
  simp
  omega

theorem nesting_token (notOpen : t.isPunct "(" = false) (notClose : t.isPunct ")" = false) :
    nesting (t :: ts) = nesting ts := by
  simp [nesting, notOpen, notClose]

theorem nesting_append (ts us : List PlacedToken) :
    nesting (ts ++ us) = nesting ts + nesting us := by
  simp only [nesting, List.countP_append]
  push_cast
  omega

theorem IsBalanced.append (h : IsBalanced ts) (h' : IsBalanced us) : IsBalanced (ts ++ us) where
  nesting_eq := by rw [nesting_append, h.nesting_eq, h'.nesting_eq, Int.add_zero]
  nesting_take n := by
    rw [List.take_append, nesting_append]
    exact Int.add_nonneg (h.nesting_take n) (h'.nesting_take _)

theorem IsArgument.append (h : IsArgument ts) (h' : IsArgument us) : IsArgument (ts ++ us) where
  toIsBalanced := h.toIsBalanced.append h'.toIsBalanced
  comma {n t} ht hComma := by
    rw [List.take_append, nesting_append]
    rcases Nat.lt_or_ge n ts.length with hn | hn
    · rw [List.getElem?_append_left hn] at ht
      exact Int.add_pos_of_pos_of_nonneg (h.comma ht hComma) (h'.nesting_take _)
    · rw [List.getElem?_append_right hn] at ht
      rw [List.take_of_length_le hn, h.nesting_eq, Int.zero_add]
      exact h'.comma ht hComma

theorem isArgument_nil : IsArgument [] where
  nesting_eq := rfl
  nesting_take n := by simp
  comma ht := by simp at ht

theorem isBalanced_token (notOpen : t.isPunct "(" = false) (notClose : t.isPunct ")" = false) :
    IsBalanced [t] where
  nesting_eq := nesting_token notOpen notClose
  nesting_take n := by cases n <;> simp [nesting_token notOpen notClose]

theorem isArgument_token (notOpen : t.isPunct "(" = false) (notClose : t.isPunct ")" = false)
    (notComma : t.isPunct "," = false) : IsArgument [t] where
  toIsBalanced := isBalanced_token notOpen notClose
  comma {n u} hu hComma := by
    rw [List.getElem?_singleton] at hu
    split at hu
    · cases hu
      rw [notComma] at hComma
      cases hComma
    · cases hu

/-- Inside of a pair of parentheses any comma may stand. -/
theorem isArgument_group {opening : PlacedToken} (isOpen : opening.isPunct "(" = true)
    (isClose : closing.isPunct ")" = true) (h : IsBalanced ts) :
    IsArgument (opening :: ts ++ [closing]) where
  nesting_eq := by
    rw [List.cons_append, nesting_open isOpen, nesting_append, h.nesting_eq, nesting_close isClose,
      nesting_nil]
    rfl
  nesting_take n := by
    cases n with
    | zero => simp
    | succ n =>
        have hEnd : -1 ≤ nesting ([closing].take (n - ts.length)) := by
          cases n - ts.length <;> simp [nesting_close isClose]
        rw [List.cons_append, List.take_succ_cons, nesting_open isOpen, List.take_append,
          nesting_append]
        have hStart := h.nesting_take n
        omega
  comma {n t} ht hComma := by
    cases n with
    | zero =>
        obtain rfl : opening = t := by simpa using ht
        rw [Token.isPunct_eq_false isOpen "," (by decide)] at hComma
        cases hComma
    | succ n =>
        have hn : n ≤ ts.length := by
          obtain ⟨hn, -⟩ := List.getElem?_eq_some_iff.mp ht
          simpa [Nat.lt_succ_iff] using hn
        rw [List.cons_append, List.take_succ_cons, nesting_open isOpen,
          List.take_append_of_le_length hn]
        have hStart := h.nesting_take n
        omega

/-- Counting agrees with partners. -/
theorem Balanced.isBalanced (h : Balanced commas ts) : IsBalanced ts := by
  induction h with
  | nil => exact isArgument_nil.toIsBalanced
  | token notOpen notClose _ _ ih => exact (isBalanced_token notOpen notClose).append ih
  | group isOpen isClose _ _ ihInside ihRest =>
      simpa using (isArgument_group isOpen isClose ihInside).toIsBalanced.append ihRest

theorem Balanced.isArgument (h : Balanced commas ts) (hCommas : commas = false) :
    IsArgument ts := by
  induction h with
  | nil => exact isArgument_nil
  | token notOpen notClose notComma _ ih =>
      exact (isArgument_token notOpen notClose (notComma hCommas)).append (ih hCommas)
  | group isOpen isClose inside _ _ ihRest =>
      simpa using (isArgument_group isOpen isClose inside.isBalanced).append (ihRest hCommas)

theorem Separated.isBalanced (h : Separated ts arguments) : IsBalanced ts := by
  induction h with
  | last h => exact h.isBalanced
  | @more argument ts comma arguments h isComma _ ih =>
      have hComma := isBalanced_token (Token.isPunct_eq_false isComma "(" (by decide))
        (Token.isPunct_eq_false isComma ")" (by decide))
      simpa using h.isBalanced.append (hComma.append ih)

theorem Separated.joined (h : Separated ts arguments) :
    Joined ts arguments ∧ ∀ a ∈ arguments, IsArgument a := by
  induction h with
  | last h => exact ⟨.last, by simpa using h.isArgument rfl⟩
  | more h isComma _ ih =>
      exact ⟨.more isComma ih.1, List.forall_mem_cons.mpr ⟨h.isArgument rfl, ih.2⟩⟩

/-- Neither of two splits of a list goes on where the other ends, so they are one. -/
theorem append_cons_inj {a a' r r' : List PlacedToken} {x x' : PlacedToken}
    (h : a ++ x :: r = a' ++ x' :: r') (hShort : ¬ a ++ [x] <+: a') (hLong : ¬ a' ++ [x'] <+: a) :
    a = a' ∧ r = r' := by
  rcases List.append_eq_append_iff.mp h with ⟨b, rfl, hb⟩ | ⟨b, rfl, hb⟩
  · cases b with
    | nil => simp_all
    | cons y b =>
        obtain rfl := (List.cons.inj hb).1
        exact absurd ⟨b, by simp⟩ hShort
  · cases b with
    | nil => simp_all
    | cons y b =>
        obtain rfl := (List.cons.inj hb).1
        exact absurd ⟨b, by simp⟩ hLong

theorem IsBalanced.not_cut_at_close (h : IsBalanced ts) (isClose : closing.isPunct ")" = true)
    (h' : IsBalanced us) : ¬ ts ++ [closing] <+: us := by
  intro hPrefix
  have hTake := h'.nesting_take (ts ++ [closing]).length
  rw [← List.prefix_iff_eq_take.mp hPrefix, nesting_append, h.nesting_eq, nesting_close isClose,
    nesting_nil] at hTake
  omega

theorem IsArgument.not_cut_at_comma (h : IsArgument us) (isComma : t.isPunct "," = true)
    (h' : IsBalanced ts) : ¬ ts ++ [t] <+: us := by
  rintro ⟨rest, rfl⟩
  have hPos := h.comma (n := ts.length) (t := t) (by simp) isComma
  rw [List.append_assoc, List.take_left, h'.nesting_eq] at hPos
  exact Int.lt_irrefl 0 hPos

/-- Tokens are joined from arguments in one way only. -/
theorem Joined.unique (h : Joined ts arguments) (h' : Joined us arguments') (hSame : ts = us)
    (hArguments : ∀ a ∈ arguments, IsArgument a) (hArguments' : ∀ a ∈ arguments', IsArgument a) :
    arguments = arguments' := by
  induction h generalizing us arguments' with
  | @last argument =>
      cases h' with
      | last => rw [hSame]
      | @more argument' _ comma _ isComma _ =>
          have hPrefix : argument' ++ [comma] <+: argument := by
            rw [hSame]
            exact ⟨_, by rw [List.append_assoc, List.singleton_append]⟩
          exact absurd hPrefix ((hArguments _ List.mem_cons_self).not_cut_at_comma isComma
            (hArguments' _ List.mem_cons_self).toIsBalanced)
  | @more argument _ comma _ isComma _ ih =>
      rw [List.forall_mem_cons] at hArguments
      cases h' with
      | last =>
          have hPrefix : argument ++ [comma] <+: us := by
            rw [← hSame]
            exact ⟨_, by rw [List.append_assoc, List.singleton_append]⟩
          exact absurd hPrefix ((hArguments' _ List.mem_cons_self).not_cut_at_comma isComma
            hArguments.1.toIsBalanced)
      | @more argument' _ comma' _ isComma' hRest =>
          rw [List.forall_mem_cons] at hArguments'
          obtain ⟨rfl, rfl⟩ := append_cons_inj hSame
            (hArguments'.1.not_cut_at_comma isComma hArguments.1.toIsBalanced)
            (hArguments.1.not_cut_at_comma isComma' hArguments'.1.toIsBalanced)
          rw [ih hRest rfl hArguments.2 hArguments'.2]

/-- The place of a partner, told by the tokens behind the opening parenthesis. -/
theorem Closes.exists_drop (h : Closes tokens i k) : ∃ inside closing rest,
    tokens.drop (i + 1) = inside ++ closing :: rest ∧ closing.isPunct ")" = true ∧ IsBalanced inside
      ∧ between tokens i k = inside ∧ k = i + inside.length + 1 := by
  obtain ⟨hLt, ⟨closing, hClosing, isClose⟩, hBalanced⟩ := h
  obtain ⟨hk, rfl⟩ := List.getElem?_eq_some_iff.mp hClosing
  refine ⟨between tokens i k, tokens[k], tokens.drop (k + 1), ?_, isClose, hBalanced, rfl, ?_⟩
  · have hAppend : (tokens.take k ++ tokens.drop k).drop (i + 1) = between tokens i k
        ++ tokens.drop k :=
      List.drop_append_of_le_length (by rw [List.length_take]; omega)
    rwa [List.take_append_drop, List.drop_eq_getElem_cons hk] at hAppend
  · rw [between, List.length_drop, List.length_take]
    omega

/-- Behind an opening parenthesis stand balanced tokens and a closing one. -/
theorem closes_of_drop (hTokens : tokens.drop (i + 1) = inside ++ closing :: rest)
    (isClose : closing.isPunct ")" = true) (hBalanced : IsBalanced inside) :
    between tokens i (i + (inside.length + 1)) = inside
    ∧ Closes tokens i (i + (inside.length + 1)) := by
  have hBetween : between tokens i (i + (inside.length + 1)) = inside := by
    rw [between, List.drop_take, hTokens]
    exact List.take_left' (by omega)
  refine ⟨hBetween, by omega, ⟨closing, ?_, isClose⟩, by rwa [hBetween]⟩
  have hBehind : (tokens.drop (i + 1))[inside.length]? = some closing := by simp [hTokens]
  rwa [List.getElem?_drop, Nat.add_assoc, Nat.add_comm 1] at hBehind

theorem Closes.unique (h : Closes tokens i k) (h' : Closes tokens i k') : k = k' := by
  obtain ⟨inside, closing, rest, hTokens, isClose, hBalanced, -, rfl⟩ := h.exists_drop
  obtain ⟨inside', closing', rest', hTokens', isClose', hBalanced', -, rfl⟩ := h'.exists_drop
  obtain ⟨rfl, -⟩ := append_cons_inj (hTokens.symm.trans hTokens')
    (hBalanced.not_cut_at_close isClose hBalanced') (hBalanced'.not_cut_at_close isClose' hBalanced)
  rfl

/-- A list that is closed somewhere is read to an end. -/
theorem isSome_scan (hDepth : 0 < depth) (h : nesting (ts.take n) = -depth) :
    (scan depth ts).isSome = true := by
  induction ts generalizing depth n with
  | nil =>
      rw [List.take_nil, nesting_nil] at h
      omega
  | cons t ts ih =>
      cases n with
      | zero =>
          rw [List.take_zero, nesting_nil] at h
          omega
      | succ n =>
          rw [List.take_succ_cons] at h
          by_cases isOpen : t.isPunct "(" = true
          · rw [nesting_open isOpen] at h
            rw [scan_open isOpen (by omega), Option.isSome_map]
            exact ih (n := n) (by omega) (by omega)
          rw [Bool.not_eq_true] at isOpen
          by_cases isClose : t.isPunct ")" = true
          · rw [nesting_close isClose] at h
            by_cases hLast : depth = 1
            · subst hLast
              rw [scan_last isClose, Option.isSome_some]
            · rw [scan_close isClose hLast, Option.isSome_map]
              exact ih (n := n) (by omega) (by omega)
          rw [Bool.not_eq_true] at isClose
          rw [nesting_token isOpen isClose] at h
          by_cases isComma : depth = 1 ∧ t.isPunct "," = true
          · obtain ⟨rfl, isComma⟩ := isComma
            rw [scan_comma isComma, Option.isSome_map]
            exact ih hDepth h
          · rw [scan_token isOpen isClose (by simpa using isComma), Option.isSome_map]
            exact ih hDepth h

/-- At an opening parenthesis a list is read if and only if the parenthesis has a partner. What is
read are the arguments between the two, up to the partner. -/
theorem split?_exact (hOpen : ∃ t ∈ tokens[i]?, t.isPunct "(" = true) :
    (split? (tokens.drop i) = none ↔ ∀ k, ¬ Closes tokens i k)
      ∧ ∀ arguments n, split? (tokens.drop i) = some (arguments, n) ↔
        Closes tokens i (i + n) ∧ Joined (between tokens i (i + n)) arguments ∧ ∀ a ∈ arguments,
        IsArgument a := by
  obtain ⟨t, hToken, isOpen⟩ := hOpen
  obtain ⟨hi, rfl⟩ := List.getElem?_eq_some_iff.mp hToken
  have hDrop : tokens.drop i = tokens[i] :: tokens.drop (i + 1) := List.drop_eq_getElem_cons hi
  have hRead : ∀ arguments n, split? (tokens.drop i) = some (arguments, n) →
      Closes tokens i (i + n) ∧ Joined (between tokens i (i + n)) arguments ∧ ∀ a ∈ arguments,
      IsArgument a := by
    intro arguments n h
    rw [hDrop, split?_eq_some_iff isOpen] at h
    obtain ⟨opening, inside, closing, rest, hTokens, -, isClose, hSeparated, rfl⟩ := h
    obtain ⟨hBetween, hCloses⟩ :=
      closes_of_drop (List.cons.inj hTokens).2 isClose hSeparated.isBalanced
    rw [hBetween]
    exact ⟨hCloses, hSeparated.joined⟩
  have hFound : ∀ k, Closes tokens i k →
      ∃ arguments n, split? (tokens.drop i) = some (arguments, n) := by
    intro k h
    obtain ⟨inside, closing, rest, hTokens, isClose, hBalanced, -, -⟩ := h.exists_drop
    have hNesting : nesting ((inside ++ closing :: rest).take (inside.length + 1)) = -1 := by
      simp [List.take_append, List.take_of_length_le, nesting_append, hBalanced.nesting_eq,
        nesting_close isClose]
    obtain ⟨⟨arguments, n⟩, hScan⟩ := Option.isSome_iff_exists.mp (isSome_scan Int.one_pos hNesting)
    refine ⟨arguments, n + 1, ?_⟩
    rw [hDrop, hTokens, split?, scan, if_pos isOpen, if_pos rfl, hScan, Option.map_some]
  constructor
  · constructor
    · intro hNone k hCloses
      obtain ⟨arguments, n, h⟩ := hFound k hCloses
      rw [hNone] at h
      cases h
    · intro hOpen
      cases h : split? (tokens.drop i) with
      | none => rfl
      | some r => exact absurd (hRead r.1 r.2 h).1 (hOpen _)
  · intro arguments n
    refine ⟨hRead arguments n, fun ⟨hCloses, hJoined, hArguments⟩ => ?_⟩
    obtain ⟨arguments', n', h⟩ := hFound _ hCloses
    obtain ⟨hCloses', hJoined', hArguments'⟩ := hRead _ _ h
    obtain rfl : n = n' := Nat.add_left_cancel (hCloses.unique hCloses')
    rw [h, hJoined.unique hJoined' rfl hArguments hArguments']

/-- A list with commas in parentheses and in brackets, and one that is never closed. -/
theorem split?_exact_nested : ∃ ts, Token.ofText "f.cpp" "F(a, (b, c), [d, e]) (f" = .ok ts
    ∧ ∀ tokens, tokens = CompilationUnit.placeTokens 0 .unconditional ts →
      (∃ t ∈ tokens[1]?, t.isPunct "(" = true) ∧ (∃ t ∈ tokens[16]?, t.isPunct "(" = true)
      ∧ (∃ arguments, arguments.length = 4 ∧ split? (tokens.drop 1) = some (arguments, 14)
        ∧ Closes tokens 1 15
        ∧ Joined (between tokens 1 15) arguments ∧ ∀ a ∈ arguments, IsArgument a)
      ∧ ∀ k, ¬ Closes tokens 16 k := by
  refine Except.exists_of_passes (fun ts =>
      let tokens := CompilationUnit.placeTokens 0 .unconditional ts
      tokens[1]?.any (·.isPunct "(") && tokens[16]?.any (·.isPunct "(")
        && (split? (tokens.drop 1)).any (fun r => r.1.length == 4 && r.2 == 14)
        && (split? (tokens.drop 16)).isNone)
    (by decide +kernel) fun ts _ hTest tokens hTokens => ?_
  simp only [← hTokens, Bool.and_eq_true, Option.any_eq_true, Option.isNone_iff_eq_none,
    beq_iff_eq] at hTest
  obtain ⟨⟨⟨hFirst, hSecond⟩, ⟨arguments, n⟩, hSplit, hLength, rfl⟩, hNone⟩ := hTest
  exact ⟨hFirst, hSecond,
    ⟨arguments, hLength, hSplit, ((split?_exact hFirst).2 arguments 14).mp hSplit⟩,
    (split?_exact hSecond).1.mp hNone⟩

end Arguments

end Demacro
