import Demacro.Proofs.Classification.Grouping
import Demacro.Proofs.Expr.Printing
import Demacro.Proofs.Lines
import Mathlib.Data.List.Chain

/-!
Tokens put in the place of names. A name that stands between parentheses and commas is read as an
expression of its own, so what is put there may be any expression that holds together as tightly as
an assignment.
-/

namespace Demacro.Expr

open Source

/-- The brackets that come in pairs. -/
def brackets : List (String × String) :=
  [("(", ")"), ("[", "]"), ("\x7b", "\x7d")]

/-- Whether brackets of one kind are balanced if `depth` of them are open before the tokens. -/
def nests (opener closer : String) : Nat → List Token → Bool
  | depth, [] => depth == 0
  | depth, t :: ts =>
    if t.isPunct opener then nests opener closer (depth + 1) ts
    else if t.isPunct closer then depth != 0 && nests opener closer (depth - 1) ts
    else nests opener closer depth ts

/-- The brackets of each kind are balanced, whatever stands between them. -/
def Balanced (ts : List Token) : Prop :=
  ∀ pair ∈ brackets, nests pair.1 pair.2 0 ts = true

instance (ts : List Token) : Decidable (Balanced ts) :=
  inferInstanceAs (Decidable (∀ pair ∈ brackets, _))

/-- The tokens with others in the place of some names. -/
def substitute (names : List String) (tokens : String → List Token) (ts : List Token) :
    List Token :=
  ts.flatMap fun t => if t.isIdentifier && names.contains t.spelling then tokens t.spelling else [t]

/-- An expression without the places of its nodes, and with others in the place of some names. -/
def graft (names : List String) (tree : String → Expr) : Expr → Expr :=
  rebuild (fun _ => ⟨0, 0⟩) fun _ text => if names.contains text then (tree text).bare
    else .name ⟨0, 0⟩ text

/-- A parenthesis is closed here, or a comma separates what is before it. -/
def Stops (ts : List Token) : Prop :=
  ∃ t ∈ ts.head?, t.isPunctIn [")", ","] = true

/-- What is put in the place of names, and what comes behind all tokens. -/
structure Filling where
  names : List String
  tokens : String → List Token
  tree : String → Expr
  tail : List Token
  plain : ∀ p ∈ names, p ∉ Keyword.reserved ∧ ':' ∉ p.toList
  stops : tail ≠ [] → Stops tail
  typeless : ∀ p ∈ names, ∀ t ∈ tokens p, t.isIdentifier = true →
    t.spelling ∉ Keyword.arithmeticTypes
  reads : ∀ p ∈ names, ∀ j ts, Stops ts → ∃ e, Parses .assignment ⟨j, tokens p ++ ts⟩ [e]
    ⟨j + (tokens p).length, ts⟩
    ∧ e.bare = (tree p).bare

namespace Filling

/-- The tokens with everything in its place. -/
def image (f : Filling) (ts : List Token) : List Token :=
  substitute f.names f.tokens ts ++ f.tail

/-- Something is put in the place of a token. -/
def Fills (f : Filling) (t : Token) : Prop :=
  t.isIdentifier = true ∧ t.spelling ∈ f.names

/-- Nothing is put in the place of the next token. -/
def Off (f : Filling) (ts : List Token) : Prop :=
  ∀ t ∈ ts.head?, ¬f.Fills t

/-- If something is put in the place of one of two tokens side by side, the other one keeps
operators away from it. -/
def Guards (f : Filling) (a b : Token) : Prop :=
  (f.Fills b → a.isPunctIn ["(", ","] = true) ∧ (f.Fills a → b.isPunctIn [")", ","] = true)

/-- Tokens in which everything can be put in its place. -/
structure Admits (f : Filling) (ts : List Token) : Prop where
  guarded : ts.IsChain f.Guards
  last : ∀ t ∈ ts.getLast?, ¬f.Fills t
  castless : f.names ≠ [] → ∀ t ∈ ts, t.isIdentifier = true → t.spelling ∉ Keyword.namedCasts
  /-- What no expression is read from is left by counting brackets. -/
  skipped : ∀ t ∈ ts, Head.of t = .measure ∨ Head.of t = .allocate →
    ∀ p ∈ f.names, Balanced (f.tokens p)
  /-- Nothing becomes a cast because something comes behind it. -/
  noCast : f.tail ≠ [] → ∀ t ∈ ts, t.isIdentifier = true → t.spelling ∉ Keyword.arithmeticTypes

variable {f : Filling} {t : Token} {ts : List Token} {s m rest : Source} {op : String} {i j : Nat}

theorem Fills.isName (h : f.Fills t) : IsName t :=
  ⟨h.1, (f.plain t.spelling h.2).1⟩

theorem not_fills_of_operator? (h : operator? t = some op) : ¬f.Fills t := fun hFills => by
  rw [hFills.isName.operator?] at h
  cases h

theorem image_cons_of_fills (h : f.Fills t) (ts : List Token) :
    f.image (t :: ts) = f.tokens t.spelling ++ f.image ts := by
  simp [image, substitute, h.1, h.2]

theorem image_cons (h : ¬f.Fills t) (ts : List Token) : f.image (t :: ts) = t :: f.image ts := by
  have hOther : ¬(t.isIdentifier = true ∧ t.spelling ∈ f.names) := h
  simp [image, substitute, hOther]

theorem image_nil : f.image [] = f.tail :=
  rfl

theorem image_append {used : List Token} (h : ∀ t ∈ used, ¬f.Fills t) (ts : List Token) :
    f.image (used ++ ts) = used ++ f.image ts := by
  induction used with
  | nil => rfl
  | cons t used ih =>
      rw [List.cons_append, image_cons (h t List.mem_cons_self),
        ih fun t ht => h t (List.mem_cons_of_mem _ ht)]
      rfl

theorem tokens_ne_nil {p : String} (hp : p ∈ f.names) : f.tokens p ≠ [] := by
  intro hNone
  have hStops : Stops [⟨.punctuator, Text.ofString ")", ⟨"", 0, 0, 1, 1⟩, false, false⟩] :=
    ⟨_, rfl, by decide⟩
  obtain ⟨e, hParses, -⟩ := f.reads p hp 0 _ hStops
  have hLt := hParses.covers.1
  rw [hNone] at hLt
  exact Nat.lt_irrefl _ hLt

theorem image_ne_nil (h : ts ≠ []) : f.image ts ≠ [] := by
  obtain ⟨t, ts, rfl⟩ := List.exists_cons_of_ne_nil h
  by_cases hFills : f.Fills t
  · rw [image_cons_of_fills hFills]
    exact List.append_ne_nil_of_left_ne_nil (tokens_ne_nil hFills.2) _
  · rw [image_cons hFills]
    exact List.cons_ne_nil _ _

namespace Admits

theorem behind {used : List Token} (h : f.Admits (used ++ ts)) : f.Admits ts where
  guarded := h.guarded.right_of_append
  last := fun t ht => h.last t (List.mem_getLast?_append_of_mem_getLast? ht)
  castless := fun hSome t ht => h.castless hSome t (List.mem_append_right _ ht)
  skipped := fun t ht => h.skipped t (List.mem_append_right _ ht)
  noCast := fun hSome t ht => h.noCast hSome t (List.mem_append_right _ ht)

theorem of_leads (h : f.Admits s.tokens) (hLeads : s.Leads m) : f.Admits m.tokens := by
  obtain ⟨used, hTokens, -⟩ := hLeads
  rw [hTokens] at h
  exact h.behind

theorem tail (h : f.Admits (t :: ts)) : f.Admits ts :=
  behind (show f.Admits ([t] ++ ts) from h)

/-- What is put in the place of a token is followed by a parenthesis or a comma. -/
theorem stops (h : f.Admits (t :: ts)) (hFills : f.Fills t) : Stops ts := by
  cases ts with
  | nil => exact absurd hFills (h.last t rfl)
  | cons b ts => exact ⟨b, rfl, (List.isChain_cons_cons.mp h.guarded).1.2 hFills⟩

/-- Nothing is put behind a token other than a parenthesis or a comma. -/
theorem off (h : f.Admits (t :: ts)) (hOther : t.isPunctIn ["(", ","] = false) : f.Off ts := by
  cases ts with
  | nil => exact nofun
  | cons b ts =>
      rintro _ ⟨⟩ hFills
      rw [(List.isChain_cons_cons.mp h.guarded).1.1 hFills] at hOther
      cases hOther

end Admits

end Filling

end Demacro.Expr
