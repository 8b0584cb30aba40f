import Demacro.Proofs.Classification.Evaluations
import Demacro.Proofs.Substitution.Carrying

/-!
Arguments in the place of parameters. The check of the tokens beside a parameter makes every use of
a macro an expression with the arguments in it, each of them whole.
-/

namespace Demacro

namespace Expr

/-- Tokens that are one expression without a comma outside of brackets, and without the words of an
arithmetic type. -/
structure IsArgument (ts : List Token) (e : Expr) : Prop where
  parses : parse ts = .ok e
  single : e.isComma = false
  typeless : ∀ t ∈ ts, t.isIdentifier = true → t.spelling ∉ Keyword.arithmeticTypes

/-- Words that start an operand of which tokens are skipped, and not read. -/
def skippingWords : List String :=
  ["sizeof", "alignof", "new"]

variable {f : Filling} {t : Token} {ts tail before : List Token} {e body : Expr}
  {names : List String} {tokens : String → List Token} {tree : String → Expr}

namespace Filling

/-- Nothing is put in the place of a name, but something comes behind all tokens. -/
def closing (tail : List Token) (hStops : Stops tail) : Filling where
  names := []
  tokens := fun _ => []
  tree := .name ⟨0, 0⟩
  tail := tail
  plain := nofun
  stops := fun _ => hStops
  typeless := nofun
  reads := nofun

/-- What the check of the tokens beside the parameters says. -/
theorem guarded_of_places
    (h : ∀ place ∈ Parameter.places before ts, f.Fills place.token →
      Parameter.isGuarded place = true) :
    ts.IsChain f.Guards ∧ ∀ t ∈ ts.getLast?, ¬f.Fills t := by
  induction ts generalizing before with
  | nil => exact ⟨.nil, nofun⟩
  | cons t ts ih =>
      obtain ⟨hChain, hLast⟩ := ih fun place hPlace => h place (List.mem_cons_of_mem _ hPlace)
      have hFirst : f.Fills t → Parameter.isGuarded ⟨before, t, ts⟩ = true :=
        h ⟨before, t, ts⟩ List.mem_cons_self
      cases ts with
      | nil =>
          refine ⟨.singleton t, ?_⟩
          rintro _ ⟨⟩ hFills
          simpa [Parameter.isGuarded] using hFirst hFills
      | cons b ts =>
          have hSecond : f.Fills b → Parameter.isGuarded ⟨t :: before, b, ts⟩ = true :=
            h ⟨t :: before, b, ts⟩ (List.mem_cons_of_mem _ List.mem_cons_self)
          refine ⟨List.isChain_cons_cons.mpr ⟨⟨fun hFills => ?_, fun hFills => ?_⟩, hChain⟩, ?_⟩
          · exact (Bool.and_eq_true_iff.mp (hSecond hFills)).1
          · exact (Bool.and_eq_true_iff.mp (hFirst hFills)).2
          · rwa [List.getLast?_cons_cons]

end Filling

theorem graft_nil : graft [] tree = bare := by
  simp [graft, bare]

theorem parses_assignment (h : parse ts = .ok e) (hComma : e.isComma = false) :
    Parses .assignment ⟨0, ts⟩ [e] ⟨ts.length, []⟩ := by
  have hParses := parse_eq_ok_iff.mp h
  cases hParses with
  | @expression _ es _ m _ hFirst hItems =>
      cases es with
      | nil =>
          cases hItems
          exact hFirst
      | cons x es => cases hComma
  | atom hAtom => cases hAtom
  | prefixed hPrefix => cases hPrefix

/-- An argument is read as itself before a parenthesis or a comma. -/
theorem IsArgument.reads (h : IsArgument ts e) (j : Nat) (hStops : Stops tail) :
    ∃ e', Parses .assignment ⟨j, ts ++ tail⟩ [e'] ⟨j + ts.length, tail⟩ ∧ e'.bare = e.bare := by
  have hNone : ∀ t, ¬(Filling.closing tail hStops).Fills t :=
    fun t hFills => List.not_mem_nil hFills.2
  have hAdmits : (Filling.closing tail hStops).Admits ts := {
    guarded := (List.pairwise_of_forall fun a b => ⟨fun h => absurd h (hNone b),
      fun h => absurd h (hNone a)⟩).isChain
    last := fun t _ => hNone t
    castless := fun hSome => absurd rfl hSome
    skipped := fun _ _ _ => nofun
    noCast := fun _ => h.typeless }
  have hCarries := (parses_assignment h.parses h.single).carries hAdmits nofun nofun nofun
  obtain ⟨e', k, hParses, hBare⟩ := hCarries.single rfl j
  have hImage : (Filling.closing tail hStops).image ts = ts ++ tail := by
    have hAppend : (Filling.closing tail hStops).image (ts ++ []) = ts ++ tail :=
      Filling.image_append (fun t _ => hNone t) []
    rwa [List.append_nil] at hAppend
  dsimp only at hParses
  rw [hImage, Filling.image_nil] at hParses
  obtain ⟨used, hTokens, hIndex⟩ := hParses.leads
  obtain rfl : k = j + ts.length := by
    rw [List.append_cancel_right hTokens]
    exact hIndex
  exact ⟨e', hParses, hBare.trans (congrFun graft_nil _)⟩

/-- Arguments are put in the place of names, and nothing comes behind. -/
def Filling.ofArguments (names : List String) (tokens : String → List Token) (tree : String → Expr)
    (hNames : ∀ p ∈ names, p ∉ Keyword.reserved ∧ ':' ∉ p.toList)
    (hArguments : ∀ p ∈ names, IsArgument (tokens p) (tree p)) : Filling where
  names := names
  tokens := tokens
  tree := tree
  tail := []
  plain := hNames
  stops := fun hSome => absurd rfl hSome
  typeless := fun p hp => (hArguments p hp).typeless
  reads := fun p hp j _ hStops => (hArguments p hp).reads j hStops

theorem exists_skippingWord (h : Head.of t = .measure ∨ Head.of t = .allocate) :
    ∃ word ∈ skippingWords, t.isNamed word = true := by
  unfold Head.of at h
  split at h
  · simp at h
  split_ifs at h with hMeasure hAllocate
  · rcases Bool.or_eq_true_iff.mp hMeasure with hWord | hWord
    · exact ⟨_, by decide, hWord⟩
    · exact ⟨_, by decide, hWord⟩
  · exact ⟨_, by decide, hAllocate⟩
  · simp at h
  · simp at h

/-- What stands between parentheses and commas may be replaced by arguments. -/
theorem parse_substitute (hBody : parse ts = .ok body)
    (hNames : ∀ p ∈ names, p ∉ Keyword.reserved ∧ ':' ∉ p.toList)
    (hGuarded : ∀ place ∈ Parameter.occurrences names ts, Parameter.isGuarded place = true)
    (hCast : ∀ t ∈ ts, t.isIdentifier = true → t.spelling ∉ Keyword.namedCasts)
    (hArguments : ∀ p ∈ names, IsArgument (tokens p) (tree p))
    (hBalanced : (∃ t ∈ ts, ∃ word ∈ skippingWords, t.isNamed word = true) →
      ∀ p ∈ names, Balanced (tokens p)) :
    ∃ e, parse (substitute names tokens ts) = .ok e ∧ e.bare = graft names tree body := by
  have hPlaces : ∀ place ∈ Parameter.places [] ts,
      (Filling.ofArguments names tokens tree hNames hArguments).Fills place.token →
        Parameter.isGuarded place = true := by
    rintro place hPlace ⟨hName, hMem⟩
    refine hGuarded place (List.mem_filter.mpr ⟨hPlace, ?_⟩)
    rw [hName, Bool.true_and]
    exact List.contains_iff_mem.mpr hMem
  obtain ⟨hChain, hLast⟩ := Filling.guarded_of_places hPlaces
  have hAdmits : (Filling.ofArguments names tokens tree hNames hArguments).Admits ts := {
    guarded := hChain
    last := hLast
    castless := fun _ => hCast
    skipped := fun t ht hHead => hBalanced ⟨t, ht, exists_skippingWord hHead⟩
    noCast := fun hSome => absurd rfl hSome }
  have hCarries := (parse_eq_ok_iff.mp hBody).carries hAdmits nofun nofun fun _ => .inr rfl
  obtain ⟨e, k, hParses, hBare⟩ := hCarries.single rfl 0
  have hImage : (Filling.ofArguments names tokens tree hNames hArguments).image ts
      = substitute names tokens ts :=
    List.append_nil _
  dsimp only at hParses
  rw [hImage] at hParses
  obtain ⟨used, hTokens, hIndex⟩ := hParses.leads
  obtain rfl : k = (substitute names tokens ts).length := by
    rw [show substitute names tokens ts = used from hTokens.trans (List.append_nil used)]
    simpa using hIndex
  exact ⟨e, parse_eq_ok_iff.mpr hParses, hBare⟩

end Expr

namespace Grouping

open Demacro.Expr

theorem isArgument_sum : IsArgument sumTokens (sumAt 0) where
  parses := by cbv
  single := rfl
  typeless := by decide +kernel

/-- The tokens of `sizeof([)`. The bracket in it is skipped. -/
def unbalancedTokens : List Token :=
  [alone .identifier "sizeof", alone .punctuator "(", alone .punctuator "[", alone .punctuator ")"]

theorem isArgument_unbalanced : IsArgument unbalancedTokens (.measure ⟨0, 4⟩ "sizeof" none) where
  parses := by with_unfolding_all rfl
  single := rfl
  typeless := by decide +kernel

end Grouping

namespace Analysis

open Demacro.Expr

variable {parse : List UInt8 → SyntaxNode} {settings : Settings}
  {load : String → Except AccessFault (List UInt8)} {path : String} {text : Text} {a : Analysis}
  {c : Classification} {d : ActiveSpan} {parameters : List String} {body : Expr}
  {arguments : String → List Token} {tree : String → Expr}

/-- Arguments may be put in the place of the parameters of a macro if no hazard of precedence names
one: what comes out is the replacement with the expressions of the arguments in it. Where tokens are
skipped, the brackets in the arguments must be balanced. -/
theorem parse_substitute_replacement (h : ofText parse settings load path text = .ok a)
    (hc : c ∈ a.classifications)
    (hSubject : (Survey.ofUnit parse settings a.unit).subject c.name = .ok d)
    (hShape : d.definition.shape = .function parameters false)
    (hReserved : ∀ p ∈ parameters, p ∉ Keyword.reserved)
    (hBody : Expr.parse d.definition.replacement = .ok body)
    (hCast : ∀ t ∈ d.definition.replacement, t.isIdentifier = true →
      t.spelling ∉ Keyword.namedCasts)
    (hSafe : ∀ hazard ∈ c.hazards, hazard.kind = "precedence" →
      ∀ p ∈ parameters, hazard.parameter? ≠ some p)
    (hArguments : ∀ p ∈ parameters, IsArgument (arguments p) (tree p))
    (hBalanced : (∃ t ∈ d.definition.replacement, ∃ word ∈ skippingWords, t.isNamed word = true) →
      ∀ p ∈ parameters, Balanced (arguments p)) :
    ∃ e, Expr.parse (substitute parameters arguments d.definition.replacement) = .ok e
      ∧ e.bare = graft parameters tree body := by
  obtain ⟨hRead, hUnit⟩ := ofText_eq_ok h
  obtain ⟨-, hClassified, -⟩ := ofUnit_eq_ok hUnit
  have hWarns := Survey.warns_of_classifyAll hClassified hc
  have hHazards := hWarns.subset d hSubject (by rw [hShape]; rfl)
  obtain ⟨-, e, he, hDefine, -⟩ := Survey.exists_event_of_subject hSubject
  rw [hShape] at hHazards
  refine Expr.parse_substitute hBody (fun p hp => ⟨hReserved p hp, ?_⟩) (fun place hPlace => ?_)
    hCast hArguments hBalanced
  · exact CompilationUnit.colon_notMem_parameter hRead he hDefine (by rw [hShape]; exact hp)
  · obtain ⟨-, hName⟩ := List.mem_filter.mp hPlace
    have hp : place.token.spelling ∈ parameters :=
      List.contains_iff_mem.mp (Bool.and_eq_true_iff.mp hName).2
    exact Parameter.isGuarded_of_hazards hp hPlace fun n hHazard =>
      hSafe _ (hHazards hHazard) rfl _ hp rfl

theorem parse_substitute_area :
    ∃ a, ofText .scopeless {} (fun _ => .error .notFound) "unit.cpp"
      "#define AREA(x) ((x) * sizeof(x))\n" = .ok a
      ∧ ∃ c ∈ a.classifications, ∃ d, (Survey.ofUnit .scopeless {} a.unit).subject c.name = .ok d
        ∧ ∃ body, Expr.parse d.definition.replacement = .ok body
        ∧ ∃ e, Expr.parse
          (substitute ["x"] (fun _ => Grouping.sumTokens) d.definition.replacement) = .ok e
          ∧ e.bare = graft ["x"] (fun _ => Grouping.sumAt 0) body := by
  refine Except.exists_of_passes (fun a => decide (∃ c ∈ a.classifications,
    (∀ hazard ∈ c.hazards, hazard.kind = "precedence" → ∀ p ∈ ["x"], hazard.parameter? ≠ some p)
    ∧ ((Survey.ofUnit .scopeless {} a.unit).subject c.name).passes (fun d =>
      (Expr.parse d.definition.replacement).passes fun _ =>
        decide (d.definition.shape = .function ["x"] false
        ∧ ∀ t ∈ d.definition.replacement, t.isIdentifier = true →
          t.spelling ∉ Keyword.namedCasts)) = true))
    (by decide +kernel) fun a h hTest => ?_
  obtain ⟨c, hc, hSafe, hSubject⟩ := of_decide_eq_true hTest
  refine ⟨c, hc, Except.exists_of_passes _ hSubject fun d hd hParse => ?_⟩
  refine Except.exists_of_passes _ hParse fun body hBody hRest => ?_
  obtain ⟨hShape, hCast⟩ := of_decide_eq_true hRest
  exact parse_substitute_replacement h hc hd hShape (by decide) hBody hCast hSafe
    (fun _ _ => Grouping.isArgument_sum) fun _ _ _ => by decide +kernel

/-- Behind `new` tokens are skipped, and an argument in which tokens are skipped as well need not
close its brackets. -/
theorem not_parse_substitute_new :
    ∃ a, ofText .scopeless {} (fun _ => .error .notFound) "unit.cpp"
      "#define MAKE(x) (new T[f(x)])\n" = .ok a
      ∧ ∃ c ∈ a.classifications, c.pattern = .functionLikeMacro ∧ c.confidence = .high
      ∧ c.hazards = []
        ∧ ∃ record ∈ c.definition, record.definition.shape = .function ["x"] false
        ∧ "x" ∉ Keyword.reserved
        ∧ (∀ t ∈ record.definition.replacement, t.isIdentifier = true →
          t.spelling ∉ Keyword.namedCasts)
        ∧ (∃ body, Expr.parse record.definition.replacement = .ok body)
        ∧ IsArgument Grouping.unbalancedTokens (.measure ⟨0, 4⟩ "sizeof" none)
        ∧ ∀ e, Expr.parse
          (substitute ["x"] (fun _ => Grouping.unbalancedTokens) record.definition.replacement)
          ≠ .ok e := by
  refine Except.exists_of_passes
    (fun a => decide (∃ c ∈ a.classifications, c.pattern = .functionLikeMacro
      ∧ c.confidence = .high ∧ c.hazards = []
      ∧ ∃ record ∈ c.definition, record.definition.shape = .function ["x"] false
      ∧ (∀ t ∈ record.definition.replacement, t.isIdentifier = true →
        t.spelling ∉ Keyword.namedCasts)
      ∧ (Expr.parse record.definition.replacement).passes (fun _ => true) = true
      ∧ (Expr.parse
        (substitute ["x"] (fun _ => Grouping.unbalancedTokens)
          record.definition.replacement)).passes
        (fun _ => true) = false)) (by decide +kernel) fun a h hTest => ?_
  obtain ⟨c, hc, hPattern, hHigh, hNone, record, hRecord, hShape, hCast, hBody, hFails⟩ :=
    of_decide_eq_true hTest
  obtain ⟨body, hBody, -⟩ := Except.exists_of_passes (Q := fun _ => True) _ hBody fun _ _ _ =>
    trivial
  refine ⟨c, hc, hPattern, hHigh, hNone, record, hRecord, hShape, by decide, hCast, ⟨body, hBody⟩,
    Grouping.isArgument_unbalanced, fun e hOk => ?_⟩
  rw [hOk] at hFails
  cases hFails

/-- Why the macros of `parse_substitute_replacement` have a fixed number of arguments: of one whose
number is not fixed nothing is said, so no hazard names its parameters, and yet an argument is
regrouped in its replacement. -/
theorem not_parse_substitute_variadic :
    ∃ a, ofText .scopeless {} (fun _ => .error .notFound) "unit.cpp"
      "#define TWICE(x, ...) (x * 2)\n" = .ok a
      ∧ ∃ c ∈ a.classifications, c.confidence = .blocked ∧ c.hazards = []
        ∧ ∃ record ∈ c.definition, "x" ∈ record.definition.shape.parameters
        ∧ ∃ body, Expr.parse record.definition.replacement = .ok body
        ∧ ∃ e, Expr.parse
          (substitute ["x"] (fun _ => Grouping.sumTokens) record.definition.replacement) = .ok e
          ∧ e.bare ≠ graft ["x"] (fun _ => Grouping.sumAt 0) body := by
  refine Except.exists_of_passes (fun a => decide (∃ c ∈ a.classifications, c.confidence = .blocked
    ∧ c.hazards = []
    ∧ ∃ record ∈ c.definition, "x" ∈ record.definition.shape.parameters
      ∧ (Expr.parse record.definition.replacement).passes (fun body =>
        (Expr.parse (substitute ["x"] (fun _ => Grouping.sumTokens)
            record.definition.replacement)).passes fun e =>
          decide (e.bare.stripParens.precedence
            ≠ (graft ["x"] (fun _ => Grouping.sumAt 0) body).stripParens.precedence)) = true))
    (by decide +kernel) fun a h hTest => ?_
  obtain ⟨c, hc, hBlocked, hNone, record, hRecord, hParameter, hParse⟩ := of_decide_eq_true hTest
  refine ⟨c, hc, hBlocked, hNone, record, hRecord, hParameter, ?_⟩
  refine Except.exists_of_passes _ hParse fun body hBody hRest => ?_
  refine Except.exists_of_passes _ hRest fun e he hOther hSame => ?_
  rw [hSame] at hOther
  exact of_decide_eq_true hOther rfl

end Analysis

end Demacro
