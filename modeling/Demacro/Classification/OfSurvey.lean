import Demacro.Classification.Grouping
import Demacro.Classification.Parameter
import Demacro.Classification.Visibility

/-!
The classification of the macros of a unit. A macro whose replacement mentions others needs their
classifications first; a macro that is asked for while it is being classified follows no pattern.
Each macro is classified once, and answers are remembered.
-/

namespace Demacro

/-- The classifications made so far. Folding may fail without a reason to report, and then nothing
is classified at all. -/
abbrev Classifying := StateT (List (String × Classification)) (Except FoldError)

namespace Survey

/-- A definition with the history of its name. -/
def record (s : Survey) (d : ActiveSpan) : DefinitionRecord :=
  { d with events := s.table.history d.definition.name }

/-- The classification of a macro that follows no pattern. -/
def refuse (s : Survey) (name : String) (refusal : Refusal) (d : Option ActiveSpan)
    (hazards : List Hazard) : Classification :=
  { name, hazards
    pattern := .unclassified
    confidence := .blocked
    reason := some refusal.message
    definition := d.map s.record
    context := d.map fun d => s.scopes.contextOf d.definition
    usages := s.uses.usages name
    skipped := refusal.isSkip }

/-- The first macro with arguments that a replacement calls. -/
def invoked? (s : Survey) (parameters : List String) : List Token → Option String
  | [] => none
  | t :: ts =>
    if t.isIdentifier && !parameters.contains t.spelling && ts.head?.any (·.isPunct "(")
        && (s.table.definitions t.spelling).any (·.definition.shape.isFunction) then
      some t.spelling
    else invoked? s parameters ts

/-- Why the tokens of a replacement rule out every pattern, if they do. -/
def tokenRefusal? (s : Survey) (d : Definition) : Option Refusal :=
  if d.replacement.isEmpty then some .emptyReplacement
  else if d.replacement.any (·.isPunct "##") then some .pasting
  else if d.replacement.any (·.isPunct "#") then some .stringizing
  else if d.replacement.any fun t =>
      t.isBoundary || (t.isIdentifier && Keyword.statements.contains t.spelling) then
    some .statements
  else (s.invoked? d.shape.parameters d.replacement).map .invokes

/-- The definition of a macro that is to be classified by its replacement, or why there is none with
the definition that the answer is about. -/
def subject (s : Survey) (name : String) : Except (Refusal × Option ActiveSpan) ActiveSpan :=
  let definitions := s.table.definitions name
  if s.table.isAmbiguous name then
    .error (.ambiguous (s.table.conflictDetail name), definitions.head?)
  else
    let live := definitions.filter (·.reachability != .disabled)
    match live with
    | [] => .error (.disabled, definitions.head?)
    | d :: _ =>
      if s.guards.lookup d.definition.span.path = some name then .error (.includeGuard, some d)
      else if !live.any (·.isNonempty) then .error (.emptySpan, some d)
      else
        match s.tokenRefusal? d.definition with
        | some refusal => .error (refusal, some d)
        | none => .ok d

/-- Whether a name has a definition outside disabled branches. -/
def isLive (s : Survey) (name : String) : Bool :=
  s.table.contains name && !(s.table.liveDefinitions name).isEmpty

/-- What a reference to the macro `c` says about a macro with the definition `d`. -/
def dependencyFindings (s : Survey) (d : ActiveSpan) (c : Classification) : List Finding :=
  let home := s.scopes.contextOf d.definition
  (if (s.table.activeAt? c.name d.position).isNone then [.blocker (.dependsOnLater c.name)] else [])
    ++ (match c.context with
      | some there =>
        if home.sees there then [] else [.blocker (.dependsElsewhere c.name there.describe)]
      | none => [])
    ++ [if c.confidence = .high then .note (.dependsOnConstant c.name)
        else ⟨.medium, .dependsOnUnsure c.name c.confidence⟩]

/-- The constant that a reference to a classified macro stands for. -/
def referenceValue (c : Classification) : Except FoldError Folded :=
  if !c.isClassified then .error (.dependency c.name (c.reason.getD (Text.ofString "None")))
  else
    match c.value with
    | some (.integral t v) => .ok ⟨.integral t v, .high, []⟩
    | some (.floating t v) => .ok ⟨.floating t v, .high, []⟩
    | _ => .error (.nonArithmetic c.name)

/-- The constant that a name in a replacement stands for. -/
def valueOf (s : Survey) (ask : String → Classifying Classification) (name : String) :
    Classifying (Except FoldError Folded) := do
  if s.isLive name then return referenceValue (← ask name)
  else return .error (.foreignName name)

/-- Folds a replacement, asking for the macros that it mentions one by one as they are needed.
`known` holds the answers so far and `budget` bounds the number of questions. -/
def foldAsking (s : Survey) (ask : String → Classifying Classification) (body : Expr) :
    Nat → List (String × Except FoldError Folded) →
    Classifying (Except FoldError (Folded × List String))
  | 0, _ => return .error (.notConstant body.kind)
  | budget + 1, known =>
    match Constant.fold (some fun name => (known.lookup name).getD (.error (.needs name))) body with
    | .ok f => return .ok (f, known.map Prod.fst)
    | .error (.needs name) => do
      let value ← s.valueOf ask name
      foldAsking s ask body budget (known ++ [(name, value)])
    | .error e => return .error e

/-- What the folding of a replacement assumed. -/
def foldFindings (f : Folded) : List Finding :=
  f.evidence.map (fun text => .note (.assumption text))
    ++ (if f.confidence = .high then []
        else [⟨f.confidence, f.evidence.head?.elim .uncertainType .assumption⟩])

/-- The string class for characters of a type. -/
def stringType (t : IntegerType) : Option String :=
  match t with
  | .char => some "std::string"
  | .wchar => some "std::wstring"
  | .char8 => some "std::u8string"
  | .char16 => some "std::u16string"
  | .char32 => some "std::u32string"
  | _ => none

/-- How a constant is declared, and what is to be said about it. -/
def constantPayload (initializer : Text) : Constant → Payload × List Finding
  | .string t => (.pointer (some t.name) initializer (stringType t), [])
  | .pointer =>
    (.pointer none initializer none, [.blocker (.unknownPointee initializer.display)])
  | .integral t v =>
    (.constant t.name initializer true (v.map .int), [.note (.foldsTo t.name (v.map .int))])
  | .floating t v =>
    (.constant t.name initializer false (v.map .float), [.note (.foldsTo t.name (v.map .float))])

/-- Whether the payload is a constant of an integral type. -/
def isIntegral : Payload → Bool
  | .constant _ _ integral _ => integral
  | _ => false

/-- The pattern of a constant by its place, and what is to be said about it. In a class an integral
constant may have to be an enumerator, since not every compiler takes the other form as a
constant. -/
def constantPattern (s : Survey) (home : Context) (payload : Payload) (usages : List Usage) :
    Pattern × List Finding :=
  match home.class? with
  | none =>
    match payload with
    | .pointer .. => (.pointerConstant, [.note .pointerForm])
    | _ => (.simpleConstant, [])
  | some frame =>
    let inside := Finding.note (.insideClass home.describe)
    if !isIntegral payload then (.classScopedConstant, [inside])
    else
      match s.constantStyle with
      | .staticConstInClass => (.classScopedConstant, [inside])
      | .enumHack => (.enumHackCandidate, [inside, .note .forcedEnum])
      | .auto =>
        match usages.find? fun u =>
            u.requiresConstant && u.context.innermost?.any (·.same frame) with
        | some u => (.enumHackCandidate, [inside, .note (.constantUse u.line)])
        | none => (.classScopedConstant, [inside])

/-- The classification of a macro whose replacement `body` folds to a constant. -/
def constantMacro (s : Survey) (name : String) (d : ActiveSpan) (body : Expr) (value : Folded)
    (dependencies : List Classification) : Classification :=
  let record := s.record d
  let home := s.scopes.contextOf d.definition
  let usages := s.uses.usages name
  let (visibility, qualified) := s.scopeFindings name home usages false
  let (grouping, hazards) := Grouping.findings s.code body usages true
  let (payload, valueFindings) := constantPayload d.definition.text value.constant
  let (pattern, patternFindings) := s.constantPattern home payload usages
  let findings := foldFindings value ++ dependencies.flatMap (s.dependencyFindings d)
    ++ s.siteFindings name record ++ visibility ++ grouping ++ valueFindings ++ patternFindings
  { name, pattern, hazards, usages, qualified
    confidence := Finding.confidence findings
    evidence := Finding.evidence findings
    reason := Finding.reason? findings
    definition := some record
    context := some home
    payload := some payload
    value := some value.constant
    referencedBy := s.referrers name }

/-- Classifies a macro without arguments. -/
def classifyObject (s : Survey) (ask : String → Classifying Classification) (name : String)
    (d : ActiveSpan) : Classifying Classification :=
  match Expr.parse d.definition.replacement with
  | .error fault => return s.refuse name (.notExpression fault) (some d) []
  | .ok body =>
    if body.isComma then return s.refuse name .comma (some d) []
    else do
      match ← s.foldAsking ask body (body.nodes.length + 1) [] with
      | .ok (value, names) => do
        let dependencies ← names.mapM ask
        if value.constant.isShort then return s.constantMacro name d body value dependencies
        else throw .tooLongToWrite
      | .error (.dependency other reason) =>
        return s.refuse name (.dependsOn other reason) (some d) []
      | .error e =>
        match e.reason? with
        | some reason => return s.refuse name (.notFoldable reason) (some d) []
        | none => throw e

/-- The names in an expression that are not called. -/
def plainNames (body : Expr) : List String :=
  (body.marked false).filterMap fun
    | (false, .name _ text) => some text
    | _ => none

/-- Whether a name in a replacement is bound by the macro or has a fixed meaning. -/
def isBound (parameters : List String) (name : String) : Bool :=
  parameters.contains name || Keyword.reserved.contains name || Keyword.nullPointers.contains name

/-- What the names in a replacement say about the macro, or the macro that rules a pattern out. -/
def nameFindings (s : Survey) (ask : String → Classifying Classification) (d : ActiveSpan) :
    List String → Classifying (Except Refusal (List Finding))
  | [] => return .ok []
  | name :: names => do
    if name = "this" then return (← nameFindings s ask d names).map (.blocker .usesThis :: ·)
    else if isBound d.definition.shape.parameters name || !s.isLive name then
      nameFindings s ask d names
    else
      let c ← ask name
      if !c.isClassified then return .error (.dependsOn name (c.reason.getD (Text.ofString "None")))
      else
        let findings := s.dependencyFindings d c
        return (← nameFindings s ask d names).map (findings ++ ·)

/-- The names in a replacement that mean whatever they mean where the macro is used. -/
def freeNames (s : Survey) (parameters names : List String) : List String :=
  appendNew [] (names.filter fun name =>
    name != "this" && !isBound parameters name && !s.isLive name && !QualifiedName.isQualified name)

/-- The classification of a macro with arguments whose replacement is the expression `body`. -/
def functionMacro (s : Survey) (name : String) (d : ActiveSpan) (body : Expr)
    (hazards : List Hazard) (fromNames : List Finding) : Classification :=
  let record := s.record d
  let parameters := d.definition.shape.parameters
  let places := Parameter.occurrences parameters d.definition.replacement
  let mutated := Parameter.mutated parameters body
  let free := s.freeNames parameters (plainNames body)
  let home := s.scopes.contextOf d.definition
  let usages := s.uses.usages name
  let (visibility, qualified) := s.scopeFindings name home usages true
  let (grouping, groupingHazards) := Grouping.findings s.code body usages false
  let findings := Parameter.misuseFindings places ++ fromNames
    ++ mutated.map (fun p => ⟨.medium, .mutatedParameter p⟩)
    ++ free.map (fun n => ⟨.medium, .freeVariable n⟩)
    ++ s.siteFindings name record ++ visibility ++ grouping
    ++ [.note (.singleExpression parameters.length)]
  { name, usages, qualified
    pattern := .functionLikeMacro
    confidence := Finding.confidence findings
    evidence := Finding.evidence findings
    hazards := hazards ++ mutated.map .parameterMutation ++ free.map .freeVariable
      ++ Parameter.argumentHazards parameters places usages ++ groupingHazards
    reason := Finding.reason? findings
    definition := some record
    context := some home
    payload := some (.function parameters d.definition.text mutated free)
    referencedBy := s.referrers name }

/-- Classifies a macro with arguments. -/
def classifyFunction (s : Survey) (ask : String → Classifying Classification) (name : String)
    (d : ActiveSpan) : Classifying Classification :=
  let parameters := d.definition.shape.parameters
  if d.definition.shape.isVariadic then return s.refuse name .variadic (some d) []
  else if parameters.isEmpty then return s.refuse name .noParameters (some d) []
  else
    let places := Parameter.occurrences parameters d.definition.replacement
    let hazards := Parameter.hazards parameters places
    match Expr.parse d.definition.replacement with
    | .error fault => return s.refuse name (.notExpression fault) (some d) hazards
    | .ok body =>
      if body.isComma then return s.refuse name .comma (some d) hazards
      else do
        let hazards := if body.isPrimary then hazards else hazards ++ [.bareBody]
        match ← s.nameFindings ask d (plainNames body) with
        | .error refusal => return s.refuse name refusal (some d) hazards
        | .ok findings => return s.functionMacro name d body hazards findings

/-- Classifies a macro that was not classified before. -/
def classifyNew (s : Survey) (ask : String → Classifying Classification) (name : String) :
    Classifying Classification :=
  match s.subject name with
  | .error (refusal, d) => return s.refuse name refusal d []
  | .ok d =>
    if d.definition.shape.isFunction then s.classifyFunction ask name d
    else s.classifyObject ask name d

/-- Classifies a macro while those in `active` are being classified. `budget` bounds how many more
can be. -/
def classifyWithin (s : Survey) : Nat → List String → String → Classifying Classification
  | budget, active, name => do
    match (← get).lookup name with
    | some c => return c
    | none =>
      if active.contains name then return s.refuse name .recursive none []
      else
        match budget with
        | 0 => return s.refuse name .recursive none []
        | budget + 1 => do
          let c ← s.classifyNew (s.classifyWithin budget (name :: active)) name
          modify ((name, c) :: ·)
          return c

/-- Classifies a macro. A macro that leads to another classification has a definition, so one more
than the number of names bounds the depth. -/
def classify (s : Survey) (name : String) : Classifying Classification :=
  s.classifyWithin (s.table.names.length + 1) [] name

/-- The classifications of the given names, asked for in this order. -/
def classifyNames (s : Survey) (names : List String) : Except FoldError (List Classification) := do
  let (results, _) ← (names.mapM s.classify).run []
  return results

/-- The classifications of all macros of the unit, in the order of their definitions. -/
def classifyAll (s : Survey) : Except FoldError (List Classification) :=
  s.classifyNames s.table.names

end Survey

end Demacro
