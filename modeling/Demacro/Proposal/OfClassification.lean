import Demacro.Proposal.Declaration
import Demacro.Proposal.Identifier

/-!
The proposal for a classified macro. The first definition gives way to the declaration, the other
directives of the name are deleted, and the uses that need another spelling are changed.
-/

namespace Demacro.Proposal

/-- The text of a directive or a token as a range of its file. -/
def extentOf (s : Span) : Extent :=
  ⟨s.path, s.start, s.stop⟩

/-- The directives about a name that are not at one of the places in `seen`, each place once. -/
def otherSites (seen : List (String × Nat)) : List Event → List Event
  | [] => []
  | e :: es =>
    let site := (e.directive.span.path, e.directive.span.start)
    if seen.contains site then otherSites seen es else e :: otherSites (site :: seen) es

/-- The directives about the name of a macro other than the definition that is replaced. -/
def otherDirectives (d : DefinitionRecord) : List Event :=
  otherSites [(d.definition.span.path, d.definition.span.start)] d.events

/-- The edits that delete directives. Those in disabled branches stay. -/
def deletions (id : String) (events : List Event) : List Edit :=
  (events.filter (·.reachability != .disabled)).map fun e =>
    ⟨extentOf e.directive.span, [], id, .delete⟩

/-- What is said about a directive. -/
def directiveNote? (e : Event) : Option String :=
  let line := toString e.directive.span.line
  if e.reachability = .disabled then
    some ("#" ++ e.directive.keyword ++ " at line " ++ line
      ++ " is in a disabled branch and left in place")
  else if e.directive.isDefine then some ("identical redefinition at line " ++ line ++ " removed")
  else none

/-- The spelling that a use needs: the new name, with the qualifier of the use if it has one. -/
def spelling (c : Classification) (newName : String) (u : Usage) : String :=
  match c.qualified.find? fun q => q.usage.token.position == u.token.position with
  | some q => q.qualifier ++ "::" ++ newName
  | none => newName

/-- The edits of the uses whose spelling changes. -/
def usageEdits (id : String) (c : Classification) (newName : String) : List Edit :=
  (c.usages.filter fun u => spelling c newName u != u.token.spelling).map fun u =>
    ⟨extentOf u.token.span, spelling c newName u, id, .replace⟩

/-- The identifier of the proposal for a macro. -/
def idOf (c : Classification) (d : DefinitionRecord) : String :=
  (ProposalId.mk d.definition.span.path c.name c.pattern.name d.definition.span.line).text

/-- A proposal without edits. -/
def reportOnly (id : String) (c : Classification) (reason : Text) (notes : List String) :
    Proposal :=
  { id, notes
    macroName := c.name
    pattern := c.pattern
    tier := .low
    reason := some reason
    warnings := c.hazards.map Hazard.detail }

/-- A proposal with the edits that the declaration needs. -/
def ofDeclaration (id : String) (c : Classification) (d : DefinitionRecord)
    (declaration : Declaration) : Proposal :=
  let others := otherDirectives d
  { id
    macroName := c.name
    pattern := c.pattern
    tier := (SafetyTier.ofConfidence c.confidence).lower declaration.limit
    declaration := some declaration.text
    alternatives := declaration.alternatives
    notes := appendNew [] (declaration.notes ++ others.filterMap directiveNote?)
    edits := ⟨extentOf d.definition.span, declaration.text, id, .replace⟩ ::
      (declaration.outside.toList ++ deletions id others ++ usageEdits id c declaration.name)
    warnings := c.hazards.map Hazard.detail }

/-- The proposal for a macro; none if it follows no pattern. -/
def ofClassification? (settings : Settings) (identifiers : List String) (c : Classification) :
    Option Proposal :=
  match c.definition with
  | none => none
  | some d =>
    if !c.isClassified then none
    else
      let id := idOf c d
      if c.confidence = .blocked then some (reportOnly id c c.rationale [])
      else
        match Declaration.ofClassification settings identifiers id d.definition.span.path c with
        | .error (why, notes) => some (reportOnly id c why.message (appendNew [] notes))
        | .ok declaration => some (ofDeclaration id c d declaration)

/-- The identifiers in the code of a unit. -/
def identifiersOf (u : CompilationUnit) : List String :=
  (u.codeTokens.filter (·.isIdentifier)).map (·.spelling)

/-- The proposals for the macros of a unit. -/
def ofUnit (settings : Settings) (u : CompilationUnit) (cs : List Classification) : List Proposal :=
  cs.filterMap (ofClassification? settings (identifiersOf u))

end Demacro.Proposal
