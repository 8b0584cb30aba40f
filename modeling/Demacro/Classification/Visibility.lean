import Demacro.Classification.Survey

/-!
Where a macro is used, against where its replacement could be seen. A declaration can be named only
in its scope, and outside of it with a qualifier; a macro name expands everywhere.
-/

namespace Demacro.Survey

/-- Whether some definition of the macro is seen twice: its file is read more than once. -/
def isSeenTwice (events : List Event) : Bool :=
  let sites := (events.filter fun e => e.directive.isDefine && e.reachability != .disabled).map
    fun e => (e.directive.span.path, e.directive.span.start)
  sites.eraseDups.length < sites.length

/-- What the places where the macro is defined, used and tested say about it. -/
def siteFindings (s : Survey) (name : String) (d : DefinitionRecord) : List Finding :=
  (if d.reachability = .conditional then [⟨.medium, .conditionalDefinition⟩] else [])
    ++ (s.uses.tested name).map (fun line => .blocker (.tested line.keyword line.span.line))
    ++ (s.uses.strays name).map (fun (t, reason) => .blocker (.stray reason t.span.line))
    ++ (s.uses.unresolved name).map (fun (t, fault) => .blocker (.unresolved t.span.line fault))
    ++ (if (s.scopes.contextOf d.definition).disputed then [⟨.medium, .disputedScope⟩] else [])
    ++ (if (s.table.definitions name).any (·.isRedefined) then [.note .mergedRedefinitions] else [])
    ++ (if isSeenTwice d.events then [.blocker (.includedAgain d.definition.span.path)] else [])

/-- The scope of a macro in words. -/
def scopeLabel (home : Context) : String :=
  match home.scope?.map Frame.kind with
  | some .functionScope | some .blockScope => "the block it is defined in"
  | _ => home.describe

/-- The uses of other macros that carry the macro out of its scope. There the bare name appears, so
it can be neither checked nor qualified. -/
def carriedFindings (s : Survey) (name : String) (home : Context) : List Finding :=
  (s.expansionSites name).filterMap fun (through, usage) =>
    match usage with
    | none => some (.blocker (.unknownExpansion through))
    | some u =>
      if u.context.sees home then none
      else some (.blocker (.expandedOutside (scopeLabel home) through u.line))

/-- What is left of the first list behind its common start with the second. -/
def behindCommon : List String → List String → List String
  | a :: as, b :: bs => if a = b then behindCommon as bs else a :: as
  | as, _ => as

/-- A use outside the class or named namespace of the definition: what it means for the macro, and
the qualifier that the use needs if there is one that serves. -/
def outsideUse (home : Context) (frame : Frame) (u : Usage) : Finding × Option String :=
  let hidden : Option Access := frame.access?.filter (· != .publicMember)
  match hidden with
  | some access => (.blocker (.hiddenMember access frame.name u.line), none)
  | none =>
    let qualifier := "::".intercalate (behindCommon home.scopePath u.context.scopePath)
    if qualifier.isEmpty then (.blocker (.usedOutsideUnnamed frame.kind u.line), none)
    else (⟨.medium, .usedOutside home.describe u.line⟩, some qualifier)

/-- What the scope of a definition says about the macro, and the uses that need a qualifier. -/
def scopeFindings (s : Survey) (name : String) (home : Context) (usages : List Usage)
    (isFunction : Bool) : List Finding × List QualifiedUsage :=
  match home.scope? with
  | none => ([], [])
  | some frame =>
    let carried := s.carriedFindings name home
    let outside := usages.filter fun u => !u.context.sees home
    match frame.kind with
    | .functionScope | .blockScope =>
      let nested := if isFunction then [Finding.blocker .functionInFunction] else []
      (carried ++ nested ++ outside.map fun u => .blocker (.usedOutsideBlock u.line), [])
    | _ =>
      let results := outside.map fun u => (u, outsideUse home frame u)
      (carried ++ results.map (·.2.1),
        results.filterMap fun (u, _, qualifier) => qualifier.map fun q => ⟨u, q⟩)

end Demacro.Survey
