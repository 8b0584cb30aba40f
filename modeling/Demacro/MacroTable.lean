import Demacro.Sorting
import Demacro.Unit

/-!
The macros of a unit. Every `#define` opens a span of token positions in which its definition is in
force; an `#undef`, a redefinition or the end of the unit closes it.
-/

namespace Demacro

/-- A definition and the positions at which it is in force. -/
structure ActiveSpan where
  definition : Definition
  /-- The position of the directive itself. -/
  position : Nat
  reachability : Reachability
  /-- The first position at which the definition is in force. -/
  start : Int
  /-- The first position at which it is no longer, if there is one. -/
  stop : Option Int
  /-- The directive that ended it. -/
  closedBy : Option Event

namespace ActiveSpan

/-- Whether the definition is in force at a position. -/
def isActiveAt (s : ActiveSpan) (position : Int) : Bool :=
  s.start ≤ position && s.stop.all (position < ·)

/-- Whether the span holds a position. -/
def isNonempty (s : ActiveSpan) : Bool :=
  s.stop.all (s.start < ·)

/-- Whether another definition of the name ended the span. -/
def isRedefined (s : ActiveSpan) : Bool :=
  s.closedBy.any (·.directive.isDefine)

/-- Ends the span if it is one of `name` that has no end yet. -/
def close (name : String) (position : Int) (by_ : Option Event) (s : ActiveSpan) : ActiveSpan :=
  if s.definition.name = name ∧ s.stop = none then { s with stop := some position, closedBy := by_ }
  else s

end ActiveSpan

/-- The history of all macro names and their spans, in the order of recording. -/
structure MacroTable where
  events : List Event := []
  spans : List ActiveSpan := []
  warnings : List String := []

namespace MacroTable

/-- Ends the open span of a name. -/
def close (t : MacroTable) (name : String) (position : Int) (by_ : Option Event) : MacroTable :=
  { t with spans := t.spans.map (·.close name position by_) }

/-- The open span of a name. -/
def open? (t : MacroTable) (name : String) : Option ActiveSpan :=
  t.spans.find? fun s => s.definition.name == name && s.stop.isNone

/-- What is said about a definition of a name that has one. -/
def redefinitionWarning (previous next : Definition) : String :=
  if previous.signature = next.signature then
    "'" ++ next.name ++ "' redefined identically at line " ++ toString next.span.line
  else
    "'" ++ next.name ++ "' redefined at line " ++ toString next.span.line
      ++ " (previous definition at line " ++ toString previous.span.line ++ ")"

/-- The table with one more macro directive. One in a disabled branch is remembered but has no
effect. -/
def record (t : MacroTable) (e : Event) : MacroTable :=
  let start : Int := (max e.position e.lastPosition : Nat) + 1
  let logged := { t with events := t.events ++ [e] }
  match e.directive with
  | .define d =>
    if e.reachability = .disabled then
      { logged with spans :=
        logged.spans ++ [⟨d, e.position, e.reachability, start, some start, none⟩] }
    else
      let warned :=
        match t.open? d.name with
        | some previous =>
          { logged with warnings := logged.warnings ++ [redefinitionWarning previous.definition d] }
        | none => logged
      let closed := warned.close d.name e.position (some e)
      { closed with spans := closed.spans ++ [⟨d, e.position, e.reachability, start, none, none⟩] }
  | .undef name _ =>
    if e.reachability = .disabled then logged else logged.close name e.position (some e)

/-- The table of a sequence of macro directives. -/
def ofEvents (events : List Event) : MacroTable :=
  events.foldl record {}

/-- Ends the definition of a name that is in force, if there is one. -/
def undefine (t : MacroTable) (name : String) (position : Int) : MacroTable :=
  t.close name position none

/-- The directives about a name. -/
def history (t : MacroTable) (name : String) : List Event :=
  t.events.filter (·.directive.name == name)

/-- The spans of a name in the order of their directives. -/
def definitions (t : MacroTable) (name : String) : List ActiveSpan :=
  Sorting.sort (fun a b => a.position ≤ b.position) (t.spans.filter (·.definition.name == name))

/-- The definition of a name in force at a position. -/
def activeAt? (t : MacroTable) (name : String) (position : Int) : Option ActiveSpan :=
  (t.definitions name).find? (·.isActiveAt position)

/-- Whether some directive is about the name. -/
def contains (t : MacroTable) (name : String) : Bool :=
  t.events.any (·.directive.name == name)

/-- The first directive about each name, in the order of recording. -/
def firstEvents : List String → List Event → List Event
  | _, [] => []
  | seen, e :: es =>
    if seen.contains e.directive.name then firstEvents seen es
    else e :: firstEvents (e.directive.name :: seen) es

/-- The names that have a definition, ordered by the position of the first directive about each. -/
def names (t : MacroTable) : List String :=
  let defined := (firstEvents [] t.events).filter fun e =>
    (t.history e.directive.name).any (·.directive.isDefine)
  let before (a b : Event) : Bool :=
    a.position < b.position || (a.position == b.position && a.directive.name ≤ b.directive.name)
  (Sorting.sort before defined).map (·.directive.name)

/-- The definitions of a name that are not in a disabled branch. -/
def liveDefinitions (t : MacroTable) (name : String) : List Definition :=
  (t.history name).filterMap fun e =>
    match e.directive with
    | .define d => if e.reachability = .disabled then none else some d
    | .undef .. => none

/-- Whether a name has live definitions that differ. -/
def isAmbiguous (t : MacroTable) (name : String) : Bool :=
  match t.liveDefinitions name with
  | [] => false
  | d :: ds => ds.any (·.signature != d.signature)

/-- What is said about the definitions of an ambiguous name. -/
def conflictDetail (t : MacroTable) (name : String) : String :=
  let lines := (t.liveDefinitions name).map fun d => toString d.span.line
  "conflicting definitions at lines " ++ ", ".intercalate lines

/-- Why a name has no one definition; nothing if it has. -/
def ambiguity? (t : MacroTable) (name : String) : Option String :=
  if t.isAmbiguous name then some (name ++ ": " ++ t.conflictDetail name) else none

end MacroTable

end Demacro
