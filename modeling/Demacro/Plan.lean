import Demacro.Proposal

/-!
Edit plans: the edits of many proposals, file by file. Proposals whose edits overlap are all held
back, and what is not replaced is reported with a reason.
-/

namespace Demacro

/-- A remark in the report of a plan: why a macro is not replaced, or a warning. -/
structure ReportEntry where
  macroName : String
  reason : Option Text := none
  warning : Option Text := none
deriving DecidableEq

/-- Two edits of a file that cannot both be made. -/
structure Conflict where
  path : String
  first : Edit
  second : Edit
deriving DecidableEq

/-- A definition of a macro: the path, the name and the line. -/
structure DefinitionSite where
  path : String
  macroName : String
  line : Nat
deriving DecidableEq

/-- A macro that follows no pattern. The site is missing where there is nothing to replace. -/
structure Leftover where
  macroName : String
  reason : Option Text
  site : Option DefinitionSite

/-- Edits that can be made together. -/
structure EditPlan where
  /-- The edits of each file in order, by path. -/
  edits : List (String × List Edit) := []
  conflicts : List Conflict := []
  report : List ReportEntry := []
  /-- The proposals whose edits are in the plan. -/
  proposals : List Proposal := []
  /-- The identifiers of proposals that are not in the plan, each once. -/
  withheld : List String := []
  /-- Definitions that follow no pattern, with the reason. -/
  blocked : List (DefinitionSite × Text) := []

/-- The pair with the key set to the value: in place if the key is there, else at the end. -/
def setKey [DecidableEq κ] (key : κ) (value : α) : List (κ × α) → List (κ × α)
  | [] => [(key, value)]
  | (k, v) :: rest => if k = key then (key, value) :: rest else (k, v) :: setKey key value rest

namespace EditPlan

/-- The identifiers of the proposals in the plan. -/
def emitted (p : EditPlan) : List String :=
  p.proposals.map Proposal.id

/-- The number of edits. -/
def editCount (p : EditPlan) : Nat :=
  (p.edits.flatMap Prod.snd).length

/-- The edits of a file. -/
def editsFor (p : EditPlan) (path : String) : List Edit :=
  (p.edits.lookup path).getD []

/-- What is said about a plan with conflicts. -/
def conflictMessage? (p : EditPlan) : Option String :=
  p.conflicts.head?.map fun c =>
    "Edit plan has " ++ toString p.conflicts.length ++ " unresolved conflict(s)"
      ++ if c.path.isEmpty then "" else " (first in " ++ c.path ++ ")"

/-- The edits of the proposals, without those that repeat a change. -/
def pool (proposals : List Proposal) : List Edit :=
  (proposals.flatMap Proposal.edits).foldl
    (fun es e => if es.any (·.sameChange e) then es else es ++ [e]) []

/-- The conflicts of an edit with those behind it in a list in order. -/
def conflictsOf (e : Edit) : List Edit → List Conflict
  | [] => []
  | d :: ds =>
    if e.stop < d.start then []
    else if e.overlaps d then ⟨e.path, e, d⟩ :: conflictsOf e ds
    else conflictsOf e ds

/-- The conflicts among the edits of one file, which are in order. -/
def conflictsIn : List Edit → List Conflict
  | [] => []
  | e :: es => conflictsOf e es ++ conflictsIn es

/-- The edits of each file in order; the files in the order in which they are first met. -/
def byPath (edits : List Edit) : List (String × List Edit) :=
  (edits.map (·.path)).eraseDups.map fun path =>
    (path, Edit.sorted (edits.filter (·.path == path)))

/-- The pairs of a proposal in a conflict and the other one in it: for each conflict both ways, and
only the first pair for each proposal counts. -/
def partners (conflicts : List Conflict) : List (String × String) :=
  conflicts.flatMap fun c =>
    [(c.first.proposal, c.second.proposal), (c.second.proposal, c.first.proposal)]

/-- Why a proposal in a conflict is held back. -/
def conflictReason (id partner : String) : String :=
  if partner = id then "overlapping edits within the proposal"
  else "conflicting edits with " ++ partner

/-- The plan of the candidates, where conflicts known before count too. -/
def assemble (candidates : List Proposal) (report : List ReportEntry) (known : List Conflict) :
    EditPlan :=
  let files := byPath (pool candidates)
  let conflicts := known ++ files.flatMap fun (_, es) => conflictsIn (es.filter (!·.isAppend))
  let partners := partners conflicts
  let accepted := candidates.filter fun p => (partners.lookup p.id).isNone
  let refused := candidates.filterMap fun p =>
    (partners.lookup p.id).map fun other =>
      { macroName := p.macroName, reason := some (conflictReason p.id other) }
  let ids := accepted.map Proposal.id
  let kept := (files.map fun (path, es) =>
    (path, es.filter fun e => ids.contains e.proposal)).filter fun (_, es) => !es.isEmpty
  { conflicts
    edits := Sorting.sort (fun a b => a.1 ≤ b.1) kept
    report := appendNew report refused
    proposals := accepted
    withheld := appendNew [] (partners.map Prod.fst) }

/-- Why a proposal is no candidate, if it is not. -/
def refusal? (minimum : SafetyTier) (p : Proposal) : Option Text :=
  if p.edits.isEmpty then
    some (if p.reason.all List.isEmpty then "no edits synthesized" else p.reason.getD [])
  else if p.tier.rank < minimum.rank then
    some ("safety tier " ++ p.tier.name ++ " is below the emit threshold " ++ minimum.name : String)
  else none

/-- The reason that blocks a definition. -/
def blockReason (l : Leftover) : Text :=
  if l.reason.all List.isEmpty then "Unclassified" else l.reason.getD []

/-- What is reported about a proposal before any conflict: the dangers of the macro, and why it is
no candidate. -/
def proposalEntries (minimum : SafetyTier) (p : Proposal) : List ReportEntry :=
  p.warnings.map (fun w => { macroName := p.macroName, warning := some w })
    ++ (refusal? minimum p).toList.map fun reason =>
      { macroName := p.macroName, reason := some reason }

/-- The plan of one unit. -/
def build (proposals : List Proposal) (leftovers : List Leftover) (minimum : SafetyTier)
    (warnings : List ReportEntry) : EditPlan :=
  let entries := leftovers.map (fun l => { macroName := l.macroName, reason := l.reason })
    ++ proposals.flatMap (proposalEntries minimum) ++ warnings
  let candidates := proposals.filter fun p => (refusal? minimum p).isNone
  let skipped := proposals.filter fun p => (refusal? minimum p).isSome
  let plan := assemble candidates (appendNew [] entries) []
  { plan with
    withheld := appendNew plan.withheld (skipped.map Proposal.id)
    blocked := leftovers.foldl
      (fun sites l => l.site.elim sites fun site => setKey site (blockReason l) sites) [] }

end EditPlan

end Demacro
