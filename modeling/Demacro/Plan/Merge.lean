import Demacro.Plan
import Demacro.Proposal.Identifier

/-!
Plans of several units in one. A header that several units include brings the same proposal several
times. The copies must agree on every file that both of them change; a proposal that some unit holds
back, or whose definition follows no pattern in some unit, is in no merged plan.
-/

namespace Demacro.Proposal

/-- The edits of a proposal in files that another one changes too. -/
def sharedEdits (p other : Proposal) : List Edit :=
  p.edits.filter fun e => other.edits.any (·.path == e.path)

/-- Whether two copies of a proposal agree on all files that both change. -/
def agrees (p q : Proposal) : Bool :=
  let mine := p.sharedEdits q
  let theirs := q.sharedEdits p
  mine.length == theirs.length && mine.all fun e => theirs.any (e.sameChange ·)

/-- A copy of a proposal with the edits of another copy added. -/
def union (p q : Proposal) : Proposal :=
  { p with
    edits := p.edits ++ q.edits.filter fun e => !p.edits.any (e.sameChange ·)
    tier := p.tier.lower q.tier }

/-- The first edit of `q` that `p` lacks in a file that it changes, with an edit of `p` in the same
file. -/
def firstDifference? (p q : Proposal) : Option Conflict :=
  q.edits.findSome? fun e =>
    if p.edits.any (e.sameChange ·) then none
    else (p.edits.find? (·.path == e.path)).map fun partner => ⟨e.path, partner, e⟩

end Demacro.Proposal

namespace Demacro.EditPlan

/-- What was gathered from the plans so far. -/
structure Merging where
  report : List ReportEntry := []
  conflicts : List Conflict := []
  /-- One copy of each proposal with the edits of all copies that agree with it. -/
  proposals : List Proposal := []
  /-- The identifiers of proposals with copies that disagree. -/
  diverged : List String := []
  withheld : List String := []
  blocked : List (DefinitionSite × Text) := []

namespace Merging

/-- Takes in a copy of a proposal. -/
def addProposal (m : Merging) (p : Proposal) : Merging :=
  match m.proposals.find? (·.id == p.id) with
  | none => { m with proposals := m.proposals ++ [p] }
  | some known =>
    if known.agrees p then
      { m with proposals := m.proposals.map fun q => if q.id = p.id then q.union p else q }
    else
      let difference := (known.firstDifference? p).orElse fun _ => p.firstDifference? known
      { m with
        diverged := appendNew m.diverged [p.id]
        conflicts := m.conflicts ++ difference.toList }

/-- Takes in the plan of a unit. -/
def addPlan (m : Merging) (p : EditPlan) : Merging :=
  let gathered := { m with
    report := appendNew m.report p.report
    conflicts := appendNew m.conflicts p.conflicts
    withheld := appendNew m.withheld p.withheld
    blocked := p.blocked.foldl
      (fun sites b => if sites.any (·.1 == b.1) then sites else sites ++ [b]) m.blocked }
  p.proposals.foldl addProposal gathered

/-- Why a proposal is not in the merged plan, if it is not; the definition is read off the
identifier. -/
def refusal? (m : Merging) (p : Proposal) : Except ProposalIdFault (Option Text) :=
  if m.diverged.contains p.id then
    .ok (some "differing proposals for the same definition across translation units")
  else if m.withheld.contains p.id then .ok (some "withheld in another translation unit")
  else do
    let id ← ProposalId.parse p.id
    return (m.blocked.lookup ⟨id.path, id.macroName, id.line⟩).map fun reason =>
      "Unclassified in another translation unit: " ++ reason

/-- The merged plan. -/
def finish (m : Merging) : Except ProposalIdFault EditPlan := do
  let judged ← m.proposals.mapM fun p => return (p, ← m.refusal? p)
  let refused := judged.filterMap fun (p, reason) => reason.map fun r => (p, r)
  let report := appendNew m.report
    (refused.map fun (p, reason) => { macroName := p.macroName, reason := some reason })
  let candidates := (judged.filter fun (_, reason) => reason.isNone).map Prod.fst
  let plan := assemble candidates report m.conflicts
  let refusedIds := m.withheld ++ m.diverged ++ refused.map fun (p, _) => p.id
  return { plan with
    withheld := appendNew plan.withheld (refusedIds.filter fun id => !plan.emitted.contains id)
    blocked := m.blocked }

end Merging

/-- The plans of several units in one. Only an identifier that is none can make this fail. -/
def merge (plans : List EditPlan) : Except ProposalIdFault EditPlan :=
  (plans.foldl Merging.addPlan {}).finish

end Demacro.EditPlan
