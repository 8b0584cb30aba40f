import Demacro.Classification
import Demacro.Settings

/-!
What is known about a unit before its macros are classified, and the references between its macros:
a replacement that mentions another macro carries it to wherever the first one is used.
-/

namespace Demacro

/-- The macros of a unit with everything that their classification looks at. -/
structure Survey where
  table : MacroTable
  /-- The include guard of each file that has one. -/
  guards : List (String × String)
  scopes : UnitScopes
  uses : UsageIndex
  /-- The compiled code tokens. -/
  code : List PlacedToken
  constantStyle : ClassConstantStyle

namespace Survey

/-- The survey of a unit; `parse` gives the syntax tree of the bytes of a file. -/
def ofUnit (parse : List UInt8 → SyntaxNode) (settings : Settings) (u : CompilationUnit) : Survey :=
  let table := MacroTable.ofEvents u.events
  let scopes := UnitScopes.ofUnit parse u
  { table, scopes
    guards := u.guards
    uses := UsageIndex.ofUnit u table scopes
    code := UsageIndex.liveCode u
    constantStyle := settings.classConstantStyle }

/-- Whether the replacement of a definition mentions a name that is no parameter of it. -/
def mentions (d : Definition) (name : String) : Bool :=
  d.replacement.any fun t =>
    t.isIdentifier && t.spelling == name && !d.shape.parameters.contains name

/-- The macros whose replacements mention a macro other than themselves. -/
def referrers (s : Survey) (name : String) : List String :=
  if s.table.contains name then
    s.table.names.filter fun m => m != name && (s.table.liveDefinitions m).any (mentions · name)
  else []

theorem referrers_length_le (s : Survey) (name : String) :
    (s.referrers name).length ≤ s.table.names.length := by
  unfold referrers
  split
  · exact List.length_filter_le _ _
  · exact Nat.zero_le _

/-- The macros that the ones in `pending` lead to, each once and in the order in which they are
first met. `unvisited` holds the macros that were not met yet. -/
def reach (s : Survey) (unvisited pending : List String) : List String :=
  match pending with
  | [] => []
  | m :: rest =>
    if m ∈ unvisited then m :: reach s (unvisited.erase m) (rest ++ s.referrers m)
    else reach s unvisited rest
termination_by unvisited.length * (s.table.names.length + 1) + pending.length
decreasing_by
  · rename_i h
    obtain ⟨n, hn⟩ := Nat.exists_eq_succ_of_ne_zero (Nat.ne_of_gt (List.length_pos_of_mem h))
    have hLe := s.referrers_length_le m
    rw [List.length_erase_of_mem h, List.length_append, List.length_cons, hn, Nat.succ_sub_one,
      Nat.succ_mul]
    omega
  · simp

/-- The macros that expand to a macro, directly or through others. -/
def carriers (s : Survey) (name : String) : List String :=
  s.reach (s.table.names.filter (· != name)) (s.referrers name)

/-- The uses of the macros that expand to a macro. Where nothing is seen of a carrier, neither a use
nor another carrier of it, it comes without a use. -/
def expansionSites (s : Survey) (name : String) : List (String × Option Usage) :=
  (s.carriers name).flatMap fun m =>
    let usages := s.uses.usages m
    if usages.isEmpty ∧ (s.referrers m).isEmpty then [(m, none)]
    else usages.map fun u => (m, some u)

end Survey

end Demacro
