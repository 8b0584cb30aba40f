import Demacro.FileTree.Units
import Demacro.Log
import Demacro.Report.Files
import Demacro.Settings.File
import Demacro.Proofs.Classification.Grouping
import Demacro.Proofs.Expr.Asking
import Demacro.Proofs.Expr.Leading
import Demacro.Proofs.Expr.Standing
import Demacro.Proofs.Classification.Order
import Demacro.Proofs.Preprocessing
import Demacro.Proofs.Plan.Applicability
import Demacro.Proofs.Plan.Order
import Demacro.Proofs.Failure
import Demacro.Proofs.Plan.Emission
import Demacro.Proofs.Run
import Demacro.Proofs.Selection.Exactness
import Demacro.Proofs.Survival
import Demacro.Proofs.Constant.Agreement
import Demacro.Proofs.References
import Demacro.Proofs.Removal
import Demacro.Proofs.Inclusion
import Demacro.Proofs.Uses
import Demacro.Proofs.Collisions
import Demacro.Proofs.ConstantUses
import Demacro.Proofs.Placement
import Demacro.Proofs.Plan.Copies
import Demacro.Proofs.Plan.Identifiers
import Demacro.Proofs.Accounting
import Demacro.Proofs.Lexing.Derivation
import Demacro.Proofs.Lexing.Echo
import Demacro.Proofs.Rewriting.Attachment
import Demacro.Proofs.Rewriting.Declarations
import Demacro.Proofs.Rewriting.Payloads
import Demacro.Proofs.Rewriting.Reweaving
import Demacro.Proofs.MacroTable.Lookup
import Demacro.Proofs.Lexing.Layout
import Demacro.Proofs.Unit.Numbering
import Demacro.Proofs.Expr.Laying
import Demacro.Proofs.Classification.Escapes
import Demacro.Proofs.Classification.Evaluations
import Demacro.Proofs.Expr.Following
import Demacro.Proofs.Expr.Roundtrip
import Demacro.Proofs.Renaming
import Demacro.Proofs.Required
import Demacro.Proofs.Rewriting.Idempotence
import Demacro.Proofs.Rewriting.Splicing
import Demacro.Proofs.Scopes.Visibility
import Demacro.Proofs.Scopes.Braces
import Demacro.Proofs.Scopes.Chain
import Demacro.Proofs.Substitution.Parameters
import Demacro.Proofs.Constant.Range
import Demacro.Proofs.Constant.Certainty
import Demacro.Proofs.Lexing.Positions
import Demacro.Proofs.Lexing.Rendering
import Demacro.Proofs.Lexing.Transparency
import Demacro.Proofs.Definitions
import Demacro.Proofs.Selection.Nesting
import Demacro.Proofs.Constant.Integers
import Demacro.Proofs.MacroTable.Names
import Demacro.Proofs.Expr.Effects
import Demacro.Proofs.Settings
import Demacro.Proofs.Text
