import Demacro.Scope.Lexical
import Demacro.Scope.Tree

/-!
The scopes around places of a unit. They come from the syntax tree of the file; where the tree has
syntax errors the tokens are asked too, and their answer counts if the two differ.
-/

namespace Demacro

/-- What is known about the scopes of one file. -/
structure FileScopes where
  text : Text
  tree : SyntaxNode
  regions : List Region
  hasFault : Bool
  /-- All code tokens of the file, those in disabled branches among them. -/
  code : List PlacedToken
  tokens : FileTokens

/-- The scopes of the files of a unit. -/
structure UnitScopes where
  files : List (String × FileScopes)

namespace UnitScopes

/-- The scopes of a unit; `parse` gives the syntax tree of the bytes of a file. -/
def ofUnit (parse : List UInt8 → SyntaxNode) (u : CompilationUnit) : UnitScopes :=
  let code := u.codeTokens
  ⟨u.files.map fun (path, text) =>
    let tree := parse text.encode
    let own := code.filter (·.span.path == path)
    (path, ⟨text, tree, Region.ofTree text tree, tree.hasFault, own,
      FileTokens.ofCode path own text.length⟩)⟩

/-- The scopes of a file. -/
def file? (s : UnitScopes) (path : String) : Option FileScopes :=
  s.files.lookup path

end UnitScopes

namespace FileScopes

/-- The end of the first semicolon at or behind an offset. -/
def statementEnd? (f : FileScopes) (offset : Int) : Option Nat :=
  (f.code.find? fun t => offset ≤ t.span.start && t.isPunct ";").map (·.span.stop)

/-- The frames around an offset by the syntax tree. -/
def treeFrames (f : FileScopes) (path : String) (offset : Int) : List Frame :=
  (f.regions.filter (·.holds offset)).map (·.frame path offset fun stop => f.statementEnd? stop)

/-- The frame with the end of the declaration, if it is a class. -/
def withStatementEnd (f : FileScopes) (frame : Frame) : Frame :=
  match frame.shape with
  | .classFrame key access _ =>
      { frame with shape := .classFrame key access (f.statementEnd? frame.stop) }
  | _ => frame

/-- The scopes around an offset. -/
def contextAt (f : FileScopes) (path : String) (offset : Int) : Context :=
  let byTree : Context := ⟨f.treeFrames path offset, .tree, false⟩
  if f.hasFault then
    let byTokens : Context := ⟨(f.tokens.framesAt offset).map f.withStatementEnd, .lexical, true⟩
    if byTree.kind = byTokens.kind ∧ byTree.qualifiedName = byTokens.qualifiedName then byTree
    else byTokens
  else byTree

/-- Whether a constant is required at a range. -/
def isConstantPosition (f : FileScopes) (start stop : Int) : Bool :=
  f.tree.isConstantPosition (f.text.byteOffset start) (f.text.byteOffset stop)
    || (f.hasFault && f.tokens.isConstantPosition start)

end FileScopes

namespace UnitScopes

/-- The scopes around an offset in a file. Nothing is known about a file that is not in the unit. -/
def contextAt (s : UnitScopes) (path : String) (offset : Int) : Context :=
  ((s.file? path).map (·.contextAt path offset)).getD ⟨[], .tree, false⟩

/-- The scopes around a definition. -/
def contextOf (s : UnitScopes) (d : Definition) : Context :=
  s.contextAt d.span.path d.span.start

/-- Whether a constant is required at a range of a file. -/
def isConstantPosition (s : UnitScopes) (path : String) (start stop : Int) : Bool :=
  (s.file? path).any (·.isConstantPosition start stop)

/-- The end of the first semicolon of a file at or behind an offset. -/
def statementEnd? (s : UnitScopes) (path : String) (offset : Int) : Option Nat :=
  (s.file? path).bind (·.statementEnd? offset)

end UnitScopes

end Demacro
