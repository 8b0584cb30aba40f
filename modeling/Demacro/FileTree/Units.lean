import Demacro.FileTree
import Demacro.Run

/-!
The units in a tree of files: the files under a directory that are units by their names, and runs
over them.
-/

namespace Demacro.FileTree

/-- Directories that hold nothing of interest. -/
def skippedDirectories : List String :=
  ["build", "cmake-build-debug", "cmake-build-release", "node_modules", "venv", "__pycache__",
    "dist", "out"]

/-- Whether a directory is not entered. Hidden ones are among these. -/
def isSkipped (name : List Char) : Bool :=
  name.head? == some '.' || skippedDirectories.contains (String.ofList name)

/-- The parts of a path behind those of a directory, if it lies under the directory. -/
def relative? (directory path : List (List Char)) : Option (List (List Char)) :=
  if directory.isPrefixOf path then some (path.drop directory.length) else none

/-- Whether a file is a unit by its name. -/
def isUnitName (withHeaders : Bool) (name : String) : Bool :=
  let suffix := Path.suffix name
  unitSuffixes.contains suffix && (withHeaders || !headerSuffixes.contains suffix)

/-- The files under a directory that are units by their names, in order. -/
def units (t : FileTree) (directory : String) (withHeaders : Bool) : List String :=
  let top := partsOf (t.absolute directory)
  let found := (t.files.map Prod.fst).filter fun path =>
    match relative? top (partsOf path) with
    | none | some [] => false
    | some steps =>
      !steps.dropLast.any isSkipped && isUnitName withHeaders (Path.fileName path)
  found.mergeSort

/-- The units under a directory, as `units` finds them. A directory that cannot be read has none,
but its path must be one. -/
def discover (t : FileTree) (directory : String) (withHeaders : Bool) :
    Except AccessFault (List String) :=
  match pathFault? (t.absolute directory) with
  | some fault => if fault.isPathFault then .error fault else .ok []
  | none => .ok (t.units directory withHeaders)

/-- Why a directory cannot be analysed. -/
inductive DirectoryFault where
  | missing (path : String)
  | badIdentifier (fault : ProposalIdFault)

/-- A run over the units under a directory. -/
def run (parse : List UInt8 → SyntaxNode) (settings : Settings) (t : FileTree) (directory : String)
    (withHeaders : Bool) : Except DirectoryFault Run :=
  let path := t.absolute directory
  if t.isDirectory path then
    (Run.ofPaths parse settings t.read (t.units directory withHeaders)).mapError .badIdentifier
  else .error (.missing path)

/-- What is said about a directory that does not exist. -/
def missingMessage (path : String) : String :=
  "Directory not found: " ++ path

end Demacro.FileTree
