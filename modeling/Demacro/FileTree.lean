import Demacro.Fault
import Demacro.Path

/-!
A tree of files. Paths are followed step by step, so a step back out of a directory that does not
exist leads nowhere.
-/

namespace Demacro

/-- Files and directories by their absolute paths in normal form, and the directory that relative
paths start from. -/
structure FileTree where
  root : String
  files : List (String × List UInt8)
  directories : List String

namespace FileTree

/-- The parts of an absolute path, without empty ones. -/
def partsOf (path : String) : List (List Char) :=
  (Path.parts path.toList).filter (!·.isEmpty)

/-- The absolute path with the given parts. -/
def ofParts (parts : List (List Char)) : String :=
  String.ofList ('/' :: Path.ofParts parts)

/-- The absolute form of a path, as its text says. -/
def absolute (t : FileTree) (path : String) : String :=
  Path.normal (Path.join t.root path)

/-- The directories on the way to a path. -/
def ancestors (path : String) : List String :=
  let parts := partsOf path
  (List.range parts.length).map fun n => ofParts (parts.take n)

/-- The tree of files with paths relative to the root. A path that ends with a slash stands for a
directory without files. -/
def ofEntries (root : String) (entries : List (String × List UInt8)) : FileTree :=
  let isDirectory (path : String) : Bool := path.toList.getLast? == some '/'
  let place (path : String) : String := Path.normal (Path.join root path)
  let files := entries.filter fun (path, _) => !isDirectory path
  let empty := (entries.filter fun (path, _) => isDirectory path).map fun (path, _) => place path
  { root
    files := files.map fun (path, data) => (place path, data)
    directories := ("/" :: root :: ancestors root
      ++ (files.flatMap fun (path, _) => ancestors (place path))
      ++ empty.flatMap fun path => path :: ancestors path).eraseDups }

/-- Whether a path in normal form is a directory. -/
def isDirectory (t : FileTree) (path : String) : Bool :=
  t.directories.contains path

/-- The most bytes that the name of a file may have. -/
def maxNameBytes : Nat := 255

/-- The most bytes that a path may have. -/
def maxPathBytes : Nat := 4095

/-- What is wrong with the text of a path, if anything is. -/
def pathFault? (path : String) : Option AccessFault :=
  if path.toList.contains '\x00' then some .nullCharacter
  else if path.isEmpty then some .notFound
  else if maxPathBytes < path.utf8ByteSize then some .nameTooLong
  else none

/-- Where one step leads from the place with the given parts. -/
def step (t : FileTree) (place : List (List Char)) (name : List Char) :
    Except AccessFault (List (List Char)) :=
  let path := ofParts place
  if t.isDirectory path then
    if name = [] ∨ name = ['.'] then .ok place
    else if name = ['.', '.'] then .ok place.dropLast
    else if maxNameBytes < (String.ofList name).utf8ByteSize then .error .nameTooLong
    else .ok (place ++ [name])
  else if (t.files.lookup path).isSome then .error .notDirectory
  else .error .notFound

/-- The place that paths with this text start from. -/
def start (t : FileTree) (path : String) : List (List Char) :=
  if Path.isAbsolute path then [] else partsOf t.root

/-- The place that a path leads to. There need be nothing there, but on the way there must be
directories. -/
def locate (t : FileTree) (path : String) : Except AccessFault String :=
  match pathFault? path with
  | some fault => .error fault
  | none => ((Path.parts path.toList).foldlM t.step (t.start path)).map ofParts

/-- The contents of a file. -/
def read (t : FileTree) (path : String) : Except AccessFault (List UInt8) := do
  let place ← t.locate path
  if t.isDirectory place then throw .isDirectory
  else
    match t.files.lookup place with
    | some data => return data
    | none => throw .notFound

/-- The tree with the contents of a file set. A path that ends with a slash means a directory. -/
def write (t : FileTree) (path : String) (data : List UInt8) : Except AccessFault FileTree := do
  let body := (path.toList.reverse.dropWhile (· == '/')).reverse
  if body.isEmpty && !path.isEmpty then throw .isDirectory
  let place ← t.locate (String.ofList body)
  if body.length < path.length || t.isDirectory place then throw .isDirectory
  else return { t with files := (place, data) :: t.files.filter (·.1 != place) }

/-- The tree with the directories that the steps lead through. -/
def makeSteps (t : FileTree) (place : List (List Char)) :
    List (List Char) → Except AccessFault FileTree
  | [] => if t.isDirectory (ofParts place) then .ok t else .error .occupied
  | name :: names =>
    if name = [] then makeSteps t place names
    else if name.contains '\x00' then .error .nullCharacter
    else do
      let next ← t.step place name
      let path := ofParts next
      let isNew := !t.isDirectory path && (t.files.lookup path).isNone
      makeSteps (if isNew then { t with directories := t.directories ++ [path] } else t) next names

/-- The tree with a directory and those on the way to it. -/
def makeDirectories (t : FileTree) (path : String) : Except AccessFault FileTree :=
  if path.isEmpty then .error .notFound
  else t.makeSteps (t.start path) (Path.parts path.toList)

end FileTree

end Demacro
