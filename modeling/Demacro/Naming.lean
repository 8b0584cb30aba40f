import Demacro.Path
import Demacro.Unicode.Case

/-!
Names of functions that replace macros, and the suffixes of file names that count.
-/

namespace Demacro

/-- The parts of a name between underscores, without the empty ones. -/
def nameParts (cs : List Char) : List (List Char) :=
  let step (c : Char) (acc : List Char × List (List Char)) : List Char × List (List Char) :=
    if c = '_' then ([], if acc.1.isEmpty then acc.2 else acc.1 :: acc.2) else (c :: acc.1, acc.2)
  let (part, rest) := cs.foldr step ([], [])
  if part.isEmpty then rest else part :: rest

/-- A part with its first character in upper and the others in lower case. -/
def capitalized (part : List Char) : String :=
  Unicode.toUpper (String.ofList (part.take 1)) ++ Unicode.toLower (String.ofList (part.drop 1))

/-- A name with underscores as one word with inner capitals. A single part in capitals becomes lower
case, and another single part stays as it is. -/
def camelCase (name : String) : String :=
  match nameParts name.toList with
  | [] => name
  | [part] =>
    let text := String.ofList part
    if Unicode.isAllUpper text then Unicode.toLower text else text
  | part :: parts => Unicode.toLower (String.ofList part) ++ String.join (parts.map capitalized)

/-- The suffixes of headers. -/
def headerSuffixes : List String :=
  [".h", ".hpp", ".hxx", ".hh"]

/-- The suffixes of files that can be units of their own. -/
def unitSuffixes : List String :=
  [".cpp", ".cc", ".cxx", ".c", ".h", ".hpp", ".hxx"]

/-- Whether a file is a header by its name. -/
def isHeader (path : String) : Bool :=
  headerSuffixes.contains (Unicode.toLower (Path.suffix path))

end Demacro
