/-!
Names with components that are separated by two colons.
-/

namespace Demacro.QualifiedName

/-- The components of a name. -/
def components : List Char → List (List Char)
  | [] => [[]]
  | ':' :: ':' :: cs => [] :: components cs
  | c :: cs =>
    match components cs with
    | part :: parts => (c :: part) :: parts
    | [] => [[c]]

/-- The name with the given components. -/
def ofComponents (parts : List (List Char)) : List Char :=
  [':', ':'].intercalate parts

/-- The last component of a name. -/
def last (name : String) : String :=
  String.ofList ((components name.toList).getLastD [])

/-- Whether a name has more than one component. -/
def isQualified (name : String) : Bool :=
  1 < (components name.toList).length

end Demacro.QualifiedName
