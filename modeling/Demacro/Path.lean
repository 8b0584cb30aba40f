/-!
Slash-separated file paths: joining, the directory part, the normal form and the suffix. All of
them work on the text of a path alone.
-/

namespace Demacro.Path

/-- The parts of a text between slashes. -/
def parts : List Char → List (List Char)
  | [] => [[]]
  | c :: cs =>
    if c = '/' then [] :: parts cs
    else
      match parts cs with
      | p :: ps => (c :: p) :: ps
      | [] => [[c]]

/-- Parts with a slash between each two of them. -/
def ofParts : List (List Char) → List Char
  | [] => []
  | [p] => p
  | p :: ps => p ++ '/' :: ofParts ps

/-- Whether the path starts at the root. -/
def isAbsolute (path : String) : Bool :=
  path.toList.head? == some '/'

/-- The path `rest` as seen from the directory `base`. -/
def join (base rest : String) : String :=
  if isAbsolute rest then rest
  else if base.isEmpty || base.toList.getLast? == some '/' then base ++ rest
  else base ++ "/" ++ rest

/-- The text behind the last slash. -/
def fileName (path : String) : String :=
  String.ofList ((parts path.toList).getLastD [])

/-- The text up to the last slash, without the slashes at its end unless it holds nothing else. -/
def directory (path : String) : String :=
  let head := (path.toList.reverse.dropWhile (· != '/')).reverse
  if head.all (· == '/') then String.ofList head
  else String.ofList (head.reverse.dropWhile (· == '/')).reverse

/-- One part of a path after the parts in `done`, which are in reverse order: a dot stays where it
is and two dots go back, except above the start of a relative path. -/
def walk (rooted : Bool) (done : List (List Char)) (part : List Char) : List (List Char) :=
  if part = [] ∨ part = ['.'] then done
  else if part ≠ ['.', '.'] then part :: done
  else
    match done with
    | [] => if rooted then [] else [part]
    | last :: before => if last = ['.', '.'] then part :: done else before

/-- The number of slashes that the normal form starts with: two slashes at the start stay two, more
than two count as one. -/
def rootSlashes : List Char → Nat
  | '/' :: '/' :: '/' :: _ => 1
  | '/' :: '/' :: _ => 2
  | '/' :: _ => 1
  | _ => 0

/-- The path without doubled slashes, dots and the steps back that can be undone. -/
def normal (path : String) : String :=
  let cs := path.toList
  let slashes := rootSlashes cs
  let done := (parts cs).foldl (walk (slashes != 0)) []
  let text := List.replicate slashes '/' ++ ofParts done.reverse
  if text.isEmpty then "." else String.ofList text

/-- The path without empty parts and dots. Steps back stay, so the path leads to the same place. -/
def compact (path : String) : String :=
  let cs := path.toList
  let kept := (parts cs).filter fun part => part != [] && part != ['.']
  let text := List.replicate (rootSlashes cs) '/' ++ ofParts kept
  if text.isEmpty then "." else String.ofList text

/-- The ending of the file name from its last dot on; empty if that dot starts or ends the name. -/
def extension (path : String) : String :=
  let name := (fileName path).toList
  let ending := name.reverse.takeWhile (· != '.')
  if ending.isEmpty || name.length ≤ ending.length + 1 then ""
  else String.ofList ('.' :: ending.reverse)

/-- The suffix of the file name from its last dot on; empty if there is no dot behind a character
other than a dot. -/
def suffix (path : String) : String :=
  let name := (fileName path).toList.dropWhile (· == '.')
  let ending := name.reverse.takeWhile (· != '.')
  if ending.length = name.length then "" else String.ofList ('.' :: ending.reverse)

/-- The path without its suffix. -/
def withoutSuffix (path : String) : String :=
  String.ofList (path.toList.take (path.length - (suffix path).length))

end Demacro.Path
