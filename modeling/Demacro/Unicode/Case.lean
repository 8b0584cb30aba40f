import Demacro.Unicode.CaseTables

/-!
Upper and lower case of texts. Lower-casing looks at the neighbours of a capital sigma: at the end
of a word it becomes the final form.
-/

namespace Demacro.Unicode

/-- An upper case character. -/
def isUpper (c : Char) : Bool :=
  inRuns upperRuns c.toNat

/-- A lower case character. -/
def isLower (c : Char) : Bool :=
  inRuns lowerRuns c.toNat

/-- A title case character. -/
def isTitle (c : Char) : Bool :=
  inRuns titleRuns c.toNat

/-- A character that has case. -/
def isCased (c : Char) : Bool :=
  isUpper c || isLower c || isTitle c

/-- A character that does not count when the letters around a sigma are sought. -/
def isCaseIgnorable (c : Char) : Bool :=
  inRanges caseIgnorableRanges c.toNat

/-- The image of `c` under the run that holds it; `c` itself where none does. -/
def mapBy (runs : List (Nat × Nat × Nat × Int)) (c : Char) : Char :=
  match runs.find? fun r => r.1 ≤ c.toNat && c.toNat ≤ r.2.1 && (c.toNat - r.1) % r.2.2.1 == 0 with
  | some r => Char.ofNat (c.toNat + r.2.2.2).toNat
  | none => c

/-- The upper case form of one character. -/
def upperChar (c : Char) : List Char :=
  match toUpperLong.find? fun r => r.1 == c.toNat with
  | some r => r.2.map Char.ofNat
  | none => [mapBy toUpperRuns c]

/-- The lower case form of one character without regard to its neighbours. -/
def lowerChar (c : Char) : List Char :=
  if c.toNat == 0x130 then ['i', Char.ofNat 0x307] else [mapBy toLowerRuns c]

/-- Whether the nearest character that counts has case. -/
def nextIsCased (cs : List Char) : Bool :=
  match cs.dropWhile isCaseIgnorable with
  | c :: _ => isCased c
  | [] => false

/-- Lower case of `cs`, where `before` holds the characters in front of it, nearest first. -/
def lowerAfter (before : List Char) : List Char → List Char
  | [] => []
  | c :: cs =>
    let image :=
      if c.toNat == 0x3a3 then
        [Char.ofNat (if nextIsCased before && !nextIsCased cs then 0x3c2 else 0x3c3)]
      else lowerChar c
    image ++ lowerAfter (c :: before) cs

/-- The text in lower case. -/
def toLower (s : String) : String :=
  String.ofList (lowerAfter [] s.toList)

/-- The text in upper case. -/
def toUpper (s : String) : String :=
  String.ofList (s.toList.flatMap upperChar)

/-- Whether a text has a cased character and all of its cased characters are upper case. -/
def isAllUpper (s : String) : Bool :=
  s.toList.any isUpper && s.toList.all fun c => !(isLower c || isTitle c)

end Demacro.Unicode
