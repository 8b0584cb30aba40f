import Demacro.Binary64.Text
import Demacro.Numeral
import Demacro.Text.Quoted

/-!
Values of options as they stand in a settings file, and their text in messages.
-/

namespace Demacro

/-- A value in a settings file. The entries of a table keep their order. Dates, byte strings and
sets, which a file in YAML may hold as well, are left out. -/
inductive SettingValue where
  | null
  | bool (b : Bool)
  | int (n : Int)
  | float (x : Float)
  | text (t : CodeText)
  | list (items : List SettingValue)
  | table (entries : List (SettingValue × SettingValue))

/-- Why the text of a settings file holds no value. -/
inductive ValueFault where
  /-- The text breaks the rules of its format. -/
  | malformed
  /-- An integer has too many digits to be read. -/
  | longInteger (digits : Nat)
  /-- An integer has a mark for its base but no digits. -/
  | emptyInteger
  /-- An escape names a number above all code points. -/
  | codePointTooLarge
  /-- An escape names a number that no machine word holds. -/
  | codePointOverflow
deriving DecidableEq

namespace ValueFault

/-- The name of the kind of a fault. -/
def kind : ValueFault → String
  | codePointOverflow => "OverflowError"
  | _ => "ValueError"

/-- A fault in words; nothing where the kind says it all. -/
def message? : ValueFault → Option String
  | longInteger digits => some (Numeral.tooLongMessage digits)
  | codePointTooLarge => some "chr() arg not in range(0x110000)"
  | malformed | emptyInteger | codePointOverflow => none

/-- What was found, or the fault of a text in which there is nothing to find. -/
def orMalformed (found : Option α) : Except ValueFault α :=
  match found with
  | some a => .ok a
  | none => .error malformed

end ValueFault

namespace SettingValue

mutual

/-- The value as shown in a message. -/
def display : SettingValue → String
  | null => "None"
  | bool b => if b then "True" else "False"
  | int n => toString n
  | float x => Binary64.text x
  | text t => CodeText.quoted t
  | list items => "[" ++ displayItems items ++ "]"
  | table entries => "\x7b" ++ displayEntries entries ++ "\x7d"

/-- The items of a list. -/
def displayItems : List SettingValue → String
  | [] => ""
  | [v] => display v
  | v :: vs => display v ++ ", " ++ displayItems vs

/-- The entries of a table. -/
def displayEntries : List (SettingValue × SettingValue) → String
  | [] => ""
  | [(k, v)] => display k ++ ": " ++ display v
  | (k, v) :: es => display k ++ ": " ++ display v ++ ", " ++ displayEntries es

end

mutual

/-- Whether all numbers in a value are short enough to be shown. -/
def isShowable : SettingValue → Bool
  | int n => Numeral.isShort n
  | list items => areShowable items
  | table entries => areEntriesShowable entries
  | null | bool _ | float _ | text _ => true

/-- Whether all numbers in the items of a list are short enough to be shown. -/
def areShowable : List SettingValue → Bool
  | [] => true
  | v :: vs => isShowable v && areShowable vs

/-- Whether all numbers in the entries of a table are short enough to be shown. -/
def areEntriesShowable : List (SettingValue × SettingValue) → Bool
  | [] => true
  | (k, v) :: es => isShowable k && isShowable v && areEntriesShowable es

end

/-- The value as a text: a text is its own, other values are shown. -/
def plain : SettingValue → String
  | text t => CodeText.display t
  | v => v.display

/-- The name of a value's type. -/
def typeName : SettingValue → String
  | null => "NoneType"
  | bool _ => "bool"
  | int _ => "int"
  | float _ => "float"
  | text _ => "str"
  | list _ => "list"
  | table _ => "dict"

/-- The number that a value counts as when it is a key: truth values count as zero and one. -/
def keyNumber? : SettingValue → Option (Int ⊕ Float)
  | bool b => some (.inl (if b then 1 else 0))
  | int n => some (.inl n)
  | float x => some (.inr x)
  | _ => none

/-- Whether a value can be a key: lists and tables cannot. -/
def isKey : SettingValue → Bool
  | list _ | table _ => false
  | _ => true

/-- Whether two values are the same key: the same text, equal numbers, or both null. -/
def sameKey (a b : SettingValue) : Bool :=
  match a.keyNumber?, b.keyNumber? with
  | some (.inl m), some (.inl n) => m == n
  | some (.inl m), some (.inr y) => Binary64.compareInt m y == some .eq
  | some (.inr x), some (.inl n) => Binary64.compareInt n x == some .eq
  | some (.inr x), some (.inr y) => x == y
  | _, _ =>
    match a, b with
    | null, null => true
    | text s, text t => s == t
    | _, _ => false

/-- The entries with the value of `key` set: in place if the key is there, else at the end. -/
def setEntry (key value : SettingValue) :
    List (SettingValue × SettingValue) → List (SettingValue × SettingValue)
  | [] => [(key, value)]
  | (k, v) :: rest =>
    if k.sameKey key then (k, value) :: rest else (k, v) :: setEntry key value rest

/-- The table of entries written one after another, of which later ones win. -/
def ofEntries (entries : List (SettingValue × SettingValue)) :
    List (SettingValue × SettingValue) :=
  entries.foldl (fun es (k, v) => setEntry k v es) []

end SettingValue

end Demacro
