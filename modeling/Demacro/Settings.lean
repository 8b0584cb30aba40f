import Demacro.Confidence
import Demacro.Numeral
import Demacro.Settings.Value

/-!
The options of a run, and how they are read from entries of a settings file or the environment. An
entry either changes one option or is rejected. When reading strictly the first rejected entry ends
the reading; otherwise rejected entries are left out and reported.
-/

namespace Demacro

/-- How a constant that is used within one class only is declared. -/
inductive ClassConstantStyle where
  | auto
  | staticConstInClass
  | enumHack
deriving DecidableEq

namespace ClassConstantStyle

/-- The name of a style. -/
def name : ClassConstantStyle → String
  | auto => "auto"
  | staticConstInClass => "static_const_in_class"
  | enumHack => "enum_hack"

/-- The styles with their names and other spellings of the names. -/
def spellings : List (String × ClassConstantStyle) :=
  [("auto", auto), ("static_const_in_class", staticConstInClass), ("enum_hack", enumHack)]

/-- Other spellings of style names, without underscores. -/
def compactSpellings : List (String × ClassConstantStyle) :=
  [("staticconstinclass", staticConstInClass), ("enumhack", enumHack)]

end ClassConstantStyle

/-- How a function that replaces a macro is named. -/
inductive FunctionNaming where
  | preserve
  | camelCase
deriving DecidableEq

namespace FunctionNaming

/-- The name of a policy. -/
def name : FunctionNaming → String
  | preserve => "preserve"
  | camelCase => "camel_case"

/-- The policies with their names. -/
def spellings : List (String × FunctionNaming) :=
  [("preserve", preserve), ("camel_case", camelCase)]

/-- Other spellings of policy names, without underscores. -/
def compactSpellings : List (String × FunctionNaming) :=
  [("camelcase", camelCase)]

end FunctionNaming

/-- The options of a run. -/
structure Settings where
  preferStringType : Bool := false
  classConstantStyle : ClassConstantStyle := .auto
  /-- The lowest tier of which edits are emitted. -/
  minimumTier : SafetyTier := .medium
  functionNaming : FunctionNaming := .preserve
  followIncludes : Bool := true
  includeDirectories : List String := []
  companionSuffix : String := ".cpp"
  maxWorkers : Int := 4
deriving DecidableEq

namespace Settings

/-- The names of the options. -/
inductive Key where
  | preferStringType
  | classConstantStyle
  | minimumTier
  | functionNaming
  | followIncludes
  | includeDirectories
  | companionSuffix
  | maxWorkers
deriving DecidableEq

/-- The spellings of the option names. -/
def keySpellings : List (String × Key) :=
  [("prefer_string_type", .preferStringType), ("preferStringType", .preferStringType),
    ("class_constant_style", .classConstantStyle), ("classConstantStyle", .classConstantStyle),
    ("min_confidence_to_emit", .minimumTier), ("minConfidenceToEmit", .minimumTier),
    ("function_naming", .functionNaming), ("functionNaming", .functionNaming),
    ("follow_includes", .followIncludes), ("followIncludes", .followIncludes),
    ("include_dirs", .includeDirectories), ("includeDirs", .includeDirectories),
    ("companion_source_suffix", .companionSuffix), ("companionSourceSuffix", .companionSuffix),
    ("max_workers", .maxWorkers), ("maxWorkers", .maxWorkers)]

/-- Why an entry is rejected. -/
inductive Rejection where
  | notBoolean (key : String) (value : SettingValue)
  | unknownStyle (value : SettingValue)
  | unknownNaming (value : SettingValue)
  | unknownTier (value : SettingValue)
  | notDirectories
  | badSuffix (value : SettingValue)
  | notInteger (value : SettingValue)
  | tooFewWorkers (n : Int)
  | unknownKey (key : SettingValue)

/-- A rejection in words. -/
def Rejection.message : Rejection → String
  | notBoolean key value => key ++ " must be a boolean, got " ++ value.display
  | unknownStyle value => "Unknown classConstantStyle " ++ value.display
  | unknownNaming value => "Unknown functionNaming " ++ value.display
  | unknownTier value => "Unknown minConfidenceToEmit " ++ value.display
  | notDirectories => "includeDirs must be a list or path-separated string"
  | badSuffix value => "companionSourceSuffix must start with '.', got " ++ value.display
  | notInteger value => "maxWorkers must be an integer, got " ++ value.display
  | tooFewWorkers n => "maxWorkers must be >= 1, got " ++ toString n
  | unknownKey key => "Unknown engine config key " ++ key.display

/-- What an entry leads to other than new settings: it is rejected, or it ends the reading whether
strict or not. -/
inductive EntryError where
  | rejected (reason : Rejection)
  /-- It asks for an infinite number of workers. -/
  | infinite
  /-- It holds a number that is too long to be looked at as a text. -/
  | unshowable

/-- A text without white space at both ends. -/
def trimmed (s : String) : String :=
  String.ofList (Unicode.trim s.toList)

/-- The truth value that a value stands for. -/
def bool? : SettingValue → Option Bool
  | .bool b => some b
  | v =>
    let word := Unicode.toLower (trimmed v.plain)
    if ["1", "true", "yes", "on"].contains word then some true
    else if ["0", "false", "no", "off"].contains word then some false
    else none

/-- The alternative that a value names: as it is spelled, in lower case, or in a compact spelling
without underscores. -/
def alternative? (spellings compact : List (String × α)) (v : SettingValue) : Option α :=
  let word := trimmed v.plain
  let small := Unicode.toLower word
  match spellings.lookup word with
  | some a => some a
  | none =>
    match spellings.lookup small with
    | some a => some a
    | none => compact.lookup (String.ofList (small.toList.filter (· != '_')))

/-- The parts of a text between colons. -/
def colonParts : List Char → List (List Char)
  | [] => [[]]
  | c :: cs =>
    if c = ':' then [] :: colonParts cs
    else
      match colonParts cs with
      | p :: ps => (c :: p) :: ps
      | [] => [[c]]

/-- The directories that a value lists. -/
def directories? : SettingValue → Option (List String)
  | .text s => some ((colonParts (CodeText.display s).toList).filterMap fun p =>
      if p.isEmpty then none else some (String.ofList p))
  | .list items => some ((items.map SettingValue.plain).filter fun s => trimmed s != "")
  | _ => none

/-- The whole number that a value stands for. A number with a fraction loses it. -/
def workers (v : SettingValue) : Except EntryError Int :=
  match v with
  | .bool b => .ok (if b then 1 else 0)
  | .int n => .ok n
  | .float x =>
    match Binary64.view x with
    | .infinite _ => .error .infinite
    | _ =>
      match Binary64.toInt? x with
      | some n => .ok n
      | none => .error (.rejected (.notInteger v))
  | .text s =>
    match Numeral.int? 10 (CodeText.display s).toList with
    | some n => .ok n
    | none => .error (.rejected (.notInteger v))
  | _ => .error (.rejected (.notInteger v))

/-- The result of a check, or the reason why an entry is rejected. -/
def orReject (found : Option α) (reason : Rejection) : Except EntryError α :=
  match found with
  | some a => .ok a
  | none => .error (.rejected reason)

/-- Whether an entry of the option `name` looks at its value as a text. For directories only the
items of a list are texts, and a whole number of workers is a text only in the complaint about
it. -/
def looksAtText (name : Key) (value : SettingValue) : Bool :=
  match name, value with
  | .includeDirectories, .list _ => true
  | .includeDirectories, _ => false
  | .maxWorkers, .int n => n < 1
  | _, _ => true

/-- The settings changed by one entry that can be shown. -/
def setShowable (s : Settings) (key value : SettingValue) : Except EntryError Settings :=
  let name := key.plain
  match keySpellings.lookup name with
  | none => .error (.rejected (.unknownKey key))
  | some .preferStringType => do
    return { s with preferStringType := ← orReject (bool? value) (.notBoolean name value) }
  | some .followIncludes => do
    return { s with followIncludes := ← orReject (bool? value) (.notBoolean name value) }
  | some .classConstantStyle => do
    let style ← orReject (alternative? ClassConstantStyle.spellings
      ClassConstantStyle.compactSpellings value) (.unknownStyle value)
    return { s with classConstantStyle := style }
  | some .functionNaming => do
    let naming ← orReject (alternative? FunctionNaming.spellings
      FunctionNaming.compactSpellings value) (.unknownNaming value)
    return { s with functionNaming := naming }
  | some .minimumTier => do
    return { s with minimumTier := ← orReject (SafetyTier.parse? value.plain) (.unknownTier value) }
  | some .includeDirectories => do
    return { s with includeDirectories := ← orReject (directories? value) .notDirectories }
  | some .companionSuffix =>
    let suffix := trimmed value.plain
    if suffix.toList.head? = some '.' then .ok { s with companionSuffix := suffix }
    else .error (.rejected (.badSuffix value))
  | some .maxWorkers => do
    let n ← workers value
    if n < 1 then .error (.rejected (.tooFewWorkers n)) else .ok { s with maxWorkers := n }

/-- The settings changed by one entry. -/
def set (s : Settings) (key value : SettingValue) : Except EntryError Settings :=
  let looksAt := (keySpellings.lookup key.plain).any fun name => looksAtText name value
  if !key.isShowable || (looksAt && !value.isShowable) then .error .unshowable
  else s.setShowable key value

/-- The settings changed by entries, and the rejections in their order. When reading strictly the
first rejection is an error. -/
def read (strict : Bool) (s : Settings) :
    List (SettingValue × SettingValue) → List Rejection × Except EntryError Settings
  | [] => ([], .ok s)
  | (key, value) :: entries =>
    match s.set key value with
    | .ok s => read strict s entries
    | .error (.rejected reason) =>
      if strict then ([], .error (.rejected reason))
      else
        let (reasons, result) := read strict s entries
        (reason :: reasons, result)
    | .error e => ([], .error e)

end Settings

end Demacro
