import Demacro.Fault
import Demacro.Path
import Demacro.Settings
import Demacro.Settings.Json
import Demacro.Settings.Yaml
import Demacro.Text

/-!
Loading of settings: from a file, then from the environment, which wins. Reading leniently, a file
that cannot be used counts as empty and is reported; reading strictly, it is an error.
-/

namespace Demacro.Settings

/-- Why a settings file gives no entries. -/
inductive FileFault where
  | missing (path : String)
  | malformed (path : String)
  | notTable (typeName : String)

/-- A fault in words. -/
def FileFault.message : FileFault → String
  | missing path => "Engine config file not found: " ++ path
  | malformed path => "Failed to parse engine config at " ++ path
  | notTable typeName => "Unexpected engine config payload type: " ++ typeName

/-- What is reported when reading leniently. -/
inductive Notice where
  | fileIgnored (fault : FileFault)
  | entryIgnored (reason : Rejection)

/-- A notice in words. -/
def Notice.message : Notice → String
  | fileIgnored fault => fault.message ++ "; continuing with defaults"
  | entryIgnored reason => reason.message ++ "; using default"

/-- Why settings cannot be loaded. -/
inductive LoadError where
  | unreadable (fault : AccessFault)
  | undecodable
  /-- The file is well formed, but a value in it cannot be made. -/
  | impossible (fault : ValueFault)
  | refused (fault : FileFault)
  | entry (error : EntryError)

/-- The settings changed by entries, with a notice for each entry that is left out. -/
def readNoting (strict : Bool) (s : Settings) (entries : List (SettingValue × SettingValue)) :
    List Notice × Except EntryError Settings :=
  let (reasons, result) := read strict s entries
  (reasons.map .entryIgnored, result)

/-- The characters of a text with every end of a line written as one line feed. -/
def unifyLines : List Char → List Char
  | '\r' :: '\n' :: cs => '\n' :: unifyLines cs
  | '\r' :: cs => '\n' :: unifyLines cs
  | c :: cs => c :: unifyLines cs
  | [] => []

/-- The value that the text of a file holds. Files are in YAML unless their names end in `.json`. -/
def parseFile (path : String) (text : List Char) : Except ValueFault SettingValue :=
  let s := String.ofList (unifyLines text)
  if Unicode.toLower (Path.extension path) = ".json" then Json.parse s else Yaml.parse s

/-- The entries that a settings file holds. -/
def fileEntries (strict : Bool) (load : String → Except AccessFault (List UInt8)) (path : String) :
    List Notice × Except LoadError (List (SettingValue × SettingValue)) :=
  let place := Path.compact path
  let refuse (fault : FileFault) :
      List Notice × Except LoadError (List (SettingValue × SettingValue)) :=
    if strict then ([], .error (.refused fault)) else ([.fileIgnored fault], .ok [])
  match load place with
  | .error .notFound => refuse (.missing path)
  | .error fault => ([], .error (.unreadable fault))
  | .ok data =>
    match Text.chars? (Text.decode data) with
    | none => ([], .error .undecodable)
    | some text =>
      match parseFile place text with
      | .error .malformed => refuse (.malformed path)
      | .error fault => ([], .error (.impossible fault))
      | .ok .null => ([], .ok [])
      | .ok (.table entries) => ([], .ok entries)
      | .ok v => refuse (.notTable v.typeName)

/-- What the names of environment variables that hold options begin with. -/
def variablePrefix : String := "CXXMACRO_"

/-- The entries that the environment holds. The name of an option is what follows the beginning of a
variable's name, in small letters. -/
def ofEnvironment (environment : List (String × String)) : List (SettingValue × SettingValue) :=
  let named := SettingValue.ofEntries
    (environment.map fun (name, value) => (.text name, .text value))
  SettingValue.ofEntries <| named.filterMap fun (name, value) =>
    let cs := name.plain.toList
    let start := variablePrefix.toList
    if start.isPrefixOf cs && start.length < cs.length then
      some (.text (Unicode.toLower (String.ofList (cs.drop start.length))), value)
    else none

/-- Whether settings are read strictly, as the value of an environment variable says. -/
def strictByVariable (value : Option String) : Bool :=
  value.any fun v => ["1", "true", "yes", "on"].contains (Unicode.toLower (trimmed v))

/-- The settings that a file, if there is one, and then further entries lead to. -/
def load (strict : Bool) (read : String → Except AccessFault (List UInt8)) (path : Option String)
    (overrides : List (SettingValue × SettingValue)) : List Notice × Except LoadError Settings :=
  let (ignored, entries) := path.elim ([], .ok []) (fileEntries strict read)
  match entries with
  | .error e => (ignored, .error e)
  | .ok entries =>
    let (left, base) := readNoting strict {} entries
    match base with
    | .error e => (ignored ++ left, .error (.entry e))
    | .ok base =>
      let (last, result) := readNoting strict base overrides
      (ignored ++ left ++ last, result.mapError .entry)

end Demacro.Settings
