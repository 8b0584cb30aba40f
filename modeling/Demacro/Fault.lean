/-!
What makes a file unusable, and where: it may be out of reach, or its text may be no source text.
-/

namespace Demacro

/-- Why a file or a directory cannot be reached or made. -/
inductive AccessFault where
  | notFound
  | isDirectory
  | notDirectory
  /-- A file stands where a directory is to be made. -/
  | occupied
  | nameTooLong
  /-- The path holds the character that ends paths. -/
  | nullCharacter
deriving DecidableEq

namespace AccessFault

/-- The name of the kind of a fault. -/
def kind : AccessFault → String
  | notFound => "FileNotFoundError"
  | isDirectory => "IsADirectoryError"
  | notDirectory => "NotADirectoryError"
  | occupied => "FileExistsError"
  | nameTooLong => "OSError"
  | nullCharacter => "ValueError"

/-- A fault in words, where the path itself does not say it all. -/
def message? : AccessFault → Option String
  | nullCharacter => some "embedded null byte"
  | _ => none

/-- Whether the path itself is at fault, so that no file can have it. -/
def isPathFault (f : AccessFault) : Bool :=
  f == nullCharacter

end AccessFault

/-- What is wrong with the text of a source file. -/
inductive Fault where
  | unterminatedComment
  | unterminatedRawString
  | unclosedParameterList
  | missingLastParameter
  | parameterAfterEllipsis
  | duplicateParameter (name : String)
  | badParameter
  | missingParameterSeparator
  | missingName (keyword : String)
  | nameNotIdentifier
  | reservedName
  | missingCondition
  | unterminatedConditional (keyword : String)
  | withoutOpener (keyword : String)
  | afterElse (keyword : String)
  | tooDeep
deriving DecidableEq

/-- A fault in words. -/
def Fault.message : Fault → String
  | unterminatedComment => "unterminated /* comment"
  | unterminatedRawString => "unterminated raw string literal"
  | unclosedParameterList => "missing ')' in macro parameter list"
  | missingLastParameter => "expected parameter name before ')'"
  | parameterAfterEllipsis => "'...' must be the last macro parameter"
  | duplicateParameter name => "duplicate macro parameter '" ++ name ++ "'"
  | badParameter => "expected parameter name in macro parameter list"
  | missingParameterSeparator => "expected ',' or ')' in macro parameter list"
  | missingName keyword => "no macro name given in #" ++ keyword ++ " directive"
  | nameNotIdentifier => "macro names must be identifiers"
  | reservedName => "'defined' cannot be used as a macro name"
  | missingCondition => "#if with no expression"
  | unterminatedConditional keyword => "unterminated conditional directive #" ++ keyword
  | withoutOpener keyword => "#" ++ keyword ++ " without #if"
  | afterElse keyword => "#" ++ keyword ++ " after #else"
  | tooDeep => "#include nested too deeply"

/-- A fault and the place in a file where it was found. -/
structure ParseError where
  fault : Fault
  path : String
  line : Nat
  column : Nat
deriving DecidableEq

/-- The place, then the fault in words. -/
def ParseError.message (e : ParseError) : String :=
  e.path ++ ":" ++ toString e.line ++ ":" ++ toString e.column ++ ": " ++ e.fault.message

end Demacro
