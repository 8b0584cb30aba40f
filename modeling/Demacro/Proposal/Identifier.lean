import Demacro.Digest.Sha1
import Demacro.Numeral
import Demacro.QualifiedName
import Demacro.Text

/-!
Identifiers of proposals: the file, the macro, the pattern and the line of its definition. Units
that include the same header give the same identifier to the same proposal.
-/

namespace Demacro

/-- The definition that a proposal is about and the pattern that it follows. -/
structure ProposalId where
  path : String
  macroName : String
  pattern : String
  line : Nat
deriving DecidableEq

/-- What is wrong with the text of an identifier. -/
inductive ProposalIdFault where
  | tooFewParts (text : String)
  | badLine (text : String)
  /-- The line number has too many digits to be read. -/
  | longLine (digits : Nat)

namespace ProposalIdFault

/-- A fault in words. -/
def message : ProposalIdFault → String
  | tooFewParts text => "Malformed proposal id: " ++ text
  | badLine text => "Malformed proposal id line token: " ++ text
  | longLine digits => Numeral.tooLongMessage digits

end ProposalIdFault

namespace ProposalId

/-- The text of the identifier for a line given as an integer. -/
def textOf (path name pattern : String) (line : Int) : String :=
  String.ofList (QualifiedName.ofComponents
    [path.toList, name.toList, pattern.toList, 'L' :: (toString line).toList])

/-- The text of an identifier. -/
def text (id : ProposalId) : String :=
  textOf id.path id.macroName id.pattern id.line

/-- An ASCII digit. -/
def isDigit (c : Char) : Bool :=
  '0' ≤ c && c ≤ '9'

/-- The digits of a line number, which one line break may follow. -/
def lineDigits? : List Char → Option (List Char)
  | 'L' :: cs =>
    let digits := cs.takeWhile isDigit
    let rest := cs.dropWhile isDigit
    if digits.isEmpty then none
    else if rest = [] ∨ rest = ['\n'] then some digits
    else none
  | _ => none

/-- The identifier with the given text. The last three parts are the macro, the pattern and the
line; the path is all in front of them. -/
def parse (text : String) : Except ProposalIdFault ProposalId :=
  match (QualifiedName.components text.toList).reverse with
  | line :: pattern :: name :: p :: path =>
    match lineDigits? line with
    | none => .error (.badLine text)
    | some digits =>
      if Numeral.maxDigits < digits.length then .error (.longLine digits.length)
      else
        .ok {
          path := String.ofList (QualifiedName.ofComponents (p :: path).reverse)
          macroName := String.ofList name
          pattern := String.ofList pattern
          line := digits.foldl (fun n c => n * 10 + (c.toNat - 48)) 0 }
  | _ => .error (.tooFewParts text)

end ProposalId

/-- The text with one space for each run of white space, and none at the ends. -/
def collapseBlanks (text : String) : String :=
  String.ofList ([' '].intercalate (Unicode.words text.toList))

/-- A short digest of a text up to white space: between eight and forty hexadecimal digits. -/
def contentHash (text : String) (length : Int) : String :=
  let collapsed := collapseBlanks text
  let content := if collapsed.isEmpty then "<empty>" else collapsed
  let digits := (Sha1.digest content.toUTF8.toList).flatMap fun b =>
    [SourceChar.hexDigit (b.toNat / 16), SourceChar.hexDigit (b.toNat % 16)]
  "sha_" ++ String.ofList (digits.take (max 8 (min length 40)).toNat)

end Demacro
