import Demacro.Constant.Folding
import Demacro.Proofs.Constant.Characters
import Mathlib.Data.List.Basic

/-!
The meaning of integral constant expressions in the language: which type an expression has, and
which value. An expression without a meaning has no value; the rules are the strictest ones of all
editions. Types and values are unique (`HasType.unique`, `HasValue.unique`), and a value is one of
its type (`HasValue.holds`). In casts every name that the language has for an integer type is known,
with the words in whatever order (`IsTypeName.ofWords`).
-/

namespace Demacro.Constant

/-- The integer types by the keywords that name them. -/
def typeNames : List (List String × IntegerType) :=
  [(["bool"], .bool), (["char"], .char), (["signed", "char"], .signedChar),
    (["unsigned", "char"], .unsignedChar), (["char8_t"], .char8), (["char16_t"], .char16),
    (["char32_t"], .char32), (["wchar_t"], .wchar),
    (["short"], .short), (["short", "int"], .short), (["signed", "short"], .short),
    (["signed", "short", "int"], .short), (["unsigned", "short"], .unsignedShort),
    (["unsigned", "short", "int"], .unsignedShort),
    (["int"], .int), (["signed"], .int), (["signed", "int"], .int),
    (["unsigned"], .unsignedInt), (["unsigned", "int"], .unsignedInt),
    (["long"], .long), (["long", "int"], .long), (["signed", "long"], .long),
    (["signed", "long", "int"], .long), (["unsigned", "long"], .unsignedLong),
    (["unsigned", "long", "int"], .unsignedLong),
    (["long", "long"], .longLong), (["long", "long", "int"], .longLong),
    (["signed", "long", "long"], .longLong), (["signed", "long", "long", "int"], .longLong),
    (["unsigned", "long", "long"], .unsignedLongLong),
    (["unsigned", "long", "long", "int"], .unsignedLongLong)]

/-- The words of the text, in whatever order, name the type; qualifiers may stand among them. -/
inductive IsTypeName (type : Text) (t : IntegerType) : Prop where
  | intro (hName : (words, t) ∈ typeNames)
      (hQualifiers : ∀ q ∈ qualifiers, q ∈ ["const", "volatile"])
      (hWords : (Unicode.runs (SourceChar.satisfies Unicode.isBlank) type).Perm
        ((words ++ qualifiers).map Text.ofString))

section

variable {type : Text} {t u : IntegerType}

theorem display_ofString (s : String) : Text.display (Text.ofString s) = s := by
  have hChars : (Text.ofString s).flatMap SourceChar.display = s.toList := by
    rw [Text.ofString, List.flatMap_map]
    exact List.flatMap_singleton' _
  rw [Text.display, hChars, String.ofList_toList]

/-- The words of a type but its qualifiers. -/
def typeParts (words : List Text) : List String :=
  (words.map Text.display).filter fun w => w != "const" && w != "volatile"

/-- A word that tells more than a size. -/
def isMainWord (w : String) : Bool :=
  !(w == "signed" || w == "unsigned" || w == "long" || w == "int")

theorem eq_of_perm_of_length_le {xs ys : List String} (hPerm : xs.Perm ys)
    (hLength : ys.length ≤ 1) : xs = ys := by
  cases ys with
  | nil => exact hPerm.eq_nil
  | cons y ys =>
      cases List.eq_nil_of_length_eq_zero (Nat.le_zero.mp (Nat.le_of_succ_le_succ hLength))
      exact List.perm_singleton.mp hPerm

/-- The order of the words does not matter if one of them at most is a main word. -/
theorem ofWords_perm {words others : List Text} {target : ArithmeticType}
    (hPerm : (typeParts words).Perm (typeParts others))
    (hMain : ((typeParts others).filter isMainWord).length ≤ 1)
    (h : ArithmeticType.ofWords others = .ok target) :
    ArithmeticType.ofWords words = .ok target := by
  have hAny := hPerm.any_eq (f := fun w => w == "*" || w == "&")
  have hSigned : (typeParts words).contains "signed" = (typeParts others).contains "signed" :=
    hPerm.contains_eq
  have hUnsigned : (typeParts words).contains "unsigned" = (typeParts others).contains "unsigned" :=
    hPerm.contains_eq
  have hLongs := hPerm.count_eq "long"
  have hRest := eq_of_perm_of_length_le (hPerm.filter isMainWord) hMain
  unfold typeParts at hAny hSigned hUnsigned hLongs hRest
  unfold isMainWord at hRest
  unfold ArithmeticType.ofWords at h ⊢
  simp only [hAny, hSigned, hUnsigned, hLongs, hRest]
  simp only at h
  split at h
  · cases h
  rw [if_neg ‹_›]
  revert h
  split
  · exact id
  · exact id
  · exact id
  · exact id
  · split
    · exact id
    · rintro ⟨⟩
  · rintro ⟨⟩

theorem ofWords_typeNames : ∀ x ∈ typeNames,
    ArithmeticType.ofWords (x.1.map Text.ofString) = .ok (.integer x.2) := by
  decide

theorem typeParts_typeNames : ∀ x ∈ typeNames, typeParts (x.1.map Text.ofString) = x.1
    ∧ (x.1.filter isMainWord).length ≤ 1 := by
  decide

/-- The program knows all names of integer types. -/
theorem IsTypeName.ofWords (h : IsTypeName type t) :
    ArithmeticType.ofWords (Unicode.runs (SourceChar.satisfies Unicode.isBlank) type)
    = .ok (.integer t) := by
  obtain ⟨hName, hQualifiers, hWords⟩ := h
  rename_i words qualifiers
  obtain ⟨hParts, hMain⟩ := typeParts_typeNames _ hName
  have hDropped : typeParts (qualifiers.map Text.ofString) = [] := by
    rw [typeParts, List.filter_eq_nil_iff]
    simp only [List.mem_map, exists_exists_and_eq_and, display_ofString]
    rintro _ ⟨q, hq, rfl⟩
    have hQualifier := hQualifiers q hq
    simp only [List.mem_cons, List.not_mem_nil, or_false] at hQualifier
    rcases hQualifier with rfl | rfl <;> decide
  have hPerm : (typeParts (Unicode.runs (SourceChar.satisfies Unicode.isBlank) type)).Perm
      (typeParts (words.map Text.ofString)) := by
    have hBoth : typeParts ((words ++ qualifiers).map Text.ofString) = typeParts
        (words.map Text.ofString) := by
      rw [List.map_append, typeParts, List.map_append, List.filter_append]
      exact (congrArg _ hDropped).trans (List.append_nil _)
    rw [← hBoth]
    exact (hWords.map _).filter _
  exact ofWords_perm hPerm (by rwa [hParts]) (ofWords_typeNames _ hName)

theorem IsTypeName.unique (h : IsTypeName type t) (h' : IsTypeName type u) : t = u := by
  have hSame := h.ofWords.symm.trans h'.ofWords
  cases hSame
  rfl

end

/-- The operators whose operands meet in a common type, which is that of the result. -/
def arithmeticOperators : List BinaryOp :=
  [.mul, .div, .mod, .add, .sub, .bitAnd, .bitXor, .bitOr]

/-- What a comparison says of two numbers. -/
def comparison? : BinaryOp → Option (Int → Int → Bool)
  | .less => some fun a b => a < b
  | .lessEqual => some fun a b => a ≤ b
  | .greater => some fun a b => b < a
  | .greaterEqual => some fun a b => b ≤ a
  | .equal => some fun a b => a = b
  | .notEqual => some fun a b => a ≠ b
  | _ => none

/-- The types and the values of names. -/
abbrev Names := String → Option (IntegerType × Int)

/-- The value of every name is one of its type. -/
def Names.InRange (names : Names) : Prop :=
  ∀ text t n, names text = some (t, n) → t.Holds n

/-- The type of an expression. -/
inductive HasType (names : Names) : Expr → IntegerType → Prop where
  | integer {l : Literal.IntegerLiteral} (hKind : token.kind = .number)
      (hLiteral : l.IsWritten token.lexeme)
      (hType : l.type? = some t) : HasType names (.literal r [token]) t
  | character (hKind : token.kind = .char) (hLiteral : Literal.IsCharacter t code token.lexeme) :
      HasType names (.literal r [token]) t
  | truth (hText : text ∈ ["true", "false"]) : HasType names (.name r text) .bool
  | name (hText : text ∉ ["true", "false"]) (hName : names text = some (t, n)) :
      HasType names (.name r text) t.denoted
  | paren (h : HasType names e t) : HasType names (.paren r e) t
  | unary (hOp : op ∈ [.plus, .minus, .complement]) (h : HasType names e t) :
      HasType names (.unary r op e) t.promoted
  | not (h : HasType names e t) : HasType names (.unary r .not e) .bool
  | cast (hName : IsTypeName type t) (h : HasType names e u) : HasType names (.cast r type e) t
  | arithmetic (hOp : op ∈ arithmeticOperators) (hLeft : HasType names left t)
      (hRight : HasType names right u) (hMeet : t.Meets u s) :
      HasType names (.binary r op left right) s
  | shift (hOp : op ∈ [.shiftLeft, .shiftRight]) (hLeft : HasType names left t)
      (hRight : HasType names right u) : HasType names (.binary r op left right) t.promoted
  | comparison (hOp : comparison? op = some holds) (hLeft : HasType names left t)
      (hRight : HasType names right u) : HasType names (.binary r op left right) .bool
  | logical (hOp : op ∈ [.and, .or]) (hLeft : HasType names left t)
      (hRight : HasType names right u) : HasType names (.binary r op left right) .bool
  | same (hCondition : HasType names condition t) (hTrue : HasType names whenTrue u)
      (hFalse : HasType names whenFalse u) :
      HasType names (.conditional r condition whenTrue whenFalse) u
  | different (hCondition : HasType names condition t) (hTrue : HasType names whenTrue u)
      (hFalse : HasType names whenFalse v) (hDifferent : u ≠ v) (hMeet : u.Meets v s) :
      HasType names (.conditional r condition whenTrue whenFalse) s

/-- The value of an operation on two values of a type. Division cuts the fraction off, and a
remainder has a value only if the quotient has one. The bits of a value are those of two's
complement. -/
inductive Operates (t : IntegerType) (a b : Int) : BinaryOp → Int → Prop where
  | add (h : t.Computes (a + b) n) : Operates t a b .add n
  | sub (h : t.Computes (a - b) n) : Operates t a b .sub n
  | mul (h : t.Computes (a * b) n) : Operates t a b .mul n
  | div (hDivisor : b ≠ 0) (h : t.Computes (a.tdiv b) n) : Operates t a b .div n
  | mod (hDivisor : b ≠ 0) (hQuotient : t.Holds (a.tdiv b)) : Operates t a b .mod (a.tmod b)
  | bitAnd (h : t.Holds n)
      (hBits : BitVec.ofInt t.bits n = BitVec.ofInt t.bits a &&& BitVec.ofInt t.bits b) :
      Operates t a b .bitAnd n
  | bitOr (h : t.Holds n)
      (hBits : BitVec.ofInt t.bits n = BitVec.ofInt t.bits a ||| BitVec.ofInt t.bits b) :
      Operates t a b .bitOr n
  | bitXor (h : t.Holds n)
      (hBits : BitVec.ofInt t.bits n = BitVec.ofInt t.bits a ^^^ BitVec.ofInt t.bits b) :
      Operates t a b .bitXor n

/-- The value of an expression. -/
inductive HasValue (names : Names) : Expr → Int → Prop where
  | integer {l : Literal.IntegerLiteral} (hKind : token.kind = .number)
      (hLiteral : l.IsWritten token.lexeme) : HasValue names (.literal r [token]) l.number
  | character (hKind : token.kind = .char) (hLiteral : Literal.IsCharacter t code token.lexeme)
      (hValue : Literal.CharacterValue t code n) : HasValue names (.literal r [token]) n
  | truth (hText : text ∈ ["true", "false"]) :
      HasValue names (.name r text) (ofBool (text == "true"))
  | name (hText : text ∉ ["true", "false"]) (hName : names text = some (t, n)) :
      HasValue names (.name r text) n
  | paren (h : HasValue names e n) : HasValue names (.paren r e) n
  | plus (hType : HasType names e t) (h : HasValue names e n) (hResult : t.promoted.Computes n m) :
      HasValue names (.unary r .plus e) m
  | minus (hType : HasType names e t) (h : HasValue names e n)
      (hResult : t.promoted.Computes (-n) m) : HasValue names (.unary r .minus e) m
  | complement (hType : HasType names e t) (h : HasValue names e n)
      (hResult : t.promoted.Computes (-n - 1) m) : HasValue names (.unary r .complement e) m
  | not (h : HasValue names e n) : HasValue names (.unary r .not e) (ofBool (n == 0))
  | cast (hName : IsTypeName type t) (h : HasValue names e n) (hResult : t.Converts n m) :
      HasValue names (.cast r type e) m
  | arithmetic (hLeft : HasType names left t) (hRight : HasType names right u) (hMeet : t.Meets u s)
      (ha : HasValue names left a) (hb : HasValue names right b) (ha' : s.Converts a a')
      (hb' : s.Converts b b') (hResult : Operates s a' b' op n) :
      HasValue names (.binary r op left right) n
  | comparison (hOp : comparison? op = some holds) (hLeft : HasType names left t)
      (hRight : HasType names right u) (hMeet : t.Meets u s) (ha : HasValue names left a)
      (hb : HasValue names right b) (ha' : s.Converts a a') (hb' : s.Converts b b') :
      HasValue names (.binary r op left right) (ofBool (holds a' b'))
  | shiftLeft (hLeft : HasType names left t) (ha : HasValue names left a)
      (hb : HasValue names right b)
      (hCount : 0 ≤ b ∧ b < t.promoted.bits) (hNonneg : t.promoted.isSigned = true → 0 ≤ a)
      (hResult : t.promoted.Computes (a * 2 ^ b.toNat) n) :
      HasValue names (.binary r .shiftLeft left right) n
  | shiftRight (hLeft : HasType names left t) (ha : HasValue names left a)
      (hb : HasValue names right b) (hCount : 0 ≤ b ∧ b < t.promoted.bits) :
      HasValue names (.binary r .shiftRight left right) (a / 2 ^ b.toNat)
  | andFalse (ha : HasValue names left 0) : HasValue names (.binary r .and left right) 0
  | andTrue (ha : HasValue names left a) (hTrue : a ≠ 0) (hb : HasValue names right b) :
      HasValue names (.binary r .and left right) (ofBool (b != 0))
  | orTrue (ha : HasValue names left a) (hTrue : a ≠ 0) :
      HasValue names (.binary r .or left right) 1
  | orFalse (ha : HasValue names left 0) (hb : HasValue names right b) :
      HasValue names (.binary r .or left right) (ofBool (b != 0))
  | whenTrue (hType : HasType names (.conditional r condition whenTrue whenFalse) s)
      (hCondition : HasValue names condition k) (hTest : k ≠ 0) (h : HasValue names whenTrue n)
      (hResult : s.Converts n m) : HasValue names (.conditional r condition whenTrue whenFalse) m
  | whenFalse (hType : HasType names (.conditional r condition whenTrue whenFalse) s)
      (hCondition : HasValue names condition 0) (h : HasValue names whenFalse n)
      (hResult : s.Converts n m) : HasValue names (.conditional r condition whenTrue whenFalse) m

section

variable {names : Names} {e : Expr} {t u s : IntegerType} {a b m n : Int} {op : BinaryOp}

/-- A value is determined by its bits. -/
theorem eq_of_bits (hm : t.Holds m) (hn : t.Holds n)
    (h : BitVec.ofInt t.bits m = BitVec.ofInt t.bits n) : m = n := by
  apply hm.eq_of_dvd hn
  rw [← BitVec.toInt_inj, BitVec.toInt_ofInt, BitVec.toInt_ofInt] at h
  have hDvd := Int.dvd_of_bmod_eq_zero (Int.bmod_eq_bmod_iff_bmod_sub_eq_zero.mp h)
  simpa using hDvd

theorem Operates.unique (h : Operates t a b op m) (h' : Operates t a b op n) : m = n := by
  cases h <;> cases h'
  case mod => rfl
  case bitAnd h hBits h' hBits' => exact eq_of_bits h h' (hBits.trans hBits'.symm)
  case bitOr h hBits h' hBits' => exact eq_of_bits h h' (hBits.trans hBits'.symm)
  case bitXor h hBits h' hBits' => exact eq_of_bits h h' (hBits.trans hBits'.symm)
  all_goals exact IntegerType.Computes.unique ‹_› ‹_›

/-- What an arithmetic operator is not. -/
theorem of_mem_arithmeticOperators (h : op ∈ arithmeticOperators) :
    op ∉ [.shiftLeft, .shiftRight] ∧ comparison? op = none ∧ op ∉ [.and, .or] := by
  revert h
  cases op <;> decide

/-- What a shift is not. -/
theorem of_mem_shifts (h : op ∈ [BinaryOp.shiftLeft, .shiftRight]) :
    comparison? op = none ∧ op ∉ [.and, .or] := by
  revert h
  cases op <;> decide

/-- An operator that computes is an arithmetic one. -/
theorem Operates.mem (h : Operates t a b op n) : op ∈ arithmeticOperators := by
  cases h <;> decide

/-- An expression has one type. -/
theorem HasType.unique (h : HasType names e t) (h' : HasType names e u) : t = u := by
  induction h generalizing u with
  | integer hKind hLiteral hType =>
      cases h' with
      | integer _ hLiteral' hType' =>
          cases hLiteral.unique hLiteral'
          exact Option.some.inj (hType.symm.trans hType')
      | character hKind' => simp [hKind] at hKind'
  | character hKind hLiteral =>
      cases h' with
      | integer hKind' => simp [hKind] at hKind'
      | character _ hLiteral' => exact (hLiteral.unique hLiteral').1
  | truth hText =>
      cases h' with
      | truth => rfl
      | name hOther => exact absurd hText hOther
  | name hText hName =>
      cases h' with
      | truth hOther => exact absurd hOther hText
      | name _ hName' => rw [(Prod.mk.inj (Option.some.inj (hName.symm.trans hName'))).1]
  | paren _ ih =>
      cases h' with
      | paren h' => exact ih h'
  | unary hOp _ ih =>
      cases h' with
      | unary _ h' => rw [ih h']
      | not => simp at hOp
  | not _ ih =>
      cases h' with
      | unary hOp => simp at hOp
      | not => rfl
  | cast hName _ ih =>
      cases h' with
      | cast hName' => exact hName.unique hName'
  | arithmetic hOp _ _ hMeet ihLeft ihRight =>
      obtain ⟨hShift, hComparison, hLogical⟩ := of_mem_arithmeticOperators hOp
      cases h' with
      | arithmetic _ hLeft' hRight' hMeet' =>
          cases ihLeft hLeft'
          cases ihRight hRight'
          exact hMeet.unique hMeet'
      | shift hOp' => exact absurd hOp' hShift
      | comparison hOp' => simp [hComparison] at hOp'
      | logical hOp' => exact absurd hOp' hLogical
  | shift hOp _ _ ihLeft =>
      obtain ⟨hComparison, hLogical⟩ := of_mem_shifts hOp
      cases h' with
      | arithmetic hOp' => exact absurd hOp (of_mem_arithmeticOperators hOp').1
      | shift _ hLeft' => rw [ihLeft hLeft']
      | comparison hOp' => simp [hComparison] at hOp'
      | logical hOp' => exact absurd hOp' hLogical
  | comparison hOp =>
      cases h' with
      | arithmetic hOp' => simp [(of_mem_arithmeticOperators hOp').2.1] at hOp
      | shift hOp' => simp [(of_mem_shifts hOp').1] at hOp
      | comparison => rfl
      | logical => rfl
  | logical hOp =>
      cases h' with
      | arithmetic hOp' => exact absurd hOp (of_mem_arithmeticOperators hOp').2.2
      | shift hOp' => exact absurd hOp (of_mem_shifts hOp').2
      | comparison => rfl
      | logical => rfl
  | same _ _ _ _ ihTrue ihFalse =>
      cases h' with
      | same _ hTrue' => exact ihTrue hTrue'
      | different _ hTrue' hFalse' hDifferent =>
          exact absurd ((ihTrue hTrue').symm.trans (ihFalse hFalse')) hDifferent
  | different _ _ _ hDifferent hMeet _ ihTrue ihFalse =>
      cases h' with
      | same _ hTrue' hFalse' =>
          exact absurd ((ihTrue hTrue').trans (ihFalse hFalse').symm) hDifferent
      | different _ hTrue' hFalse' _ hMeet' =>
          cases ihTrue hTrue'
          cases ihFalse hFalse'
          exact hMeet.unique hMeet'

/-- An expression has one value. -/
theorem HasValue.unique (h : HasValue names e m) (h' : HasValue names e n) : m = n := by
  induction h generalizing n with
  | integer hKind hLiteral =>
      cases h' with
      | integer _ hLiteral' => rw [hLiteral.unique hLiteral']
      | character hKind' => simp [hKind] at hKind'
  | character hKind hLiteral hValue =>
      cases h' with
      | integer hKind' => simp [hKind] at hKind'
      | character _ hLiteral' hValue' =>
          obtain ⟨rfl, rfl⟩ := hLiteral.unique hLiteral'
          exact hValue.unique hValue'
  | truth hText =>
      cases h' with
      | truth => rfl
      | name hText' => exact absurd hText hText'
  | name hText hName =>
      cases h' with
      | truth hText' => exact absurd hText' hText
      | name _ hName' => exact (Prod.mk.inj (Option.some.inj (hName.symm.trans hName'))).2
  | paren _ ih =>
      cases h' with
      | paren h' => exact ih h'
  | plus hType _ hResult ih =>
      cases h' with
      | plus hType' h' hResult' =>
          cases hType.unique hType'
          cases ih h'
          exact hResult.unique hResult'
  | minus hType _ hResult ih =>
      cases h' with
      | minus hType' h' hResult' =>
          cases hType.unique hType'
          cases ih h'
          exact hResult.unique hResult'
  | complement hType _ hResult ih =>
      cases h' with
      | complement hType' h' hResult' =>
          cases hType.unique hType'
          cases ih h'
          exact hResult.unique hResult'
  | not _ ih =>
      cases h' with
      | not h' => rw [ih h']
  | cast hName _ hResult ih =>
      cases h' with
      | cast hName' h' hResult' =>
          cases hName.unique hName'
          cases ih h'
          exact hResult.unique hResult'
  | arithmetic hLeft hRight hMeet _ _ ha hb hResult ihLeft ihRight =>
      cases h' with
      | arithmetic hLeft' hRight' hMeet' hLeftValue hRightValue ha' hb' hResult' =>
          cases hLeft.unique hLeft'
          cases hRight.unique hRight'
          cases hMeet.unique hMeet'
          cases ihLeft hLeftValue
          cases ihRight hRightValue
          cases ha.unique ha'
          cases hb.unique hb'
          exact hResult.unique hResult'
      | comparison hOp' => simp [(of_mem_arithmeticOperators hResult.mem).2.1] at hOp'
      | shiftLeft | shiftRight | andFalse | andTrue | orTrue | orFalse => cases hResult
  | comparison hOp hLeft hRight hMeet _ _ ha hb ihLeft ihRight =>
      cases h' with
      | arithmetic _ _ _ _ _ _ _ hResult' =>
          simp [(of_mem_arithmeticOperators hResult'.mem).2.1] at hOp
      | comparison hOp' hLeft' hRight' hMeet' hLeftValue hRightValue ha' hb' =>
          cases hOp.symm.trans hOp'
          cases hLeft.unique hLeft'
          cases hRight.unique hRight'
          cases hMeet.unique hMeet'
          cases ihLeft hLeftValue
          cases ihRight hRightValue
          cases ha.unique ha'
          cases hb.unique hb'
          rfl
      | shiftLeft | shiftRight | andFalse | andTrue | orTrue | orFalse => cases hOp
  | shiftLeft hLeft _ _ _ _ hResult ihLeft ihRight =>
      cases h' with
      | arithmetic _ _ _ _ _ _ _ hResult' => cases hResult'
      | comparison hOp' => cases hOp'
      | shiftLeft hLeft' hLeftValue hRightValue _ _ hResult' =>
          cases hLeft.unique hLeft'
          cases ihLeft hLeftValue
          cases ihRight hRightValue
          exact hResult.unique hResult'
  | shiftRight _ _ _ _ ihLeft ihRight =>
      cases h' with
      | arithmetic _ _ _ _ _ _ _ hResult' => cases hResult'
      | comparison hOp' => cases hOp'
      | shiftRight _ hLeftValue hRightValue => rw [ihLeft hLeftValue, ihRight hRightValue]
  | andFalse _ ih =>
      cases h' with
      | arithmetic _ _ _ _ _ _ _ hResult' => cases hResult'
      | comparison hOp' => cases hOp'
      | andFalse => rfl
      | andTrue hLeftValue hTrue => exact absurd (ih hLeftValue).symm hTrue
  | andTrue _ hTrue _ ihLeft ihRight =>
      cases h' with
      | arithmetic _ _ _ _ _ _ _ hResult' => cases hResult'
      | comparison hOp' => cases hOp'
      | andFalse hLeftValue => exact absurd (ihLeft hLeftValue) hTrue
      | andTrue _ _ hRightValue => rw [ihRight hRightValue]
  | orTrue _ hTrue ih =>
      cases h' with
      | arithmetic _ _ _ _ _ _ _ hResult' => cases hResult'
      | comparison hOp' => cases hOp'
      | orTrue => rfl
      | orFalse hLeftValue => exact absurd (ih hLeftValue) hTrue
  | orFalse _ _ ihLeft ihRight =>
      cases h' with
      | arithmetic _ _ _ _ _ _ _ hResult' => cases hResult'
      | comparison hOp' => cases hOp'
      | orTrue hLeftValue hTrue => exact absurd (ihLeft hLeftValue).symm hTrue
      | orFalse _ hRightValue => rw [ihRight hRightValue]
  | whenTrue hType _ hTest _ hResult ihCondition ih =>
      cases h' with
      | whenTrue hType' _ _ h' hResult' =>
          cases hType.unique hType'
          cases ih h'
          exact hResult.unique hResult'
      | whenFalse _ hCondition' => exact absurd (ihCondition hCondition') hTest
  | whenFalse hType _ _ hResult ihCondition ih =>
      cases h' with
      | whenTrue _ hCondition' hTest => exact absurd (ihCondition hCondition').symm hTest
      | whenFalse hType' _ h' hResult' =>
          cases hType.unique hType'
          cases ih h'
          exact hResult.unique hResult'

theorem holds_ofBool (b : Bool) : IntegerType.bool.Holds (ofBool b) := by
  cases b <;> decide

/-- Logical operators give truth values, whatever their operands are. -/
theorem HasType.eq_bool (hOp : op ∈ [.and, .or]) (h : HasType names (.binary r op left right) t) :
    t = .bool := by
  cases h with
  | arithmetic hOp' => exact absurd hOp (of_mem_arithmeticOperators hOp').2.2
  | shift hOp' => exact absurd hOp (of_mem_shifts hOp').2
  | comparison | logical => rfl

/-- The right operand of a shift does not count for its type. -/
theorem HasType.eq_promoted (hOp : op ∈ [.shiftLeft, .shiftRight])
    (h : HasType names (.binary r op left right) t) (hLeft : HasType names left u) :
    t = u.promoted := by
  cases h with
  | arithmetic hOp' => exact absurd hOp (of_mem_arithmeticOperators hOp').1
  | shift _ hLeft' => rw [hLeft'.unique hLeft]
  | comparison hOp' => simp [(of_mem_shifts hOp).1] at hOp'
  | logical hOp' => exact absurd hOp' (of_mem_shifts hOp).2

/-- A literal has a type that holds its number. -/
theorem holds_number {l : Literal.IntegerLiteral} (h : l.type? = some t) : t.Holds l.number := by
  have hHolds := List.find?_some h
  exact of_decide_eq_true hHolds

/-- What is written as one code unit fits into the type of the literal. -/
theorem holds_character {code : Literal.CharacterCode} {lexeme : Text}
    (hLiteral : Literal.IsCharacter t code lexeme) (hValue : Literal.CharacterValue t code n) :
    t.Holds n := by
  obtain ⟨hType, -⟩ := hLiteral
  cases hValue with
  | encoded _ hUnit =>
      have hLimit : ∀ x ∈ Literal.characterTypes, x.2.Holds 0 ∧ (Literal.unitLimit x.2 : Int)
          - 1 ≤ x.2.greatest := by
        decide
      obtain ⟨hZero, hGreatest⟩ := hLimit _ hType
      refine ⟨hZero.1.trans (Int.natCast_nonneg _), ?_⟩
      dsimp only at hGreatest
      omega
  | unit _ hConverts => exact hConverts.holds

theorem holds_zero (t : IntegerType) : t.Holds 0 := by
  cases t <;> decide

/-- A remainder lies between zero and the dividend. -/
theorem holds_tmod (h : t.Holds a) (b : Int) : t.Holds (a.tmod b) := by
  obtain ⟨hLeast, hGreatest⟩ := h
  obtain ⟨hZero, hZero'⟩ := holds_zero t
  have hSize : (a.tmod b).natAbs ≤ a.natAbs := by
    rw [Int.natAbs_tmod]
    exact Nat.mod_le _ _
  rcases Int.le_total 0 a with hSign | hSign
  · have hNonneg := Int.tmod_nonneg b hSign
    exact ⟨hZero.trans hNonneg, by omega⟩
  · have hNonneg := Int.tmod_nonneg b (Int.neg_nonneg_of_nonpos hSign)
    rw [Int.neg_tmod] at hNonneg
    exact ⟨by omega, by omega⟩

theorem Operates.holds (ha : t.Holds a) (h : Operates t a b op n) : t.Holds n := by
  cases h with
  | add h | sub h | mul h | div _ h => exact h.1
  | mod => exact holds_tmod ha _
  | bitAnd h | bitOr h | bitXor h => exact h

/-- Shifting to the right leads towards zero or towards minus one. -/
theorem holds_shiftRight (h : t.Holds a) (k : Nat) : t.Holds (a / 2 ^ k) := by
  obtain ⟨hLeast, hGreatest⟩ := h
  obtain ⟨hZero, hZero'⟩ := holds_zero t
  have hPower : (0 : Int) < 2 ^ k := Int.pow_pos (by decide)
  rcases Int.lt_or_le a 0 with hSign | hSign
  · have hNegative := Int.ediv_neg_of_neg_of_pos hSign hPower
    have hTowards : a ≤ a / 2 ^ k := by
      apply Int.le_ediv_of_mul_le hPower
      have hMore := Int.mul_le_mul_of_nonpos_left hSign.le (Int.add_one_le_iff.mpr hPower)
      omega
    exact ⟨hLeast.trans hTowards, by omega⟩
  · have hNonneg := Int.ediv_nonneg hSign hPower.le
    have hTowards := Int.ediv_le_self (2 ^ k) hSign
    exact ⟨hZero.trans hNonneg, hTowards.trans hGreatest⟩

/-- A value is one of its type, if this is so for names. -/
theorem HasValue.holds (hNames : names.InRange)
    (h : HasValue names e n) (hType : HasType names e t) : t.Holds n := by
  induction h generalizing t with
  | integer hKind hLiteral =>
      cases hType with
      | integer _ hLiteral' hType =>
          rw [hLiteral.unique hLiteral']
          exact holds_number hType
      | character hKind' => simp [hKind] at hKind'
  | character hKind hLiteral hValue =>
      rw [hType.unique (.character hKind hLiteral)]
      exact holds_character hLiteral hValue
  | truth hText =>
      rw [hType.unique (.truth hText)]
      exact holds_ofBool _
  | name hText hName =>
      rw [hType.unique (.name hText hName), IntegerType.holds_denoted]
      exact hNames _ _ _ hName
  | paren _ ih =>
      cases hType with
      | paren hType => exact ih hType
  | plus hInner _ hResult =>
      rw [hType.unique (.unary (by decide) hInner)]
      exact hResult.1
  | minus hInner _ hResult =>
      rw [hType.unique (.unary (by decide) hInner)]
      exact hResult.1
  | complement hInner _ hResult =>
      rw [hType.unique (.unary (by decide) hInner)]
      exact hResult.1
  | not =>
      cases hType with
      | unary hOp => simp at hOp
      | not => exact holds_ofBool _
  | cast hName _ hResult =>
      cases hType with
      | cast hName' =>
          rw [hName'.unique hName]
          exact hResult.holds
  | arithmetic hLeft hRight hMeet _ _ ha _ hResult =>
      rw [hType.unique (.arithmetic hResult.mem hLeft hRight hMeet)]
      exact hResult.holds ha.holds
  | comparison hOp hLeft hRight =>
      rw [hType.unique (.comparison hOp hLeft hRight)]
      exact holds_ofBool _
  | shiftLeft hLeft _ _ _ _ hResult =>
      rw [hType.eq_promoted (by decide) hLeft]
      exact hResult.1
  | shiftRight hLeft _ _ _ ih =>
      rw [hType.eq_promoted (by decide) hLeft]
      exact holds_shiftRight (ih hLeft).promoted _
  | andFalse =>
      rw [hType.eq_bool (by decide)]
      exact holds_ofBool false
  | orTrue =>
      rw [hType.eq_bool (by decide)]
      exact holds_ofBool true
  | andTrue | orFalse =>
      rw [hType.eq_bool (by decide)]
      exact holds_ofBool _
  | whenTrue hType' _ _ _ hResult | whenFalse hType' _ _ hResult =>
      rw [hType.unique hType']
      exact hResult.holds

end

end Demacro.Constant
