import Demacro.Naming
import Demacro.Proposal
import Demacro.Settings

/-!
The declarations that take the place of macros. Which one serves depends on the pattern of the macro
and on what it was found to stand for; some macros turn out to have none.
-/

namespace Demacro

/-- Why a macro has no declaration. -/
inductive Undeclarable where
  | noConstant
  | unknownPointee
  | unknownClass
  | noType
  | unnamedClass
  | unknownClassEnd (className : String)
  | notIntegral
  | nameTaken (newName : String)
  | calledByMacros (newName : String) (macros : List String)
  | noExpression
  | noPattern

/-- A reason in words. -/
def Undeclarable.message : Undeclarable → String
  | noConstant => "no typed constant to declare"
  | unknownPointee => "pointee type of the pointer constant is unknown"
  | unknownClass => "class scope of the definition is unknown"
  | noType => "class constant has no declarable type"
  | unnamedClass => "an enclosing class is unnamed"
  | unknownClassEnd name => "cannot locate the end of class " ++ name
  | notIntegral => "enumerators must be integral"
  | nameTaken newName => "renamed function '" ++ newName ++ "' collides with an existing identifier"
  | calledByMacros newName macros =>
    "cannot rename to " ++ newName ++ ": called from the replacement list of macro "
      ++ ", ".intercalate (macros.map fun m => "'" ++ m ++ "'")
  | noExpression => "no single-expression body"
  | noPattern => "no synthesis for pattern Unclassified"

/-- A declaration and what comes with it. -/
structure Declaration where
  text : Text
  /-- The name that it declares. -/
  name : String
  notes : List String := []
  alternatives : List Text := []
  /-- The highest tier that the proposal can have. -/
  limit : SafetyTier := .high
  /-- The definition outside the class that the declaration needs. -/
  outside : Option Edit := none

/-- The declaration of a macro, or why there is none with the notes made so far. -/
abbrev Declared := Except (Undeclarable × List String) Declaration

namespace Declaration

/-- The text made of pieces. -/
def pieces (parts : List Text) : Text :=
  parts.flatten

/-- A constant declared where the macro was defined. -/
def ofSimple (name : String) : Option Payload → Declared
  | some (.constant type initializer _ _) =>
    .ok {
      name
      text := pieces ["const ", type, " ", name, " = ", initializer, ";"]
      notes :=
        if type = "std::size_t" then ["declaration type std::size_t requires <cstddef>"] else [] }
  | _ => .error (.noConstant, [])

/-- The type of a constant pointer to constant characters. -/
def pointerType (charType : String) : String :=
  "const " ++ charType ++ " * const"

/-- What a string object needs. -/
def stringNote (stringType : String) : String :=
  stringType ++ " requires #include <string>"

/-- A string declared where the macro was defined. -/
def ofPointer (settings : Settings) (name : String) : Option Payload → Declared
  | some (.pointer (some charType) initializer stringType) =>
    let asPointer := pieces [pointerType charType, " ", name, " = ", initializer, ";"]
    match stringType with
    | none => .ok { name, text := asPointer }
    | some type =>
      let asString := pieces ["const ", type, " ", name, "(", initializer, ");"]
      if settings.preferStringType then
        .ok {
          name
          text := asString
          alternatives := [asPointer]
          limit := .medium
          notes := [stringNote type,
            "use sites see a " ++ type ++ " instead of a " ++ charType ++ " array"] }
      else .ok { name, text := asPointer, alternatives := [asString] }
  | _ => .error (.unknownPointee, [])

/-- The type of a class member with its initializer, for a constant that a class cannot initialize
itself, and the notes and the limit that come with it. -/
def memberForm? (settings : Settings) :
    Option Payload → Option (String × Text × List String × SafetyTier)
  | some (.constant type initializer _ _) =>
    some ("const " ++ type, pieces [" = ", initializer], [], .high)
  | some (.pointer (some charType) initializer stringType) =>
    match stringType.filter fun _ => settings.preferStringType with
    | some type =>
      some ("const " ++ type, pieces ["(", initializer, ")"], [stringNote type], .medium)
    | none => some (pointerType charType, pieces [" = ", initializer], [], .high)
  | _ => none

/-- The definition outside the class of a member, with a note and a limit. In a header it goes to
the end of the companion file, for a header may be read by several units. -/
def outsideDefinition (settings : Settings) (id name path : String) (context : Context)
    (type : String) (initializer : Text) : Except Undeclarable (Edit × String × SafetyTier) :=
  let classes := context.frames.filter (·.kind == .classScope)
  let names := classes.filterMap Frame.name
  match classes with
  | [] => .error .unknownClass
  | outermost :: _ =>
    if names.length < classes.length then .error .unnamedClass
    else if isHeader path then
      let companion := Path.withoutSuffix path ++ settings.companionSuffix
      let qualified := "::".intercalate (context.scopePath ++ [name])
      .ok (⟨⟨companion, 0, 0⟩, pieces ["\n", type, " ", qualified, initializer, ";\n"], id,
        .append⟩, "out-of-class definition appended to " ++ companion, .medium)
    else
      let shown := outermost.name.getD "None"
      match outermost.statementEnd? with
      | none => .error (.unknownClassEnd shown)
      | some stop =>
        let qualified := "::".intercalate (names ++ [name])
        .ok (⟨⟨outermost.path, stop, stop⟩, pieces ["\n", type, " ", qualified, initializer, ";"],
          id,
            .replace⟩,
          "out-of-class definition placed after class " ++ shown, .high)

/-- A static member of the class that holds the macro. -/
def ofMember (settings : Settings) (id name path : String) (context : Option Context)
    (payload : Option Payload) : Declared :=
  match context.bind fun c => c.class?.map fun frame => (c, frame) with
  | none => .error (.unknownClass, [])
  | some (context, frame) =>
    let place := "declared in the " ++ frame.access?.elim "default" Access.name ++ " section of "
      ++ frame.name.getD "None"
    match payload with
    | some (.constant type initializer true _) =>
      .ok {
        name
        text := pieces ["static const ", type, " ", name, " = ", initializer, ";"]
        notes := [place]
        alternatives := [pieces ["static constexpr ", type, " ", name, " = ", initializer, ";"]] }
    | _ =>
      match memberForm? settings payload with
      | none => .error (.noType, [place])
      | some (type, initializer, notes, limit) =>
        match outsideDefinition settings id name path context type initializer with
        | .error why => .error (why, place :: notes)
        | .ok (outside, note, outsideLimit) =>
          .ok {
            name
            text := pieces ["static ", type, " ", name, ";"]
            notes := place :: notes ++ [note]
            alternatives := [pieces ["static inline ", type, " ", name, initializer, ";"]]
            limit := limit.lower outsideLimit
            outside := some outside }

/-- An enumerator in the class that holds the macro. -/
def ofEnumerator (name : String) : Option Payload → Declared
  | some (.constant type initializer integral _) =>
    if integral then
      .ok {
        name
        text := pieces ["enum \x7b ", name, " = ", initializer, " \x7d;"]
        alternatives := [pieces ["static const ", type, " ", name, " = ", initializer, ";"]]
        notes :=
          ["an in-class initialized static const is not accepted as a constant "
              ++ "expression by every compiler; the enum form always is"]
            ++ if ["int", "bool", "char", "short"].contains type then []
              else ["enumerator type is implementation-chosen; the constant was " ++ type] }
    else .error (.notIntegral, [])
  | _ => .error (.noConstant, [])

/-- The name of the function for a macro, and a note if it differs from that of the macro. A new
name must not be in use, and no other macro may call the function by its old one. -/
def functionName (settings : Settings) (identifiers : List String) (name : String)
    (referencedBy : List String) : Except Undeclarable (String × List String) :=
  let renamed := if settings.functionNaming = .camelCase then camelCase name else name
  if renamed = name then .ok (name, [])
  else if identifiers.contains renamed then .error (.nameTaken renamed)
  else if !referencedBy.isEmpty then .error (.calledByMacros renamed referencedBy)
  else .ok (renamed, ["renamed to " ++ renamed ++ "; every call site is edited"])

/-- The name of the type of a parameter. -/
def typeParameter (index : Nat) : String :=
  "T" ++ toString (index + 1)

/-- A parameter list: parameters that the body changes are taken by reference. -/
def parameterList (parameters mutated : List String) : String :=
  ", ".intercalate (parameters.zipIdx.map fun (p, i) =>
    if mutated.contains p then typeParameter i ++ "& " ++ p
    else "const " ++ typeParameter i ++ "& " ++ p)

/-- A function template with the name `newName`. -/
def ofFunction (newName : String) (notes : List String) (context : Option Context) :
    Option Payload → Declared
  | some (.function parameters body mutated free) =>
    let types :=
      ", ".intercalate (parameters.zipIdx.map fun (_, i) => "typename " ++ typeParameter i)
    let isMember := context.any fun c => c.class?.isSome
    .ok {
      name := newName
      text := pieces ["template<", types, "> ", if isMember then "static" else "inline", " auto ",
        newName, "(", parameterList parameters mutated, ") -> decltype(", body, ") \x7b return ",
        body, "; \x7d"]
      notes := notes
        ++ mutated.map (fun p => "parameter '" ++ p ++ "' is taken by non-const reference")
        ++ free.map fun n => "'" ++ n ++ "' now binds where the function is declared" }
  | _ => .error (.noExpression, notes)

/-- The declaration for a macro that is defined in the file `path`. `identifiers` are those in the
code of the unit and `id` is the identifier of the proposal. -/
def ofClassification (settings : Settings) (identifiers : List String) (id path : String)
    (c : Classification) : Declared :=
  match c.pattern with
  | .simpleConstant => ofSimple c.name c.payload
  | .pointerConstant => ofPointer settings c.name c.payload
  | .classScopedConstant => ofMember settings id c.name path c.context c.payload
  | .enumHackCandidate => ofEnumerator c.name c.payload
  | .functionLikeMacro =>
    match functionName settings identifiers c.name c.referencedBy with
    | .error why => .error (why, [])
    | .ok (newName, notes) => ofFunction newName notes c.context c.payload
  | .unclassified => .error (.noPattern, [])

end Declaration

end Demacro
