import Demacro.QualifiedName

/-!
Declaration scopes. The scopes around a place in a file form a chain of frames, the outermost first.
A macro has no scope of its own; the one that it is given is the innermost scope around its
definition that names of declarations belong to.
-/

namespace Demacro

/-- Who may name a member of a class. -/
inductive Access where
  | publicMember
  | protectedMember
  | privateMember
deriving DecidableEq

namespace Access

/-- The keyword of an access level. -/
def name : Access → String
  | publicMember => "public"
  | protectedMember => "protected"
  | privateMember => "private"

/-- All access levels. -/
def all : List Access := [publicMember, protectedMember, privateMember]

/-- The access level with a keyword. -/
def ofName? (name : String) : Option Access :=
  all.find? (·.name == name)

end Access

/-- The words that introduce a class. -/
inductive ClassKey where
  | classKey
  | structKey
  | unionKey
deriving DecidableEq

namespace ClassKey

/-- The spelling of a class key. -/
def name : ClassKey → String
  | classKey => "class"
  | structKey => "struct"
  | unionKey => "union"

/-- All class keys. -/
def all : List ClassKey := [classKey, structKey, unionKey]

/-- The class key with a spelling. -/
def ofName? (name : String) : Option ClassKey :=
  all.find? (·.name == name)

/-- The access of members in front of the first access specifier. -/
def defaultAccess : ClassKey → Access
  | classKey => .privateMember
  | structKey | unionKey => .publicMember

end ClassKey

/-- The kinds of places for declarations. -/
inductive ScopeKind where
  | global
  | namespaceScope
  | classScope
  | functionScope
  | blockScope
deriving DecidableEq

/-- The name of a kind. -/
def ScopeKind.name : ScopeKind → String
  | global => "global"
  | namespaceScope => "namespace"
  | classScope => "class"
  | functionScope => "function"
  | blockScope => "block"

/-- What a frame is, with what belongs to that kind alone. -/
inductive FrameShape where
  | namespaceFrame
  /-- A class, the access of members at the place asked for, and the offset behind the semicolon
  that ends the declaration of the class, if it is known. -/
  | classFrame (key : ClassKey) (access : Access) (statementEnd : Option Nat)
  /-- A function body, and the class that the function's qualified name puts it into. -/
  | functionFrame (owner : Option String)
  | blockFrame
deriving DecidableEq

/-- The kind of a frame. -/
def FrameShape.kind : FrameShape → ScopeKind
  | namespaceFrame => .namespaceScope
  | classFrame .. => .classScope
  | functionFrame _ => .functionScope
  | blockFrame => .blockScope

/-- One scope around a place: from its opening brace to behind its closing brace. -/
structure Frame where
  shape : FrameShape
  name : Option String
  path : String
  start : Nat
  stop : Nat
deriving DecidableEq

namespace Frame

/-- The kind of the scope. -/
def kind (f : Frame) : ScopeKind :=
  f.shape.kind

/-- The access of members of a class. -/
def access? (f : Frame) : Option Access :=
  match f.shape with
  | .classFrame _ access _ => some access
  | _ => none

/-- The key of a class. -/
def classKey? (f : Frame) : Option ClassKey :=
  match f.shape with
  | .classFrame key _ _ => some key
  | _ => none

/-- Where the declaration of a class ends. -/
def statementEnd? (f : Frame) : Option Nat :=
  match f.shape with
  | .classFrame _ _ statementEnd => statementEnd
  | _ => none

/-- The class that a function body belongs to. -/
def owner? (f : Frame) : Option String :=
  match f.shape with
  | .functionFrame owner => owner
  | _ => none

/-- Whether the frame holds a place. -/
def contains (f : Frame) (path : String) (offset : Int) : Bool :=
  f.path == path && f.start ≤ offset && offset < f.stop

/-- A namespace without a name does not hide its members from the scope around it. -/
def isTransparent (f : Frame) : Bool :=
  f.kind == .namespaceScope && f.name.isNone

/-- Whether the frame is a class or a namespace. -/
def isDeclarative (f : Frame) : Bool :=
  f.kind == .namespaceScope || f.kind == .classScope

/-- Whether two frames stand for the same piece of source. -/
def same (f g : Frame) : Bool :=
  f.kind == g.kind && f.name == g.name && f.path == g.path && f.start == g.start && f.stop == g.stop

end Frame

/-- The two ways in which scopes are found. -/
inductive ScopeEvidence where
  | tree
  | lexical
deriving DecidableEq

/-- The name of a way to find scopes. -/
def ScopeEvidence.name : ScopeEvidence → String
  | tree => "tree-sitter"
  | lexical => "lexical"

/-- The scopes around a place, the outermost first, and how they were found. -/
structure Context where
  frames : List Frame
  evidence : ScopeEvidence := .tree
  /-- The two ways of finding scopes gave different answers. -/
  disputed : Bool := false

namespace Context

/-- The innermost class or named namespace. -/
def declarative? (c : Context) : Option Frame :=
  c.frames.reverse.find? fun f => f.isDeclarative && !f.isTransparent

/-- The kind of the innermost class or named namespace. -/
def kind (c : Context) : ScopeKind :=
  c.declarative?.elim .global Frame.kind

/-- The name of the innermost class or named namespace. -/
def name? (c : Context) : Option String :=
  c.declarative?.bind Frame.name

/-- The access of members if the innermost class or named namespace is a class. -/
def access? (c : Context) : Option Access :=
  c.declarative?.bind Frame.access?

/-- The innermost frame. -/
def innermost? (c : Context) : Option Frame :=
  c.frames.getLast?

/-- The frame that a declaration at this place belongs to. -/
def scope? (c : Context) : Option Frame :=
  c.frames.reverse.find? fun f => !f.isTransparent

/-- The class that a declaration at this place is a member of. -/
def class? (c : Context) : Option Frame :=
  c.scope?.filter (·.kind == .classScope)

/-- The names of the classes and namespaces around the place. -/
def scopePath (c : Context) : List String :=
  (c.frames.filter Frame.isDeclarative).filterMap Frame.name

/-- The name of the innermost class or namespace with the names of all around it. -/
def qualifiedName (c : Context) : String :=
  "::".intercalate c.scopePath

/-- Whether the place is in the body of a function. -/
def inFunction (c : Context) : Bool :=
  c.frames.any fun f => f.kind == .functionScope || f.kind == .blockScope

/-- The class that the innermost member function defined outside its class belongs to. -/
def owner? (c : Context) : Option String :=
  c.frames.reverse.findSome? Frame.owner?

/-- The qualified name as shown to a reader. -/
def shownName (c : Context) : String :=
  if c.qualifiedName.isEmpty then "<anonymous>" else c.qualifiedName

/-- The place in words. -/
def describe (c : Context) : String :=
  match c.kind with
  | .namespaceScope => "namespace " ++ c.shownName
  | .classScope =>
    "class " ++ c.shownName ++ c.access?.elim "" fun a => ", " ++ a.name
  | _ => "global namespace"

/-- Whether members of a class can be named without a qualifier: in the class, in classes in it, and
in bodies of its member functions. -/
def seesClass (c : Context) (frame : Frame) : Bool :=
  c.frames.any (·.same frame) ||
    match c.owner?, frame.name with
    | some owner, some name => owner == QualifiedName.last name
    | _, _ => false

/-- Whether a declaration made at `home` can be named without a qualifier. -/
def sees (c home : Context) : Bool :=
  match home.scope? with
  | none => true
  | some frame =>
    match frame.kind with
    | .classScope => c.seesClass frame
    | .namespaceScope =>
      c.frames.any (·.same frame) || home.scopePath.isPrefixOf c.scopePath
    | _ => c.frames.any (·.same frame)

end Context

end Demacro
