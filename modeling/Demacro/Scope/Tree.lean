import Demacro.Scope
import Demacro.Sorting
import Demacro.Text.Offset
import Demacro.Unicode.Classes

/-!
Scopes read off a syntax tree. The tree comes from outside: its nodes are named by type and cover
ranges of bytes. Only the nodes that open scopes, the names and access specifiers in them, and the
places where a constant is required matter here.
-/

namespace Demacro

/-- A node of a syntax tree. -/
structure SyntaxNode where
  type : String
  /-- The offset of the first byte. -/
  start : Nat
  /-- The offset behind the last byte. -/
  stop : Nat
  /-- The part that the node plays in its parent. -/
  field : Option String
  /-- The node stands for something that is not in the source. -/
  missing : Bool
  children : List SyntaxNode
deriving Inhabited

namespace SyntaxNode

/-- The first child that plays the given part, as `child_by_field_name` of tree-sitter finds it. -/
def child? (n : SyntaxNode) (field : String) : Option SyntaxNode :=
  n.children.find? (·.field == some field)

/-- Whether the node itself is a sign of a syntax error. -/
def isFault (n : SyntaxNode) : Bool :=
  n.type == "ERROR" || n.missing

mutual

/-- The node and all nodes under it, parents first. With each comes whether it is the body of its
parent. -/
def nodes (isBody : Bool) : SyntaxNode → List (SyntaxNode × Bool)
  | ⟨type, start, stop, field, missing, children⟩ =>
    (⟨type, start, stop, field, missing, children⟩, isBody) :: nodesOf false children

/-- The nodes of a list of siblings; `seen` says that their parent's body comes before them. -/
def nodesOf (seen : Bool) : List SyntaxNode → List (SyntaxNode × Bool)
  | [] => []
  | n :: ns =>
    let isBody := !seen && n.field == some "body"
    nodes isBody n ++ nodesOf (seen || isBody) ns

end

/-- The number of signs of syntax errors in a tree. -/
def faultCount (root : SyntaxNode) : Nat :=
  (root.nodes false).countP (·.1.isFault)

/-- Whether a tree has a syntax error, which is what `has_error` of a tree-sitter node says: the
node or one below it is an error or missing. -/
def hasFault (root : SyntaxNode) : Bool :=
  (root.nodes false).any (·.1.isFault)

mutual

/-- The chain of nodes from a node down to the smallest one that covers a range of bytes, the one
that `descendant_for_byte_range` of tree-sitter finds: at each step the first child that starts no
later and ends no earlier than the range. -/
def chain (first last : Int) : SyntaxNode → List SyntaxNode
  | ⟨type, start, stop, field, missing, children⟩ =>
    ⟨type, start, stop, field, missing, children⟩ :: chainOf first last children

/-- The chain that goes on with one of some siblings. -/
def chainOf (first last : Int) : List SyntaxNode → List SyntaxNode
  | [] => []
  | n :: ns =>
    if n.start ≤ first ∧ last ≤ n.stop then chain first last n
    else chainOf first last ns

end

/-- The nodes that a function declarator may be wrapped in. -/
def declaratorWrappers : List String :=
  ["pointer_declarator", "reference_declarator", "parenthesized_declarator",
    "attributed_declarator"]

mutual

/-- The function declarator of a node, out of all wrappers. -/
def functionDeclarator? : SyntaxNode → Option SyntaxNode
  | ⟨_, _, _, _, _, children⟩ => functionDeclaratorOf? children

/-- The function declarator among the children of a node. -/
def functionDeclaratorOf? : List SyntaxNode → Option SyntaxNode
  | [] => none
  | n :: ns =>
    if n.field == some "declarator" then
      if declaratorWrappers.contains n.type then functionDeclarator? n
      else if n.type == "function_declarator" then some n
      else none
    else functionDeclaratorOf? ns

end

/-- The bytes of a node in the file that was parsed. -/
def bytes (data : List UInt8) (n : SyntaxNode) : List UInt8 :=
  (data.drop n.start).take (n.stop - n.start)

/-- The words of a node's text with one space between each two of them; nothing if there are no
words. -/
def text? (data : List UInt8) (n : SyntaxNode) : Option String :=
  let words := Unicode.words (Text.replaceStray (Text.decode (n.bytes data)))
  if words.isEmpty then none else some (String.ofList ([' '].intercalate words))

/-- The field of a node in which a constant is required. The inner option is missing where a
constant is required in all of the node. -/
def constantField? (n : SyntaxNode) : Option (Option String) :=
  match n.type with
  | "array_declarator" => some (some "size")
  | "enumerator" => some (some "value")
  | "template_argument_list" => some none
  | "bitfield_clause" => some none
  | "static_assert_declaration" => some (some "condition")
  | "case_statement" => some (some "value")
  | _ => none

/-- Whether a constant is required at a child of a node. -/
def requiresConstant (parent child : SyntaxNode) : Bool :=
  match parent.constantField? with
  | none => false
  | some none => true
  | some (some field) =>
    (parent.child? field).any fun target => target.start ≤ child.start && child.stop ≤ target.stop

/-- Whether a constant is required at a range of bytes. -/
def isConstantPosition (root : SyntaxNode) (first last : Int) : Bool :=
  let nodes := root.chain first last
  (nodes.zip (nodes.drop 1)).any fun (parent, child) => requiresConstant parent child

end SyntaxNode

/-- What a region is, with what belongs to that kind alone. -/
inductive RegionShape where
  | namespaceRegion
  /-- A class and its access specifiers: the offset behind each, and the access that it gives. -/
  | classRegion (key : ClassKey) (markers : List (Nat × Access))
  | functionRegion (owner : Option String)
  | blockRegion

/-- A scope of one file, in offsets of characters. -/
structure Region where
  shape : RegionShape
  name : Option String
  start : Nat
  stop : Nat

namespace Region

/-- The kind of the scope. -/
def kind (r : Region) : ScopeKind :=
  match r.shape with
  | .namespaceRegion => .namespaceScope
  | .classRegion .. => .classScope
  | .functionRegion _ => .functionScope
  | .blockRegion => .blockScope

/-- The access at an offset in a class: that of the last specifier in front of it. -/
def accessAt (key : ClassKey) (markers : List (Nat × Access)) (offset : Int) : Access :=
  ((markers.filter fun m => m.1 ≤ offset).getLast?).elim key.defaultAccess Prod.snd

/-- The frame of the region at an offset. -/
def frame (r : Region) (path : String) (offset : Int) (statementEnd : Nat → Option Nat) : Frame :=
  let shape : FrameShape :=
    match r.shape with
    | .namespaceRegion => .namespaceFrame
    | .classRegion key markers =>
        .classFrame key (accessAt key markers offset) (statementEnd r.stop)
    | .functionRegion owner => .functionFrame owner
    | .blockRegion => .blockFrame
  ⟨shape, r.name, path, r.start, r.stop⟩

/-- The character offset of a byte offset. -/
def charIndex (t : Text) (offset : Nat) : Nat :=
  (t.charOffset offset).toNat

/-- The class key at the front of a function definition that is really a class: its text starts with
the key, and no function is declared in it. -/
def misreadClass? (data : List UInt8) (n : SyntaxNode) : Option ClassKey :=
  let chars := (Text.decode (n.bytes data)).filterMap fun
    | .char c => some c
    | .byte _ => none
  let start := chars.dropWhile Unicode.isBlank
  (ClassKey.all.find? fun key => (key.name ++ " ").toList.isPrefixOf start).filter fun _ =>
    n.functionDeclarator?.isNone

/-- The class in the text of a qualifier: its last component, without template arguments. -/
def ownerOfQualifier? (scope : String) : Option String :=
  let plain := String.ofList (scope.toList.takeWhile (· != '<'))
  let owner := QualifiedName.last plain
  if owner.isEmpty then none else some owner

/-- The region of a function definition. -/
def ofFunction (data : List UInt8) (n : SyntaxNode) (start stop : Nat) : Region :=
  match misreadClass? data n with
  | some key => ⟨.classRegion key [], (n.child? "declarator").bind (·.text? data), start, stop⟩
  | none =>
    match n.functionDeclarator?.bind (·.child? "declarator") with
    | none => ⟨.functionRegion none, none, start, stop⟩
    | some name =>
      let owner :=
        if name.type == "qualified_identifier" then
          ((name.child? "scope").bind (·.text? data)).bind ownerOfQualifier?
        else none
      ⟨.functionRegion owner, name.text? data, start, stop⟩

/-- The access specifiers in the body of a class. -/
def markers (t : Text) (data : List UInt8) (body : SyntaxNode) : List (Nat × Access) :=
  body.children.filterMap fun n =>
    if n.type == "access_specifier" then
      ((n.text? data).bind Access.ofName?).map fun a => (charIndex t n.stop, a)
    else none

/-- The region that a node with a body opens. -/
def ofNode? (t : Text) (data : List UInt8) (n : SyntaxNode) : Option Region :=
  match n.child? "body" with
  | none => none
  | some body =>
    let start := charIndex t body.start
    let stop := charIndex t body.stop
    let name := (n.child? "name").bind (·.text? data)
    let class_ (key : ClassKey) : Option Region :=
      some ⟨.classRegion key (markers t data body), name, start, stop⟩
    match n.type with
    | "namespace_definition" => some ⟨.namespaceRegion, name, start, stop⟩
    | "class_specifier" => class_ .classKey
    | "struct_specifier" => class_ .structKey
    | "union_specifier" => class_ .unionKey
    | "function_definition" => some (ofFunction data n start stop)
    | _ => if body.type == "compound_statement" then some ⟨.blockRegion, none, start,
        stop⟩ else none

/-- The region of a block that is no node's body. -/
def ofBlock? (t : Text) (n : SyntaxNode) (isBody : Bool) : Option Region :=
  if n.type == "compound_statement" && !isBody then
    some ⟨.blockRegion, none, charIndex t n.start, charIndex t n.stop⟩
  else none

/-- The regions of a file: those that bodies open, then the other blocks that are none of these.
Outer ones come first. -/
def ofTree (t : Text) (root : SyntaxNode) : List Region :=
  let data := t.encode
  let nodes := root.nodes false
  let bodies := nodes.filterMap fun (n, _) => ofNode? t data n
  let blocks := (nodes.filterMap fun (n, isBody) => ofBlock? t n isBody).filter fun b =>
    !bodies.any fun r => r.start == b.start && r.stop == b.stop
  Sorting.sort (fun a b => a.start < b.start || (a.start == b.start && b.stop ≤ a.stop))
    (bodies ++ blocks)

/-- Whether the region holds an offset. -/
def holds (r : Region) (offset : Int) : Bool :=
  r.start < offset && offset < r.stop

end Region

end Demacro
