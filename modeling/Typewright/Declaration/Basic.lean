import Typewright.Declaration.Expression
import Typewright.Options

/-!
# Declarations

The text of all declarations of a type graph: type aliases, then interfaces, then enums, each
found by a walk of its own over the nodes that the root reaches.
-/

namespace Typewright.Declaration

/-! ## One declaration -/

/-- The name under which a node is declared. -/
def declaredName (node : Node) : String := Identifier.sanitize (node.name.getD "")

/-- The comment in front of a declaration. -/
def leadingComment (node : Node) : String :=
  match node.comment with
  | some comment => commentBlock comment ++ "\n"
  | none => ""

/-- A type alias. -/
def aliasText (g : TypeGraph) (id : NodeId) (node : Node) (path : String) :
    Except CompileError String := do
  let body ← structureText g id node path
  return leadingComment node ++ "export type " ++ declaredName node ++ " = " ++ body

/-- The name of a super type. -/
def superName (g : TypeGraph) (path : String) (id : NodeId) (index : Nat) :
    Except CompileError String := do
  let path := Pointer.build path ["extends", toString index]
  let node ← nodeAt g id path
  match node.name with
  | some name => return Identifier.sanitize name
  | none => throw (.unsupportedNode id path .unnamedSuper)

/-- An interface with its super types. -/
def interfaceText (g : TypeGraph) (id : NodeId) (node : Node) (supers : List NodeId)
    (path : String) : Except CompileError String := do
  let names ← supers.zipIdx.mapM fun (super, i) => superName g path super i
  let clause := if names.isEmpty then "" else "extends " ++ String.intercalate ", " names ++ " "
  let body ← structureText g id node path
  return leadingComment node ++ "export interface " ++ declaredName node ++ " " ++ clause ++ body

/-- An enum with a line for each member. -/
def enumText (g : TypeGraph) (options : Options) (id : NodeId) (node : Node)
    (members : List EnumMember) (path : String) : Except CompileError String := do
  let lines ← members.mapM fun m => do
    let value ← expression g (unexpanded g [id]) m.node (Pointer.build path [m.key])
    return keyText m.key ++ " = " ++ value
  return leadingComment node ++ "export " ++ (if options.enableConstEnums then "const " else "") ++
    "enum " ++ declaredName node ++ " \x7b\n" ++ String.intercalate ",\n" lines ++ "\n\x7d"

/-! ## Walks -/

/-- A node to walk into, or one to declare, with its pointer. -/
inductive Task where
  | enter (id : NodeId) (path : String)
  | declare (id : NodeId) (node : Node) (path : String)

/-- The texts of the nodes that a walk declares. At a node, `plan` lists what to do there. -/
def walk (g : TypeGraph) (plan : NodeId → Node → String → List Task)
    (text : NodeId → Node → String → Except CompileError String) (fresh : List NodeId) :
    List Task → Except CompileError (List String)
  | [] => return []
  | .declare id node path :: rest => do
    let declaration ← text id node path
    let more ← walk g plan text fresh rest
    return declaration :: more
  | .enter id path :: rest => do
    if _h : id ∈ fresh then
      let node ← nodeAt g id path
      walk g plan text (fresh.erase id) (plan id node path ++ rest)
    else walk g plan text fresh rest
termination_by tasks => (fresh.length, tasks.length)
decreasing_by
  · exact .right _ (by simp)
  · exact .left _ _ (Walk.length_erase_lt_of_mem ‹_›)
  · exact .right _ (by simp)

/-- A walk from the root; its declarations stand on lines of their own. -/
def collect (g : TypeGraph) (plan : NodeId → Node → String → List Task)
    (text : NodeId → Node → String → Except CompileError String) : Except CompileError String := do
  return String.intercalate "\n" (← walk g plan text g.mentioned [.enter g.root "#"])

def enterItems (path : String) (element : NodeId) : List Task :=
  [.enter element (Pointer.build path ["items"])]

def enterEach (path : String) (children : List NodeId) : List Task :=
  children.zipIdx.map fun (child, i) => .enter child (Pointer.build path [toString i])

/-- The members of an interface and then its super types. -/
def enterInterface (path : String) (members : List InterfaceMember) (supers : List NodeId) :
    List (NodeId × String) :=
  (members.map fun m => (m.node, Pointer.build path [m.key])) ++
    supers.zipIdx.map fun (super, i) => (super, Pointer.build path ["extends", toString i])

/-- Declares a node if it has a name. -/
def declareNamed (id : NodeId) (node : Node) (path : String) : List Task :=
  if node.name.isSome then [.declare id node path] else []

/-- Whether a node may be declared: all may, or else only the root. -/
def mayDeclare (g : TypeGraph) (options : Options) (id : NodeId) : Bool :=
  id == g.root || options.declareExternallyReferenced

/-- Type aliases are the named nodes that are neither interfaces nor enums. The element of a list is
declared before the list, the members of a combination after it. -/
def planAliases (g : TypeGraph) (options : Options) (id : NodeId) (node : Node) (path : String) :
    List Task :=
  match node.kind with
  | .array element => enterItems path element ++ declareNamed id node path
  | .enum _ => []
  | .interface members supers =>
    ((enterInterface path members supers).filter fun (child, _) => mayDeclare g options child).map
      fun (child, path) => .enter child path
  | .intersection cs | .tuple cs | .union cs => declareNamed id node path ++ enterEach path cs
  | _ => declareNamed id node path

/-- Interfaces are declared before what they refer to. -/
def planInterfaces (g : TypeGraph) (options : Options) (id : NodeId) (node : Node)
    (path : String) : List Task :=
  match node.kind with
  | .array element => enterItems path element
  | .interface members supers =>
    (if mayDeclare g options id then declareNamed id node path else []) ++
      (enterInterface path members supers).map fun (child, path) => .enter child path
  | .intersection cs | .tuple cs | .union cs => enterEach path cs
  | _ => []

/-- Enums are declared wherever they stand. -/
def planEnums (id : NodeId) (node : Node) (path : String) : List Task :=
  match node.kind with
  | .array element => enterItems path element
  | .enum _ => declareNamed id node path
  | .interface members supers =>
    (enterInterface path members supers).map fun (child, path) => .enter child path
  | .intersection cs | .tuple cs | .union cs => enterEach path cs
  | _ => []

/-- The declarations of type aliases. -/
def aliases (options : Options) (g : TypeGraph) : Except CompileError String :=
  collect g (planAliases g options) (aliasText g)

/-- The declarations of interfaces. -/
def interfaces (options : Options) (g : TypeGraph) : Except CompileError String :=
  collect g (planInterfaces g options) fun id node path =>
    match node.kind with
    | .interface _ supers => interfaceText g id node supers path
    | _ => return ""

/-- The declarations of enums. -/
def enums (options : Options) (g : TypeGraph) : Except CompileError String :=
  collect g planEnums fun id node path =>
    match node.kind with
    | .enum members => enumText g options id node members path
    | _ => return ""

/-- The banner and all declarations. -/
def text (options : Options) (g : TypeGraph) : Except CompileError String := do
  let sections := [options.bannerComment, ← aliases options g, ← interfaces options g,
    ← enums options g]
  return String.intercalate "\n\n" (sections.filter (· != "")) ++ "\n"

end Typewright.Declaration
