import Typewright.Declaration.Comment
import Typewright.Error
import Typewright.Identifier.Basic
import Typewright.Json.Printer
import Typewright.TypeGraph.Basic

/-!
# Type expressions

The text of a type. A named node is written as its name and not expanded, so recursive types have
finite texts; an unnamed node that leads back to itself has none.
-/

namespace Typewright.Declaration

/-- A key as it is written: as it is where it is an identifier or the index signature, otherwise
as a string. -/
def keyText (key : String) : String :=
  if key == indexSignature || Identifier.isBare key.toList then key else Json.quote key

/-- The node with a number. -/
def nodeAt (g : TypeGraph) (id : NodeId) (path : String) : Except CompileError Node :=
  if g.contains id then
    match g.get? id with
    | some node => .ok node
    | none => .error (.unsupportedNode id path .unbuilt)
  else .error (.unsupportedNode id path .foreign)

/-- Texts joined by an operator, in parentheses unless there is just one. -/
def combination (operator empty : String) : List String → String
  | [] => empty
  | [text] => text
  | texts => "(" ++ String.intercalate operator texts ++ ")"

/-- The children that the text of a kind shows, each with its pointer segment. -/
def shown : Kind → List (String × NodeId)
  | .array element => [("items", element)]
  | .tuple cs | .union cs | .intersection cs => indexed cs
  | .enum members => indexed (members.map (·.node))
  | .interface members _ =>
    (members.filter fun m => !m.pattern && !m.unreachable).map fun m => (m.key, m.node)
  | _ => []
where
  /-- Nodes with their index as a segment. -/
  indexed (nodes : List NodeId) : List (String × NodeId) :=
    nodes.zipIdx.map fun (node, i) => (toString i, node)

/-- A member of an interface with the text of its type. The comment of an unnamed type stands in
front. -/
def memberText (g : TypeGraph) (m : InterfaceMember) (type : String) : String :=
  let comment :=
    match g.get? m.node with
    | some node =>
      match node.comment, node.name with
      | some comment, none => commentBlock comment ++ "\n"
      | _, _ => ""
    | none => ""
  comment ++ keyText m.key ++ (if m.required then "" else "?") ++ ": " ++ type

/-- The text of a kind from those of the children that it shows. -/
def kindText (g : TypeGraph) (kind : Kind) (parts : List String) : String :=
  match kind with
  | .any => "any"
  | .boolean => "boolean"
  | .null => "null"
  | .number => "number"
  | .object => "object"
  | .string => "string"
  | .customType text | .reference text => text
  | .literal value => value.text
  | .array _ =>
    let element := String.join parts
    if element.toList.getLast? == some '"' then "(" ++ element ++ ")[]" else element ++ "[]"
  | .tuple _ => "[" ++ String.intercalate ", " parts ++ "]"
  | .union _ | .enum _ => combination " | " "never" parts
  | .intersection _ => combination " & " "unknown" parts
  | .interface members _ =>
    let written := members.filter fun m => !m.pattern && !m.unreachable
    if written.isEmpty then "\x7b\x7d"
    else
      "\x7b\n" ++ String.intercalate "\n" (written.zipWith (memberText g) parts) ++ "\n\x7d"

/-- The type expression of a node: its name, or its structure. `fresh` holds the nodes that are not
being expanded. -/
def expression (g : TypeGraph) (fresh : List NodeId) (id : NodeId) (path : String) :
    Except CompileError String := do
  let node ← nodeAt g id path
  match node.name with
  | some name => return Identifier.sanitize name
  | none =>
    if _h : id ∈ fresh then
      let parts ← (shown node.kind).mapM fun (segment, child) =>
        expression g (fresh.erase id) child (Pointer.build path [segment])
      return kindText g node.kind parts
    else throw (.unsupportedNode id path .unnamedCycle)
termination_by fresh.length
decreasing_by exact Walk.length_erase_lt_of_mem ‹_›

/-- The nodes that can be expanded while those of `stack` are. -/
def unexpanded (g : TypeGraph) (stack : List NodeId) : List NodeId :=
  (List.range g.size).filter (· ∉ stack)

/-- The structure of a node, whether it has a name or not. -/
def structureText (g : TypeGraph) (id : NodeId) (node : Node) (path : String) :
    Except CompileError String := do
  let parts ← (shown node.kind).mapM fun (segment, child) =>
    expression g (unexpanded g [id]) child (Pointer.build path [segment])
  return kindText g node.kind parts

end Typewright.Declaration
