import Typewright.Json.Value
import Typewright.Walk

/-!
# Type graphs

Types as nodes that refer to each other by number. A shared or recursive type is one node with
several parents. A slot may be reserved before its node is built, so that a node under
construction can already be referred to.
-/

namespace Typewright

abbrev NodeId := Nat

/-- A key of an enum with the literal it stands for. -/
structure EnumMember where
  key : String
  node : NodeId
deriving DecidableEq, Repr, Inhabited

/-- A member of an interface. One that is keyed by a pattern, and one that only carries a
definition, is never written as a member. -/
structure InterfaceMember where
  key : String
  node : NodeId
  required : Bool := false
  pattern : Bool := false
  unreachable : Bool := false
deriving DecidableEq, Repr, Inhabited

/-- The key of an index signature. -/
def indexSignature : String := "[k: string]"

/-- What a type is made of. -/
inductive Kind where
  | any
  | array (element : NodeId)
  | boolean
  /-- Type text given by the schema. -/
  | customType (text : String)
  | enum (members : List EnumMember)
  | interface (members : List InterfaceMember) (supers : List NodeId)
  | intersection (children : List NodeId)
  | literal (value : Json)
  | null
  | number
  | object
  /-- The name of a type that is declared elsewhere. -/
  | reference (text : String)
  | string
  | tuple (children : List NodeId)
  | union (children : List NodeId)
deriving DecidableEq, Repr, Inhabited

namespace Kind

/-- The nodes that a kind refers to, in order; of an interface the members before the supers. -/
def children : Kind → List NodeId
  | .array element => [element]
  | .enum members => members.map (·.node)
  | .interface members supers => members.map (·.node) ++ supers
  | .intersection cs | .tuple cs | .union cs => cs
  | _ => []

/-- A kind with `f` applied to each node it refers to. -/
def mapChildren (f : NodeId → NodeId) : Kind → Kind
  | .array element => .array (f element)
  | .enum members => .enum (members.map fun m => { m with node := f m.node })
  | .interface members supers =>
    .interface (members.map fun m => { m with node := f m.node }) (supers.map f)
  | .intersection cs => .intersection (cs.map f)
  | .tuple cs => .tuple (cs.map f)
  | .union cs => .union (cs.map f)
  | kind => kind

theorem children_mapChildren (f : NodeId → NodeId) (kind : Kind) :
    (kind.mapChildren f).children = kind.children.map f := by
  cases kind <;> simp [mapChildren, children, Function.comp_def]

end Kind

/-- A type: its kind, the name under which it is declared, its description, and the property under
which it was first met. -/
structure Node where
  kind : Kind
  name : Option String := none
  comment : Option String := none
  key : Option String := none
deriving DecidableEq, Repr, Inhabited

/-- Slots for nodes and the number of the root. -/
structure TypeGraph where
  nodes : Array (Option Node) := #[]
  root : NodeId := 0
deriving DecidableEq, Repr, Inhabited

namespace TypeGraph

variable (g : TypeGraph)

def size : Nat := g.nodes.size

/-- Whether a slot with this number exists, built or not. -/
def contains (id : NodeId) : Bool := id < g.size

/-- The node in a slot, if it is built. -/
def get? (id : NodeId) : Option Node := (g.nodes[id]?).join

/-- The number of the next slot and the graph with that slot. -/
def reserve : NodeId × TypeGraph := (g.size, { g with nodes := g.nodes.push none })

/-- Puts a node into a slot; a number without slot changes nothing. -/
def fill (id : NodeId) (node : Node) : TypeGraph :=
  { g with nodes := g.nodes.setIfInBounds id (some node) }

/-- Adds a slot with a node in it. -/
def add (node : Node) : NodeId × TypeGraph :=
  (g.size, { g with nodes := g.nodes.push (some node) })

/-- Changes the node in a slot if it is built. -/
def modify (id : NodeId) (f : Node → Node) : TypeGraph :=
  match g.get? id with
  | none => g
  | some node => g.fill id (f node)

def childrenOf (id : NodeId) : List NodeId :=
  match g.get? id with
  | none => []
  | some node => node.kind.children

/-! ## Traversal -/

/-- All numbers that occur: those of the slots, the root and every child. -/
def mentioned : List NodeId :=
  (g.root :: List.range g.size ++ (List.range g.size).flatMap g.childrenOf).eraseDups

/-- The nodes that the root reaches, depth first, each once. -/
def reachable : List NodeId := Walk.preorder g.childrenOf g.mentioned [g.root]

/-- The names of the nodes that the root reaches. -/
def reachableNames : List String := g.reachable.filterMap fun id => (g.get? id).bind (·.name)

end TypeGraph

end Typewright
