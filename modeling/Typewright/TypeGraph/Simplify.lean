import Typewright.TypeGraph.Fingerprint

/-!
# Simpler type graphs

`TypeGraph.simplify` reduces the nodes that the root reaches, children first, until nothing
changes. In a union or an intersection, members of the same kind are flattened, duplicates dropped
and `any` absorbs the rest; one that has a single member left becomes that member. In an
interface, definitions that nothing reaches are dropped and a member that may be `undefined`
becomes optional. The result holds the reachable nodes alone, numbered depth first.
-/

namespace Typewright

/-- A graph under work and the nodes that another one stands for. -/
structure Reduction where
  graph : TypeGraph
  redirects : List (NodeId × NodeId) := []
deriving DecidableEq

namespace Reduction

/-- Follows redirects from a node, at most `hops` of them. -/
def resolveFrom (w : Reduction) : Nat → NodeId → NodeId
  | 0, id => id
  | hops + 1, id =>
    match w.redirects.lookup id with
    | none => id
    | some next => if next = id then id else resolveFrom w hops next

/-- The node that stands for `id`. -/
def resolve (w : Reduction) (id : NodeId) : NodeId := w.resolveFrom (w.redirects.length + 1) id

def childrenOf (w : Reduction) (id : NodeId) : List NodeId := (w.graph.childrenOf id).map w.resolve

/-- Lets `target` stand for `id`. -/
def redirect (w : Reduction) (id target : NodeId) : Reduction :=
  { w with redirects := (id, target) :: w.redirects.filter (·.1 != id) }

/-! ## Order of work -/

/-- All numbers that occur, those of redirects included. -/
def mentioned (w : Reduction) : List NodeId :=
  (w.graph.mentioned ++ w.redirects.map (·.2)).eraseDups

/-- The nodes that the root reaches, children first. -/
def postorder (w : Reduction) : List NodeId :=
  Walk.postorder w.childrenOf w.mentioned [.enter (w.resolve w.graph.root)]

/-! ## Unions and intersections -/

/-- Whether a node can be dissolved in a union, or else an intersection, that holds it. -/
def dissolves (isUnion : Bool) (node : Node) : Bool :=
  node.name.isNone && node.comment.isNone &&
    match node.kind with
    | .union _ => isUnion
    | .intersection _ => !isUnion
    | _ => false

/-- The members of a union or an intersection, with those of a dissolved member in its place. -/
def flatten (w : Reduction) (id : NodeId) (isUnion : Bool) (children : List NodeId) : List NodeId :=
  children.flatMap fun child =>
    match w.graph.get? child with
    | none => [child]
    | some node =>
      if child != id && dissolves isUnion node then node.kind.children.map w.resolve else [child]

/-- The first of each set of nodes with the same fingerprint. -/
def dropDuplicates (w : Reduction) (seen : List String) : List NodeId → List NodeId
  | [] => []
  | id :: rest =>
    let print := w.graph.fingerprint w.resolve id
    if print ∈ seen then dropDuplicates w seen rest
    else id :: dropDuplicates w (print :: seen) rest

def isAny (w : Reduction) (id : NodeId) : Bool :=
  match w.graph.get? id with
  | some node => node.kind == .any
  | none => false

def fill (w : Reduction) (id : NodeId) (node : Node) : Reduction :=
  { w with graph := w.graph.fill id node }

/-- A union or an intersection whose members are `members`. -/
def setMembers (isUnion : Bool) (node : Node) (members : List NodeId) : Node :=
  { node with kind := if isUnion then .union members else .intersection members }

/-- Reduces a union or an intersection with a single member: it becomes that member, or the member
stands for it if only the member has a name. -/
def collapse (w : Reduction) (id : NodeId) (isUnion : Bool) (node : Node) (only : NodeId) :
    Reduction :=
  let keep := w.fill id (setMembers isUnion node [only])
  if only = id then keep
  else
    match w.graph.get? only with
    | none => keep
    | some child =>
      if child.name.isNone then
        w.fill id { node with kind := child.kind, comment := node.comment <|> child.comment }
      else if node.name.isNone && node.comment.isNone then w.redirect id only
      else keep

/-- Reduces a union, or else an intersection, with the members `children`. -/
def reduceCombination (w : Reduction) (id : NodeId) (isUnion : Bool) (node : Node)
    (children : List NodeId) : Reduction :=
  let members := w.dropDuplicates [] (w.flatten id isUnion (children.map w.resolve))
  if members.any w.isAny then w.fill id { node with kind := .any }
  else
    match members with
    | [only] => w.collapse id isUnion node only
    | _ => w.fill id (setMembers isUnion node members)

/-! ## Interfaces -/

/-- Whether a node is the text `undefined`. -/
def isUndefined (w : Reduction) (id : NodeId) : Bool :=
  match w.graph.get? id with
  | none => false
  | some node =>
    match node.kind with
    | .customType text | .reference text => text == "undefined"
    | _ => false

/-- A member whose type is an unnamed union with `undefined` becomes an optional member of the
rest of the union. -/
def relaxMember (w : Reduction) (m : InterfaceMember) : Reduction × InterfaceMember :=
  match w.graph.get? m.node with
  | none => (w, m)
  | some node =>
    match node.kind, node.name with
    | .union branches, none =>
      let kept := branches.filter (!w.isUndefined ·)
      if kept.length = branches.length then (w, m)
      else
        let rest : Node := { kind := .union kept, comment := node.comment, key := node.key }
        let (id, graph) := w.graph.add rest
        let w := { w with graph }.reduceCombination id true rest kept
        (w, { m with node := w.resolve id, required := false })
    | _, _ => (w, m)

def relaxMembers (w : Reduction) : List InterfaceMember → Reduction × List InterfaceMember
  | [] => (w, [])
  | m :: rest =>
    let (w, m) := w.relaxMember m
    let (w, rest) := w.relaxMembers rest
    (w, m :: rest)

/-- Reduces an interface whose members and supers are already resolved. -/
def reduceInterface (keepUnreachable : Bool) (w : Reduction) (id : NodeId) (node : Node)
    (members : List InterfaceMember) (supers : List NodeId) : Reduction :=
  let members := if keepUnreachable then members else members.filter (!·.unreachable)
  let (w, members) := w.relaxMembers members
  w.fill id { node with kind := .interface members supers }

/-! ## Nodes and sweeps -/

/-- Reduces one node. -/
def reduce (keepUnreachable : Bool) (w : Reduction) (id : NodeId) : Reduction :=
  match w.graph.get? id with
  | none => w
  | some node =>
    let node' := { node with kind := node.kind.mapChildren w.resolve }
    match node.kind with
    | .union children => w.reduceCombination id true node children
    | .intersection children => w.reduceCombination id false node children
    | .interface _ _ =>
      match node'.kind with
      | .interface members supers =>
        reduceInterface keepUnreachable (w.fill id node') id node' members supers
      | _ => w.fill id node'
    | _ => w.fill id node'

/-- Reduces every node that the root reaches, children first. -/
def sweep (keepUnreachable : Bool) (w : Reduction) : Reduction :=
  w.postorder.foldl (reduce keepUnreachable) w

/-- Sweeps until nothing changes, at most `limit + 1` times. -/
def settle (keepUnreachable : Bool) : Nat → Reduction → Reduction
  | 0, w => w.sweep keepUnreachable
  | limit + 1, w =>
    let next := w.sweep keepUnreachable
    if next.graph = w.graph ∧ next.redirects.length = w.redirects.length then next
    else settle keepUnreachable limit next

/-! ## The result -/

/-- The nodes that the root reaches, depth first. -/
def order (w : Reduction) : List NodeId :=
  Walk.preorder w.childrenOf w.mentioned [w.resolve w.graph.root]

/-- The reachable nodes alone, numbered in the order in which they are met. -/
def compact (w : Reduction) : TypeGraph :=
  let order := w.order
  let number (id : NodeId) : NodeId := order.idxOf (w.resolve id)
  { nodes :=
      (order.map fun id =>
        (w.graph.get? id).map fun node =>
          { node with kind := node.kind.mapChildren number }).toArray
    root := number w.graph.root }

end Reduction

namespace TypeGraph

/-- The simplest graph with the same types. Members that only carry definitions are dropped unless
`keepUnreachable` is set. -/
def simplify (keepUnreachable : Bool) (g : TypeGraph) : TypeGraph :=
  (Reduction.settle keepUnreachable g.size ⟨g, []⟩).compact

end TypeGraph

end Typewright
