import Typewright.Json.Printer
import Typewright.TypeGraph.Basic
import Typewright.Unicode.Hidden

/-!
# Fingerprints

A text for the structure below a node, by which duplicates are found. The node's own name and all
comments are left out, and a named node further down stands for itself by its name.
-/

namespace Typewright

/-- The characters that a backslash and a letter stand for. -/
def debugLetters : List (Char × Char) :=
  [('"', '"'), ('\\', '\\'), ('\n', 'n'), ('\r', 'r'), ('\t', 't'), (.ofNat 0, '0')]

/-- A character of a key between quotes; a hidden one is written by its number. -/
def debugChar (c : Char) : List Char :=
  match debugLetters.lookup c with
  | some letter => ['\\', letter]
  | none =>
    if Unicode.isHidden c then "\\u\x7b".toList ++ Nat.toDigits 16 c.toNat ++ ['}'] else [c]

/-- A key between quotes. -/
def debugQuote (s : String) : String :=
  String.ofList ('"' :: s.toList.flatMap debugChar ++ ['"'])

namespace Kind

/-- Texts, each followed by a comma. -/
def listed (texts : List String) : String := String.join (texts.map (· ++ ","))

/-- How the fingerprint of an interface writes a member's key and flags. -/
def memberMark (m : InterfaceMember) : String :=
  debugQuote m.key ++ (if m.required then "" else "?") ++ (if m.pattern then "~" else "") ++
    (if m.unreachable then "!" else "") ++ ":"

/-- The fingerprint of a kind from those of its children. -/
def fingerprint (kind : Kind) (parts : List String) : String :=
  match kind with
  | .any => "any"
  | .boolean => "boolean"
  | .null => "null"
  | .number => "number"
  | .object => "object"
  | .string => "string"
  | .customType text => "custom:" ++ text
  | .reference text => "ref:" ++ text
  | .literal value => "lit:" ++ value.text
  | .array _ => "array(" ++ listed parts ++ ")"
  | .tuple _ => "tuple(" ++ listed parts ++ ")"
  | .union _ => "union(" ++ listed parts ++ ")"
  | .intersection _ => "intersection(" ++ listed parts ++ ")"
  | .enum members =>
    "enum\x7b" ++
      listed (members.zipWith (fun m part => debugQuote m.key ++ "=" ++ part) parts) ++ "\x7d"
  | .interface members _ =>
    "interface\x7b" ++ listed (members.zipWith (fun m part => memberMark m ++ part) parts) ++
      "\x7dextends(" ++ listed (parts.drop members.length) ++ ")"

end Kind

namespace TypeGraph

/-- The fingerprint of a node, where `resolve` leads from a number to the node that stands for it.
`fresh` holds the nodes that are not above this one; one that is above it is only referred to. -/
def fingerprintFrom (g : TypeGraph) (resolve : NodeId → NodeId) (fresh : List NodeId) (top : Bool)
    (id : NodeId) : String :=
  let id := resolve id
  match g.get? id with
  | none => "?#" ++ toString id
  | some node =>
    match top, node.name with
    | false, some name => "@" ++ name
    | _, _ =>
      if _h : id ∈ fresh then
        node.kind.fingerprint
          (node.kind.children.map (fingerprintFrom g resolve (fresh.erase id) false))
      else "^#" ++ toString id
termination_by fresh.length
decreasing_by exact Walk.length_erase_lt_of_mem ‹_›

/-- The fingerprint of a node. -/
def fingerprint (g : TypeGraph) (resolve : NodeId → NodeId) (id : NodeId) : String :=
  g.fingerprintFrom resolve (List.range g.size) true id

end TypeGraph

end Typewright
