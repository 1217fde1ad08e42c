import Typewright.Schema.Children

/-!
# Normal form of a schema

Changes to the shape of a schema that keep its meaning. Every schema object that is no `$ref` gets
them: a `type` list with one entry becomes that entry, `required: false` becomes an empty list, and
an object schema that says nothing about further properties allows them. The root of a document also
gets a `required` list and a title. The children of a `$ref` are still visited.
-/

namespace Typewright.Schema

/-! ## Rules for one schema -/

/-- A `type` list with one entry becomes that entry. -/
def unwrapType (ms : Members) : Members :=
  match ms.lookup "type" with
  | some (.array [single]) => ms.put "type" single
  | _ => ms

/-- `required: false` becomes an empty list. -/
def listRequired (ms : Members) : Members :=
  match ms.lookup "required" with
  | some (.bool false) => ms.put "required" (.array [])
  | _ => ms

/-- An object schema without `additionalProperties` and `patternProperties` allows further
properties. -/
def openObject (ms : Members) : Members :=
  let objectLike := ms.lookup "type" == some (.string "object") || ms.has "properties"
  if objectLike && !ms.has "additionalProperties" && !ms.has "patternProperties" then
    ms.put "additionalProperties" (.bool true)
  else ms

/-- The rules for a schema object; a `$ref` is left alone. -/
def normalizeMembers (ms : Members) : Members :=
  if ms.has "$ref" then ms else openObject (listRequired (unwrapType ms))

/-! ## Whole documents -/

/-- How a member holds schemas, if its key is a keyword for that. -/
def shape? (key : String) : Option Shape := keywords.lookup key

mutual
/-- A document in normal form, the rules for the root of a compile apart. -/
def normalizeFragment : Json → Json
  | .object ms => .object (settle (normalizeMembers (normalizeEach ms)))
  | v => v

/-- The schemas inside each member in normal form. -/
def normalizeEach : List (String × Json) → List (String × Json)
  | [] => []
  | (k, v) :: rest =>
    (k, match shape? k with
      | none => v
      | some shape => normalizeUnder shape v) :: normalizeEach rest

/-- The schemas in a keyword's value in normal form. -/
def normalizeUnder (shape : Shape) : Json → Json
  | .object ms =>
    match shape with
    | .byName => .object (normalizeNamed ms)
    | .list => .object ms
    | .one | .oneOrList => .object (settle (normalizeMembers (normalizeEach ms)))
  | .array xs =>
    match shape with
    | .list | .oneOrList => .array (normalizeItems xs)
    | .byName | .one => .array xs
  | v => v

def normalizeNamed : List (String × Json) → List (String × Json)
  | [] => []
  | (k, v) :: rest => (k, normalizeFragment v) :: normalizeNamed rest

def normalizeItems : List Json → List Json
  | [] => []
  | v :: rest => normalizeFragment v :: normalizeItems rest
end

/-- The root of a document gets a `required` list and a title, if it has none. -/
def completeRoot (name : String) (ms : Members) : Members :=
  if ms.has "$ref" then ms
  else
    let ms := if ms.has "required" then ms else ms.put "required" (.array [])
    if ms.has "title" then ms else ms.put "title" (.string name)

/-- The root document of a compile in normal form. -/
def normalize (name : String) (schema : Json) : Json :=
  match normalizeFragment schema with
  | .object ms => .object (completeRoot name ms)
  | v => v

end Typewright.Schema
