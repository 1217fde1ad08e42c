import Typewright.Schema.Children

/-!
# Faults of a schema

The rules that `enum` and `tsEnumNames` must keep in every schema of a document.
-/

namespace Typewright.Schema

/-- A broken rule. -/
inductive Rule where
  | enumNotList
  | enumNamesNotStrings
  | enumNamesLength
deriving DecidableEq, Repr

/-- A broken rule and the pointer of the schema that breaks it. -/
structure Fault where
  path : String
  rule : Rule
deriving DecidableEq, Repr

def Rule.message : Rule → String
  | .enumNotList => "enum must be a non-empty array"
  | .enumNamesNotStrings => "tsEnumNames must be an array of strings"
  | .enumNamesLength => "enum and tsEnumNames must have the same length"

/-- The wording of a fault in the schema called `name`. -/
def Fault.message (name : String) (fault : Fault) : String :=
  "Error at key \"" ++ fault.path ++ "\" in schema \"" ++ name ++ "\": " ++ fault.rule.message

/-- An `enum` is a list with at least one value. -/
def enumFaults (obj : Members) : List Rule :=
  match obj.lookup "enum" with
  | none => []
  | some (.array (_ :: _)) => []
  | some _ => [.enumNotList]

/-- `tsEnumNames` are strings, as many as `enum` has values. -/
def enumNamesFaults (obj : Members) : List Rule :=
  match obj.lookup "tsEnumNames" with
  | none => []
  | some (.array names) =>
    if names.all Json.isString then
      match (obj.lookup "enum").bind Json.items? with
      | some values => if values.length == names.length then [] else [.enumNamesLength]
      | none => [.enumNamesLength]
    else [.enumNamesNotStrings]
  | some _ => [.enumNamesNotStrings]

/-- The rules that one schema breaks, those of its children apart. -/
def rulesBroken : Json → List Rule
  | .object ms => enumFaults ms ++ enumNamesFaults ms
  | _ => []

/-- All faults of a document, in visiting order. -/
def faults (schema : Json) : List Fault :=
  (positions "#" schema).flatMap fun (path, v) => (rulesBroken v).map (⟨path, ·⟩)

end Typewright.Schema
