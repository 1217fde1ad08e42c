import Typewright.Json.Reader

/-!
# Options of a compile

The settings with their defaults, and their JSON form: an object with hyphenated keys, in which
every key may be missing and unknown ones are ignored. An array gives the fields by position.
-/

namespace Typewright

/-- Layout of the written declarations. -/
structure Style where
  /-- Spaces for one level, unless tabs are used. -/
  indentWidth : Nat := 2
  useTabs : Bool := false
  /-- Whether members and type aliases end in a semicolon. -/
  semi : Bool := true
deriving DecidableEq, Repr, Inhabited

/-- How references are followed. -/
structure RefOptions where
  /-- Whether referenced files are loaded; otherwise a reference out of the document stands for an
  opaque type. -/
  external : Bool := true
  /-- The number of references followed for one fragment, and of files between a document and the
  root. -/
  maxDepth : Nat := 50
deriving DecidableEq, Repr, Inhabited

/-- What is put on top of the declarations by default. -/
def defaultBanner : String :=
  "/* tslint:disable */\n" ++
  "/**\n" ++
  " * This file was automatically generated by jsonschema-ts.\n" ++
  " * DO NOT MODIFY IT BY HAND. Instead, modify the source JSON Schema file,\n" ++
  " * and run jsonschema-ts to regenerate this file.\n" ++
  " */"

/-- Settings of a compile. -/
structure Options where
  bannerComment : String := defaultBanner
  /-- The directory against which a root without location resolves its file references. -/
  cwd : String := "."
  /-- Whether named types other than the root are declared. -/
  declareExternallyReferenced : Bool := true
  enableConstEnums : Bool := true
  style : Style := {}
  /-- Whether definitions that the root does not reach are declared. -/
  unreachableDefinitions : Bool := false
  refOptions : RefOptions := {}
deriving DecidableEq, Repr, Inhabited

/-! ## Decoding -/

namespace Options

/-- The value given for a field: nothing where it is missing, a failure where it is given twice or
by position beyond the last field. -/
def field (names : List String) (v : Json) (name : String) : Option (Option Json) :=
  match v with
  | .object ms =>
    match ms.filter (·.1 == name) with
    | [] => some none
    | [(_, v)] => some (some v)
    | _ => none
  | .array xs => if names.length < xs.length then none else some (xs[names.idxOf name]?)
  | _ => none

/-- A field's decoded value, or its default. -/
def decodeField {α : Type} (names : List String) (v : Json) (name : String)
    (decode : Json → Option α) (default : α) : Option α := do
  match ← field names v name with
  | none => return default
  | some w => decode w

def decodeBool : Json → Option Bool
  | .bool b => some b
  | _ => none

/-- A count is an integer that fits 64 bits without a sign. -/
def decodeCount : Json → Option Nat
  | .number (.integer n) => if 0 ≤ n then some n.toNat else none
  | _ => none

/-- The fields of the layout, in the order of their positions. -/
def styleNames : List String := ["indent-width", "use-tabs", "semi"]

def decodeStyle (v : Json) : Option Style := do
  let names := styleNames
  let defaults : Style := {}
  return {
    indentWidth := ← decodeField names v "indent-width" decodeCount defaults.indentWidth
    useTabs := ← decodeField names v "use-tabs" decodeBool defaults.useTabs
    semi := ← decodeField names v "semi" decodeBool defaults.semi }

/-- The fields of how references are followed, in the order of their positions. -/
def refNames : List String := ["external", "max-depth"]

def decodeRefOptions (v : Json) : Option RefOptions := do
  let names := refNames
  let defaults : RefOptions := {}
  return {
    external := ← decodeField names v "external" decodeBool defaults.external
    maxDepth := ← decodeField names v "max-depth" decodeCount defaults.maxDepth }

/-- The fields of options, in the order of their positions. -/
def names : List String :=
  [ "banner-comment", "cwd", "declare-externally-referenced", "enable-const-enums", "style",
    "unreachable-definitions", "ref-options" ]

/-- Options from their JSON form. -/
def ofJson (v : Json) : Option Options := do
  let defaults : Options := {}
  return {
    bannerComment := ← decodeField names v "banner-comment" Json.string? defaults.bannerComment
    cwd := ← decodeField names v "cwd" Json.string? defaults.cwd
    declareExternallyReferenced :=
      ← decodeField names v "declare-externally-referenced" decodeBool
        defaults.declareExternallyReferenced
    enableConstEnums :=
      ← decodeField names v "enable-const-enums" decodeBool defaults.enableConstEnums
    style := ← decodeField names v "style" decodeStyle defaults.style
    unreachableDefinitions :=
      ← decodeField names v "unreachable-definitions" decodeBool defaults.unreachableDefinitions
    refOptions := ← decodeField names v "ref-options" decodeRefOptions defaults.refOptions }

/-- What counts of a text that gives options: the values of the fields. -/
def scope : Json.Scope :=
  let all (names : List String) : Json.Scope := .fields (names.map fun name => (name, .whole))
  .fields (names.map fun name =>
    (name, if name == "style" then all styleNames
      else if name == "ref-options" then all refNames
      else .whole))

/-- Options from JSON text. -/
def read (text : String) : Option Options := (Json.readRepeats scope Json.maxDepth text).bind ofJson

end Options

end Typewright
