import Typewright.Schema.Children
import Typewright.Json.Printer

/-!
# What a schema stands for

`Schema.form` decides from its keywords which kind of type a schema stands for. The keywords are
tried in a fixed order, and the first that applies decides. A `type` list stands for one branch
for each of its entries; `entryType` is the type under which the schema, or one of its branches,
is read.
-/

namespace Typewright.Schema

/-- The kinds of type that a schema can stand for, with the parts they are built from. -/
inductive Form where
  | any
  | never
  /-- Verbatim type text. -/
  | verbatim (text : String)
  /-- All of a list of schemas, under the keyword. -/
  | allOf (items : List Json)
  /-- Some of a list of schemas, under the keyword. -/
  | someOf (keyword : String) (items : List Json)
  /-- One branch for each entry of a `type` list. -/
  | branches (count : Nat)
  | null
  | tuple (items : List Json)
  | listOf (item : Json)
  | enumeration (values : List Json)
  | constant (value : Json)
  | string
  | number
  | boolean
  | anyList
  | object
  /-- An object with described members. -/
  | interface (members : Members)
  /-- Neither an object nor a boolean. -/
  | invalid

/-- The entries of a `type` list. -/
def typeList (schema : Json) : List Json := ((schema.member? "type").bind Json.items?).getD []

/-- The schema itself and the branches of its `type` list. -/
def variants (schema : Json) : List (Option Nat) :=
  none :: (List.range (typeList schema).length).map some

/-- The type under which a schema or one of its branches is read. -/
def entryType (ms : Members) : Option Nat → Option Json
  | none => ms.lookup "type"
  | some i => (typeList (.object ms))[i]?

/-- Whether an object schema describes members. -/
def describesMembers (unreachableDefinitions : Bool) (ms : Members) : Bool :=
  ms.has "properties" || ms.has "patternProperties" || ms.has "tsExtends"
    || (match ms.lookup "additionalProperties" with
      | some (.object _) | some (.bool false) => true
      | _ => false)
    || (unreachableDefinitions && (ms.has "definitions" || ms.has "$defs"))

/-- What the default value of a schema without type says. -/
def defaultForm : Option Json → Form
  | some (.bool _) => .boolean
  | some (.number _) => .number
  | some (.string _) => .string
  | _ => .any

/-- The form of an object schema by its type name, after all keywords that come before it. -/
def namedForm (unreachableDefinitions : Bool) (ms : Members) (typeName : Option String) : Form :=
  let described := describesMembers unreachableDefinitions ms
  let rest := if described then .interface ms else defaultForm (ms.lookup "default")
  match typeName with
  | some "string" => .string
  | some "number" => .number
  | some "integer" => .number
  | some "boolean" => .boolean
  | some "any" => .any
  | some "array" => .anyList
  | some "object" => if described then .interface ms else .object
  | none => rest
  | some _ => .any

/-- The form of an object schema by `enum`, `const` and its type name. -/
def valueForm (unreachableDefinitions : Bool) (ms : Members) (typeName : Option String) : Form :=
  match ms.lookup "enum" with
  | some (.array values) => .enumeration values
  | _ =>
    match ms.lookup "const" with
    | some value => .constant value
    | none => namedForm unreachableDefinitions ms typeName

/-- The form of an object schema by `items` and what comes after it. -/
def itemsForm (unreachableDefinitions : Bool) (ms : Members) (typeName : Option String) : Form :=
  match ms.lookup "items" with
  | some (.array items) => .tuple items
  | some (.object item) => .listOf (.object item)
  | some (.bool b) => .listOf (.bool b)
  | _ => valueForm unreachableDefinitions ms typeName

/-- The form of an object schema by its type and what comes after it. -/
def typeForm (unreachableDefinitions : Bool) (ms : Members) (type : Option Json) : Form :=
  match type with
  | some (.array types) => .branches types.length
  | some (.string "null") => .null
  | _ => itemsForm unreachableDefinitions ms (type.bind Json.string?)

/-- The form of an object schema by a list of alternatives and what comes after it. -/
def choiceForm (unreachableDefinitions : Bool) (ms : Members) (type : Option Json) : Form :=
  match ms.lookup "allOf" with
  | some (.array items) => .allOf items
  | _ =>
    match ms.lookup "anyOf" with
    | some (.array items) => .someOf "anyOf" items
    | _ =>
      match ms.lookup "oneOf" with
      | some (.array items) => .someOf "oneOf" items
      | _ => typeForm unreachableDefinitions ms type

/-- The form of an object schema. -/
def objectForm (unreachableDefinitions : Bool) (ms : Members) (type : Option Json) : Form :=
  match ms.lookup "tsType" with
  | some (.string text) => .verbatim text
  | _ => choiceForm unreachableDefinitions ms type

/-- The form of a schema, or of one of its branches. -/
def form (unreachableDefinitions : Bool) (variant : Option Nat) : Json → Form
  | .bool true => .any
  | .bool false => .never
  | .object ms => objectForm unreachableDefinitions ms (entryType ms variant)
  | _ => .invalid

/-! ## Sizes of the parts -/

/-- The size of what a form is built from. -/
noncomputable def Form.partSize : Form → Nat
  | .allOf items | .someOf _ items | .tuple items => sizeOf items
  | .listOf item => sizeOf item
  | .interface ms => sizeOf ms
  | _ => 0

theorem partSize_defaultForm (v : Option Json) : (defaultForm v).partSize = 0 := by
  unfold defaultForm; split <;> rfl

theorem partSize_namedForm (u : Bool) (ms : Members) (t : Option String) :
    (namedForm u ms t).partSize ≤ sizeOf ms := by
  unfold namedForm
  have h : (if describesMembers u ms = true then Form.interface ms
      else defaultForm (ms.lookup "default")).partSize ≤ sizeOf ms := by
    split
    · exact Nat.le_refl _
    · rw [partSize_defaultForm]; exact Nat.zero_le _
  dsimp only
  split <;> first | exact Nat.zero_le _ | exact h | skip
  split
  · exact Nat.le_refl _
  · exact Nat.zero_le _

theorem partSize_valueForm (u : Bool) (ms : Members) (t : Option String) :
    (valueForm u ms t).partSize ≤ sizeOf ms := by
  unfold valueForm
  split
  · exact Nat.zero_le _
  · split
    · exact Nat.zero_le _
    · exact partSize_namedForm u ms t

theorem partSize_itemsForm (u : Bool) (ms : Members) (t : Option String) :
    (itemsForm u ms t).partSize ≤ sizeOf ms := by
  unfold itemsForm
  split
  · rename_i h
    have := sizeOf_lookup h
    simp only [Json.array.sizeOf_spec] at this
    simp only [Form.partSize]; omega
  · rename_i h; exact Nat.le_of_lt (sizeOf_lookup h)
  · rename_i h; exact Nat.le_of_lt (sizeOf_lookup h)
  · exact partSize_valueForm u ms t

theorem partSize_typeForm (u : Bool) (ms : Members) (t : Option Json) :
    (typeForm u ms t).partSize ≤ sizeOf ms := by
  unfold typeForm
  split
  · exact Nat.zero_le _
  · exact Nat.zero_le _
  · exact partSize_itemsForm u ms _

theorem sizeOf_items_of_lookup {ms : Members} {key : String} {items : List Json}
    (h : ms.lookup key = some (.array items)) : sizeOf items ≤ sizeOf ms := by
  have := sizeOf_lookup h
  simp only [Json.array.sizeOf_spec] at this
  omega

theorem partSize_choiceForm (u : Bool) (ms : Members) (t : Option Json) :
    (choiceForm u ms t).partSize ≤ sizeOf ms := by
  unfold choiceForm
  split
  · rename_i h; exact sizeOf_items_of_lookup h
  · split
    · rename_i h; exact sizeOf_items_of_lookup h
    · split
      · rename_i h; exact sizeOf_items_of_lookup h
      · exact partSize_typeForm u ms t

/-- What a form is built from is smaller than its schema. -/
theorem partSize_form (u : Bool) (variant : Option Nat) (schema : Json) :
    (form u variant schema).partSize < sizeOf schema := by
  unfold form
  split
  · simp [Form.partSize]
  · simp [Form.partSize]
  · rename_i ms
    simp only [Json.object.sizeOf_spec]
    unfold objectForm
    split
    · simp only [Form.partSize]; omega
    · have := partSize_choiceForm u ms (entryType ms variant); omega
  · simp only [Form.partSize]
    cases schema with
    | object ms => rw [Json.object.sizeOf_spec]; omega
    | array vs => rw [Json.array.sizeOf_spec]; omega
    | string s => rw [Json.string.sizeOf_spec]; omega
    | number n => rw [Json.number.sizeOf_spec]; omega
    | bool b => rw [Json.bool.sizeOf_spec]; omega
    | null => exact Nat.one_pos

end Typewright.Schema
