import Typewright.Location.Percent
import Typewright.Proofs.Json.Keys
import Typewright.TypeGraph.Basic

/-!
# Valid values

What it means in JSON Schema that a value is valid, for the keywords of basic schemas (`Basic`): types,
constants and enums, lists, objects, combinations, and references to the definitions of the root.

A verdict is `none` as long as it is open: `valid` goes down a number of schemas, references included.
A further step decides more, and never otherwise, so a value is valid if some number of steps says so.
A recursion that leads from a schema to itself without a step into the value stays open.
-/

namespace Typewright

/-! ## Verdicts -/

namespace Verdict

def every (verdicts : List (Option Bool)) : Option Bool :=
  if some false ∈ verdicts then some false else if none ∈ verdicts then none else some true

def any (verdicts : List (Option Bool)) : Option Bool :=
  if some true ∈ verdicts then some true else if none ∈ verdicts then none else some false

/-- Two agreeing verdicts are too many, whatever the open ones say. -/
def exactlyOne (verdicts : List (Option Bool)) : Option Bool :=
  if 2 ≤ verdicts.count (some true) then some false
  else if none ∈ verdicts then none
  else some (verdicts.count (some true) == 1)

variable {verdicts : List (Option Bool)}

theorem every_eq_true : every verdicts = some true ↔ ∀ r ∈ verdicts, r = some true := by
  unfold every
  split
  · rename_i hfalse
    exact ⟨nofun, fun h => nomatch h _ hfalse⟩
  · rename_i hfalse
    split
    · rename_i hnone
      exact ⟨nofun, fun h => nomatch h _ hnone⟩
    · rename_i hnone
      refine ⟨fun _ r hr => ?_, fun _ => rfl⟩
      rcases r with _ | _ | _
      · exact absurd hr hnone
      · exact absurd hr hfalse
      · rfl

theorem any_eq_true : any verdicts = some true ↔ some true ∈ verdicts := by
  unfold any
  split
  · simp_all
  · split <;> simp_all

theorem mem_of_exactlyOne (h : exactlyOne verdicts = some true) : some true ∈ verdicts := by
  unfold exactlyOne at h
  split at h
  · cases h
  · split at h
    · cases h
    · have hcount : verdicts.count (some true) = 1 := eq_of_beq (Option.some.inj h)
      exact List.count_pos_iff.1 (hcount ▸ Nat.one_pos)

/-! ### More decided verdicts -/

/-- A verdict that is the other one, unless the other one is open. -/
def Refines (r r' : Option Bool) : Prop := ∀ b, r = some b → r' = some b

theorem Refines.refl (r : Option Bool) : Refines r r := fun _ h => h

variable {verdicts' : List (Option Bool)}

theorem mem_of_refines (h : List.Forall₂ Refines verdicts verdicts') {b : Bool}
    (hb : some b ∈ verdicts) : some b ∈ verdicts' := by
  induction h with
  | nil => cases hb
  | cons hr _ ih =>
      rcases List.mem_cons.1 hb with rfl | hb
      · exact hr b rfl ▸ List.mem_cons_self
      · exact List.mem_cons_of_mem _ (ih hb)

theorem eq_of_refines (h : List.Forall₂ Refines verdicts verdicts') (hnone : none ∉ verdicts) :
    verdicts = verdicts' := by
  induction h with
  | nil => rfl
  | @cons r r' _ _ hr _ ih =>
      cases r with
      | none => exact absurd List.mem_cons_self hnone
      | some b => rw [hr b rfl, ih fun hmem => hnone (List.mem_cons_of_mem _ hmem)]

theorem count_le_of_refines (h : List.Forall₂ Refines verdicts verdicts') (b : Bool) :
    verdicts.count (some b) ≤ verdicts'.count (some b) := by
  induction h with
  | nil => exact Nat.le_refl _
  | @cons r r' _ _ hr _ ih =>
      rw [List.count_cons, List.count_cons]
      by_cases heq : r = some b
      · rw [hr b heq, heq]
        omega
      · rw [if_neg (by simpa using heq)]
        omega

theorem every_refines (h : List.Forall₂ Refines verdicts verdicts') :
    Refines (every verdicts) (every verdicts') := by
  intro b hb
  by_cases hfalse : some false ∈ verdicts
  · unfold every at hb ⊢
    rwa [if_pos (mem_of_refines h hfalse), ← hb, if_pos]
  · by_cases hnone : none ∈ verdicts
    · simp [every, hfalse, hnone] at hb
    · rwa [← eq_of_refines h hnone]

theorem any_refines (h : List.Forall₂ Refines verdicts verdicts') :
    Refines (any verdicts) (any verdicts') := by
  intro b hb
  by_cases htrue : some true ∈ verdicts
  · unfold any at hb ⊢
    rwa [if_pos (mem_of_refines h htrue), ← hb, if_pos]
  · by_cases hnone : none ∈ verdicts
    · simp [any, htrue, hnone] at hb
    · rwa [← eq_of_refines h hnone]

theorem exactlyOne_refines (h : List.Forall₂ Refines verdicts verdicts') :
    Refines (exactlyOne verdicts) (exactlyOne verdicts') := by
  intro b hb
  by_cases hmany : 2 ≤ verdicts.count (some true)
  · unfold exactlyOne at hb ⊢
    rwa [if_pos (Nat.le_trans hmany (count_le_of_refines h true)), ← hb, if_pos]
  · by_cases hnone : none ∈ verdicts
    · simp [exactlyOne, hmany, hnone] at hb
    · rwa [← eq_of_refines h hnone]

end Verdict

/-! ## Types -/

/-- A number without a fraction. -/
def Number.isInteger : Number → Bool
  | .integer _ => true
  | .double x => x.ratio.1 % x.ratio.2 == 0

/-- Whether a value is of the type with a name. -/
def Json.hasType (name : String) : Json → Bool
  | .null => name == "null"
  | .bool _ => name == "boolean"
  | .number n => name == "number" || name == "integer" && n.isInteger
  | .string _ => name == "string"
  | .array _ => name == "array"
  | .object _ => name == "object"

namespace Schema

/-! ## References -/

/-- The key of the definition that a reference points at: its fragment, decoded, is the pointer
`/definitions/key`. -/
def definitionKey? (reference : String) : Option String :=
  match reference.toList with
  | '#' :: fragment =>
    match Text.decode? (Percent.decode fragment) with
    | some ('/' :: steps) =>
      match Pointer.segments steps with
      | ["definitions", key] => some key
      | _ => none
    | _ => none
  | _ => none

/-- The definition of a root that a reference points at. -/
def definition? (root : Json) (reference : String) : Option Json :=
  (definitionKey? reference).bind fun key => (root.member? "definitions").bind (·.member? key)

/-! ## Keywords -/

section Keywords

variable (same : Json → Json → Bool) (F : Json → Json → Option Bool) (ms : Members) (v : Json)

def typeVerdict : Option Bool :=
  match ms.lookup "type" with
  | some (.string name) => some (v.hasType name)
  | _ => some true

def constVerdict : Option Bool :=
  match ms.lookup "const" with
  | some value => some (same value v)
  | none => some true

def enumVerdict : Option Bool :=
  match ms.lookup "enum" with
  | some (.array values) => some (values.any (same · v))
  | _ => some true

def itemsVerdict : Option Bool :=
  match ms.lookup "items", v with
  | some item, .array xs => Verdict.every (xs.map (F item))
  | _, _ => some true

def requiredVerdict : Option Bool :=
  match ms.lookup "required", v with
  | some (.array keys), .object fields =>
    some (keys.all fun key => key.string?.all (Members.has fields))
  | _, _ => some true

/-- The schema that `properties` has for a key. -/
def property? (key : String) : Option Json :=
  ((ms.lookup "properties").bind Json.members?).bind (·.lookup key)

/-- What `properties`, or else `additionalProperties`, says of a member of an object. -/
def fieldVerdict (field : String × Json) : Option Bool :=
  match property? ms field.1 with
  | some schema => F schema field.2
  | none =>
    match ms.lookup "additionalProperties" with
    | some schema => F schema field.2
    | none => some true

def fieldsVerdict : Option Bool :=
  match v with
  | .object fields => Verdict.every (fields.map (fieldVerdict F ms))
  | _ => some true

/-- What a keyword with a list of schemas says, where `decide` makes one verdict of theirs. -/
def choiceVerdict (keyword : String) (decide : List (Option Bool) → Option Bool) : Option Bool :=
  match ms.lookup keyword with
  | some (.array items) => decide (items.map (F · v))
  | _ => some true

/-- What the keywords of a schema say of a value. -/
def keywordVerdicts : List (Option Bool) :=
  [typeVerdict ms v, constVerdict same ms v, enumVerdict same ms v, itemsVerdict F ms v,
    requiredVerdict ms v, fieldsVerdict F ms v, choiceVerdict F ms v "allOf" Verdict.every,
    choiceVerdict F ms v "anyOf" Verdict.any, choiceVerdict F ms v "oneOf" Verdict.exactlyOne]

/-- What a schema says of a value, where `F` says what the schemas in it say. A reference says what
its target says, and its other keywords say nothing. -/
def verdict (root : Json) : Json → Option Bool
  | .bool b => some b
  | .object ms =>
    match (ms.lookup "$ref").bind Json.string? with
    | some reference => (definition? root reference).bind (F · v)
    | none => Verdict.every (keywordVerdicts same F ms v)
  | _ => none

end Keywords

/-- Whether a value is valid under a schema in the document `root`, as far as that many steps decide
it. `same` says which values are equal; to JSON Schema `1` and `1.0` are. -/
def valid (same : Json → Json → Bool) (root : Json) : Nat → Json → Json → Option Bool
  | 0, _, _ => none
  | steps + 1, schema, v => verdict same (valid same root steps) v root schema

/-! ## Basic schemas -/

/-- The members of a schema that do not say which values are valid. -/
def annotations : List String := ["title", "description", "definitions"]

/-- An object schema with no other keywords than some. -/
def Only (keys : List String) (ms : Members) : Prop := ∀ m ∈ ms, m.1 ∈ keys ++ annotations

/-- The schemas that are built from types, constants, enums, lists, objects, combinations and
references to definitions. A property is not called as an index signature is. -/
inductive Basic : Json → Prop
  | bool (b : Bool) : Basic (.bool b)
  | anything {ms : Members} (only : Only [] ms) : Basic (.object ms)
  | scalar {ms : Members} {name : String} (only : Only ["type"] ms)
      (type : ms.lookup "type" = some (.string name))
      (scalar : name ∈ ["string", "number", "integer", "boolean", "null"]) : Basic (.object ms)
  | constant {ms : Members} {value : Json} (only : Only ["const"] ms)
      (const : ms.lookup "const" = some value) : Basic (.object ms)
  | enumeration {ms : Members} {values : List Json} (only : Only ["enum"] ms)
      (enum : ms.lookup "enum" = some (.array values)) : Basic (.object ms)
  | list {ms : Members} {item : Json} (only : Only ["type", "items"] ms)
      (type : ms.lookup "type" = some (.string "array")) (items : ms.lookup "items" = some item)
      (basic : Basic item) : Basic (.object ms)
  | object {ms named : Members}
      (only : Only ["type", "properties", "required", "additionalProperties"] ms)
      (type : ms.lookup "type" = some (.string "object"))
      (properties : (ms.lookup "properties").getD (.object []) = .object named)
      (keys : ∀ m ∈ named, m.1 ≠ indexSignature) (basic : ∀ m ∈ named, Basic m.2)
      (further : ∀ schema, ms.lookup "additionalProperties" = some schema → Basic schema) :
      Basic (.object ms)
  | choice {ms : Members} {keyword : String} {items : List Json}
      (combines : keyword ∈ ["allOf", "anyOf", "oneOf"]) (only : Only [keyword] ms)
      (choice : ms.lookup keyword = some (.array items)) (basic : ∀ s ∈ items, Basic s) :
      Basic (.object ms)
  | reference {ms : Members} {reference key : String} (only : Only ["$ref"] ms)
      (ref : ms.lookup "$ref" = some (.string reference))
      (definition : definitionKey? reference = some key) : Basic (.object ms)

/-- A basic schema with basic definitions. -/
structure BasicRoot (schema : Json) : Prop where
  basic : Basic schema
  definitions : ∀ value, schema.member? "definitions" = some value →
    ∃ named, value = .object named ∧ ∀ m ∈ named, Basic m.2

theorem Basic.isSchema {schema : Json} (h : Basic schema) : schema.isSchema = true := by
  cases h <;> rfl

theorem Only.lookup_eq_none {keys : List String} {ms : Members} (h : Only keys ms) {key : String}
    (hk : key ∉ keys ++ annotations) : ms.lookup key = none := by
  refine List.lookup_eq_none_iff.2 fun m hm => bne_iff_ne.2 ?_
  rintro rfl
  exact hk (h m hm)

/-- A basic schema with a reference is a reference to a definition. -/
theorem Basic.exists_of_reference {schema : Json} {reference : String} (h : Basic schema)
    (href : (schema.member? "$ref").bind Json.string? = some reference) :
    ∃ ms key, schema = .object ms ∧ ms.lookup "$ref" = some (.string reference) ∧
      definitionKey? reference = some key := by
  have habsurd : ∀ {keys : List String} {ms : Members}, Only keys ms →
      "$ref" ∉ keys ++ annotations → ((Json.object ms).member? "$ref").bind Json.string? = none := by
    intro keys ms only hkeys
    rw [Json.member?, Json.members?, Option.bind_some, only.lookup_eq_none hkeys]
    rfl
  cases h with
  | bool => cases href
  | @reference ms text key only hlookup hkey =>
      rw [Json.member?, Json.members?, Option.bind_some, hlookup] at href
      obtain rfl := Option.some.inj href
      exact ⟨ms, key, rfl, hlookup, hkey⟩
  | choice combines only =>
      refine absurd (habsurd only ?_) (by rw [href]; exact Option.some_ne_none _)
      simp only [List.mem_cons, List.not_mem_nil, or_false] at combines
      rcases combines with rfl | rfl | rfl <;> decide
  | anything only | scalar only | constant only | enumeration only | list only | object only =>
      exact absurd (habsurd only (by decide)) (by rw [href]; exact Option.some_ne_none _)

/-! ## What is valid -/

section Valid

variable {same : Json → Json → Bool} {F G : Json → Json → Option Bool} {root : Json} {ms : Members}
  {v : Json}

/-- What each keyword says of a value that all of them agree to. -/
structure Agreed (same : Json → Json → Bool) (F : Json → Json → Option Bool) (ms : Members)
    (v : Json) : Prop where
  type : ∀ name, ms.lookup "type" = some (.string name) → v.hasType name = true
  const : ∀ value, ms.lookup "const" = some value → same value v = true
  enum : ∀ values, ms.lookup "enum" = some (.array values) → ∃ value ∈ values, same value v = true
  items : ∀ item xs, ms.lookup "items" = some item → v = .array xs → ∀ x ∈ xs, F item x = some true
  required : ∀ keys fields, ms.lookup "required" = some (.array keys) → v = .object fields →
    ∀ key, .string key ∈ keys → key ∈ Members.keys fields
  property : ∀ fields, v = .object fields → ∀ f ∈ fields, ∀ schema,
    property? ms f.1 = some schema → F schema f.2 = some true
  further : ∀ fields, v = .object fields → ∀ f ∈ fields, property? ms f.1 = none → ∀ schema,
    ms.lookup "additionalProperties" = some schema → F schema f.2 = some true
  allOf : ∀ items, ms.lookup "allOf" = some (.array items) → ∀ s ∈ items, F s v = some true
  someOf : ∀ keyword items, keyword = "anyOf" ∨ keyword = "oneOf" →
    ms.lookup keyword = some (.array items) → ∃ s ∈ items, F s v = some true

theorem agreed_of_keywordVerdicts (h : ∀ r ∈ keywordVerdicts same F ms v, r = some true) :
    Agreed same F ms v := by
  simp only [keywordVerdicts, List.forall_mem_cons] at h
  obtain ⟨htype, hconst, henum, hitems, hrequired, hfields, hall, hany, hone, -⟩ := h
  have hfield : ∀ fields, v = .object fields → ∀ f ∈ fields, fieldVerdict F ms f = some true := by
    rintro fields rfl f hf
    exact Verdict.every_eq_true.1 hfields _ (List.mem_map_of_mem hf)
  refine ⟨fun name hl => ?_, fun value hl => ?_, fun values hl => ?_, ?_, ?_, ?_, ?_,
    fun items hl s hs => ?_, ?_⟩
  · simpa only [typeVerdict, hl, Option.some.injEq] using htype
  · simpa only [constVerdict, hl, Option.some.injEq] using hconst
  · simpa only [enumVerdict, hl, Option.some.injEq, List.any_eq_true] using henum
  · rintro item xs hl rfl x hx
    simp only [itemsVerdict, hl] at hitems
    exact Verdict.every_eq_true.1 hitems _ (List.mem_map_of_mem hx)
  · rintro keys fields hl rfl key hkey
    simp only [requiredVerdict, hl, Option.some.injEq, List.all_eq_true] at hrequired
    exact Members.has_eq_true_iff.1 (hrequired _ hkey)
  · intro fields heq f hf schema hs
    have := hfield fields heq f hf
    rwa [fieldVerdict, hs] at this
  · intro fields heq f hf hnone schema hs
    have := hfield fields heq f hf
    rwa [fieldVerdict, hnone, hs] at this
  · simp only [choiceVerdict, hl] at hall
    exact Verdict.every_eq_true.1 hall _ (List.mem_map_of_mem hs)
  · rintro keyword items (rfl | rfl) hl
    · simp only [choiceVerdict, hl] at hany
      exact List.mem_map.1 (Verdict.any_eq_true.1 hany)
    · simp only [choiceVerdict, hl] at hone
      exact List.mem_map.1 (Verdict.mem_of_exactlyOne hone)

/-- All keywords agree to what a schema without reference agrees to. -/
theorem agreed_of_verdict (h : verdict same F v root (.object ms) = some true)
    (href : (ms.lookup "$ref").bind Json.string? = none) : Agreed same F ms v := by
  simp only [verdict, href] at h
  exact agreed_of_keywordVerdicts (Verdict.every_eq_true.1 h)

/-- What a reference agrees to, its target agrees to. -/
theorem exists_of_verdict_reference {reference key : String}
    (h : verdict same F v root (.object ms) = some true)
    (href : ms.lookup "$ref" = some (.string reference))
    (hkey : definitionKey? reference = some key) :
    ∃ schema, (root.member? "definitions").bind (·.member? key) = some schema ∧
      F schema v = some true := by
  simp only [verdict, href, Option.bind_some, Json.string?] at h
  obtain ⟨schema, hs, h⟩ := Option.bind_eq_some_iff.1 h
  rw [definition?, hkey] at hs
  exact ⟨schema, hs, h⟩

/-! ## More steps -/

theorem forall₂_map_refines {α : Type} {xs : List α} {f g : α → Option Bool}
    (h : ∀ x, Verdict.Refines (f x) (g x)) :
    List.Forall₂ Verdict.Refines (xs.map f) (xs.map g) := by
  induction xs with
  | nil => exact .nil
  | cons x rest ih => exact .cons (h x) ih

section Refinement

variable (hFG : ∀ s v, Verdict.Refines (F s v) (G s v))

include hFG

theorem fieldVerdict_refines (field : String × Json) :
    Verdict.Refines (fieldVerdict F ms field) (fieldVerdict G ms field) := by
  unfold fieldVerdict
  split
  · exact hFG _ _
  · split
    · exact hFG _ _
    · exact .refl _

theorem choiceVerdict_refines (keyword : String) {decide : List (Option Bool) → Option Bool}
    (hd : ∀ {rs rs'}, List.Forall₂ Verdict.Refines rs rs' → Verdict.Refines (decide rs) (decide rs')) :
    Verdict.Refines (choiceVerdict F ms v keyword decide) (choiceVerdict G ms v keyword decide) := by
  unfold choiceVerdict
  split
  · exact hd (forall₂_map_refines fun s => hFG s v)
  · exact .refl _

theorem keywordVerdicts_refines : List.Forall₂ Verdict.Refines (keywordVerdicts same F ms v)
    (keywordVerdicts same G ms v) := by
  have hitems : Verdict.Refines (itemsVerdict F ms v) (itemsVerdict G ms v) := by
    unfold itemsVerdict
    split
    · exact Verdict.every_refines (forall₂_map_refines (hFG _))
    · exact .refl _
  have hfields : Verdict.Refines (fieldsVerdict F ms v) (fieldsVerdict G ms v) := by
    unfold fieldsVerdict
    split
    · exact Verdict.every_refines (forall₂_map_refines (fieldVerdict_refines hFG))
    · exact .refl _
  exact .cons (.refl _) (.cons (.refl _) (.cons (.refl _) (.cons hitems (.cons (.refl _)
    (.cons hfields (.cons (choiceVerdict_refines hFG _ Verdict.every_refines)
      (.cons (choiceVerdict_refines hFG _ Verdict.any_refines)
        (.cons (choiceVerdict_refines hFG _ Verdict.exactlyOne_refines) .nil))))))))

theorem verdict_refines (schema : Json) :
    Verdict.Refines (verdict same F v root schema) (verdict same G v root schema) := by
  intro b hb
  cases schema with
  | object ms =>
      simp only [verdict] at hb ⊢
      cases href : (ms.lookup "$ref").bind Json.string? with
      | some reference =>
          simp only [href] at hb ⊢
          obtain ⟨target, ht, hb⟩ := Option.bind_eq_some_iff.1 hb
          exact Option.bind_eq_some_iff.2 ⟨target, ht, hFG target v b hb⟩
      | none =>
          simp only [href] at hb ⊢
          exact Verdict.every_refines (keywordVerdicts_refines hFG) b hb
  | _ => exact hb

end Refinement

/-- What some steps decide, more steps decide in the same way. -/
theorem valid_mono {steps steps' : Nat} (h : steps ≤ steps') (schema : Json) :
    Verdict.Refines (valid same root steps schema v) (valid same root steps' schema v) := by
  induction steps generalizing steps' schema v with
  | zero => exact nofun
  | succ steps ih =>
      obtain ⟨steps', rfl⟩ : ∃ n, steps' = n + 1 := ⟨steps' - 1, by omega⟩
      exact verdict_refines (fun s v => ih (Nat.le_of_succ_le_succ h) s) schema

end Valid

end Schema

end Typewright
