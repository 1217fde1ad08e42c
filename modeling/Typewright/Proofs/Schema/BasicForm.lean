import Typewright.Proofs.Schema.Normal
import Typewright.Proofs.Schema.Validity
import Typewright.Schema.Form

/-!
# What basic schemas stand for

In normal form a basic schema has the keywords that it had, each with its schemas in normal form, and
perhaps a word on further properties. So it stands for what its one keyword or its type says.
-/

namespace Typewright.Schema

variable {ms ms' : Members} {key : String}

/-! ## Keywords in normal form -/

theorem lookup_openObject (h : key ≠ "additionalProperties") :
    (openObject ms).lookup key = ms.lookup key := by
  unfold openObject
  dsimp only
  split
  · exact Members.lookup_put_of_ne h
  · rfl

theorem lookup_listRequired (h : key ≠ "required") : (listRequired ms).lookup key = ms.lookup key := by
  unfold listRequired
  split
  · exact Members.lookup_put_of_ne h
  · rfl

theorem lookup_unwrapType (h : key ≠ "type" ∨ ∀ v, ms.lookup "type" ≠ some (.array [v])) :
    (unwrapType ms).lookup key = ms.lookup key := by
  unfold unwrapType
  split
  · rename_i v hl
    exact Members.lookup_put_of_ne (h.resolve_right fun hno => hno v hl)
  · rfl

/-- A `type` that is no list stays as it is. -/
theorem lookup_type_normalizeMembers (h : ∀ v, ms.lookup "type" ≠ some (.array [v])) :
    (normalizeMembers ms).lookup "type" = ms.lookup "type" := by
  unfold normalizeMembers
  split
  · rfl
  · rw [lookup_openObject (by decide), lookup_listRequired (by decide), lookup_unwrapType (.inr h)]

/-- What is required stays as it is, or is an empty list. -/
theorem lookup_required_normalizeMembers (ms : Members) :
    (normalizeMembers ms).lookup "required" = ms.lookup "required" ∨
      (normalizeMembers ms).lookup "required" = some (.array []) := by
  unfold normalizeMembers
  split
  · exact .inl rfl
  · have hsame : (unwrapType ms).lookup "required" = ms.lookup "required" :=
      lookup_unwrapType (.inl (by decide))
    rw [lookup_openObject (by decide), ← hsame]
    unfold listRequired
    split
    · exact .inr (Members.lookup_put_self ..)
    · exact .inl rfl

/-- The members of an object schema in normal form, perhaps completed as a root. -/
structure NormalOf (ms ms' : Members) : Prop where
  plain : ∀ key, key ∉ "title" :: ruled →
    ms'.lookup key = (ms.lookup key).map (normalizeValue key)
  type : (∀ v, ms.lookup "type" ≠ some (.array [v])) → ms'.lookup "type" = ms.lookup "type"
  required : ms'.lookup "required" = ms.lookup "required" ∨
    ms'.lookup "required" = some (.array [])
  further : ms'.lookup "additionalProperties" =
      (ms.lookup "additionalProperties").map (normalizeValue "additionalProperties") ∨
    ms.lookup "additionalProperties" = none ∧
      ms'.lookup "additionalProperties" = some (.bool true)

theorem normalOf_normalMembers (hd : (Json.object ms).Distinct) : NormalOf ms (normalMembers ms) := by
  have hsame : ∀ key, shape? key = none → (normalizeEach ms).lookup key = ms.lookup key := by
    intro key hkey
    rw [lookup_normalizeEach, show normalizeValue key = id from
      funext fun v => by rw [normalizeValue, hkey]; rfl]
    exact Option.map_id_apply
  refine ⟨fun key hkey => lookup_normalMembers hd fun h => hkey (List.mem_cons_of_mem _ h),
    fun h => ?_, ?_, ?_⟩
  · rw [lookup_settle hd, lookup_type_normalizeMembers, hsame _ (by decide)]
    rwa [hsame _ (by decide)]
  · rw [lookup_settle hd, ← hsame "required" (by decide)]
    exact lookup_required_normalizeMembers _
  · rw [lookup_settle hd, ← lookup_normalizeEach]
    refine (lookup_further_normalizeMembers (normalizeEach ms)).imp id fun h => ⟨?_, h.2⟩
    have hnone := h.1
    rwa [lookup_normalizeEach, Option.map_eq_none_iff] at hnone

theorem NormalOf.completeRoot (h : NormalOf ms ms') (name : String) :
    NormalOf ms (completeRoot name ms') := by
  have hlookup : ∀ {key}, key ≠ "required" → key ≠ "title" →
      (Schema.completeRoot name ms').lookup key = ms'.lookup key := lookup_completeRoot name ms'
  refine ⟨fun key hkey => ?_, fun htype => ?_, ?_, ?_⟩
  · rw [hlookup (fun heq => hkey (by rw [heq]; decide)) fun heq => hkey (by rw [heq]; decide)]
    exact h.plain key hkey
  · rw [hlookup (by decide) (by decide)]
    exact h.type htype
  · unfold Schema.completeRoot
    split
    · exact h.required
    · dsimp only
      have htitle : ∀ ns : Members, (if ns.has "title" then ns
          else ns.put "title" (.string name)).lookup "required" = ns.lookup "required" := by
        intro ns
        split
        · rfl
        · exact Members.lookup_put_of_ne (by decide)
      rw [htitle]
      split
      · exact h.required
      · exact .inr (Members.lookup_put_self ..)
  · rw [hlookup (by decide) (by decide)]
    exact h.further

/-- The value that a schema has in a root document in normal form. -/
def NormalAs (v v' : Json) : Prop :=
  (∀ b, v = .bool b → v' = .bool b) ∧ ∀ ms, v = .object ms → ∃ ms', v' = .object ms' ∧ NormalOf ms ms'

theorem normalAs_normalizeFragment {v : Json} (hd : v.Distinct) : NormalAs v (normalizeFragment v) := by
  constructor
  · rintro b rfl
    exact normalizeFragment_of_not_object rfl
  · rintro ms rfl
    exact ⟨_, normalizeFragment_object ms, normalOf_normalMembers hd⟩

/-- The schemas inside a root stand at their places in the root in normal form. -/
theorem exists_at?_normalize (name : String) {root v : Json} {path : String} (hd : root.Distinct)
    (hv : (path, v) ∈ positions "#" root) :
    ∃ v', (normalize name root).at? path = some v' ∧ NormalAs v v' := by
  obtain ⟨hmem, hdv⟩ := mem_positions_normalizeFragment hd _ hv
  have hself : (normalize name root).at? "#" = some (normalize name root) := rfl
  have hat := at?_of_mem_positions hself (distinct_normalize name hd)
  cases root with
  | object ms =>
      have hroot : (Json.object ms).at? "#" = some (.object ms) := rfl
      rw [normalizeFragment_object, positions_object] at hmem
      rcases List.mem_cons.1 hmem with heq | hmem
      · obtain ⟨rfl, -⟩ := Prod.mk.inj heq
        obtain rfl := Option.some.inj (hroot.symm.trans (at?_of_mem_positions hroot hd _ hv).1)
        refine ⟨_, hself, nofun, fun ms' hms => ?_⟩
        obtain rfl := Json.object.inj hms
        exact ⟨_, normalize_object name ms, (normalOf_normalMembers hd).completeRoot name⟩
      · refine ⟨normalizeFragment v, (hat (path, normalizeFragment v) ?_).1,
          normalAs_normalizeFragment hdv⟩
        rw [normalize_object, positions_object, children_completeRoot]
        exact List.mem_cons_of_mem _ hmem
  | _ =>
      rw [normalizeFragment_of_not_object rfl] at hmem
      refine ⟨_, (hat (path, normalizeFragment v) ?_).1, normalAs_normalizeFragment hdv⟩
      rwa [normalize_of_not_object name rfl]

/-! ## Forms -/

section Forms

variable {keys : List String} (h : NormalOf ms ms') (only : Only keys ms)

include h

theorem NormalOf.lookup_type {name : String} (type : ms.lookup "type" = some (.string name)) :
    ms'.lookup "type" = some (.string name) := by
  rw [h.type (fun v => by rw [type]; exact fun heq => by cases heq), type]

theorem NormalOf.lookup_eq_some {value : Json} (hl : ms.lookup key = some value)
    (hr : key ∉ "title" :: ruled) : ms'.lookup key = some (normalizeValue key value) := by
  rw [h.plain key hr, hl]
  rfl

include only

theorem NormalOf.lookup_eq_none (key : String) (hk : key ∉ keys ++ annotations)
    (hr : key ∉ "title" :: ruled) : ms'.lookup key = none := by
  rw [h.plain key hr, only.lookup_eq_none hk]
  rfl

theorem NormalOf.lookup_type_eq_none (hk : "type" ∉ keys ++ annotations) :
    ms'.lookup "type" = none := by
  have hnone := only.lookup_eq_none hk
  rw [h.type (fun v => by rw [hnone]; exact fun heq => by cases heq), hnone]

/-- Nothing that comes before the type decides the form. -/
theorem NormalOf.form_eq_typeForm
    (hk : ∀ key ∈ ["tsType", "allOf", "anyOf", "oneOf"], key ∉ keys ++ annotations) :
    form false none (.object ms') = typeForm false ms' (ms'.lookup "type") := by
  have hnone : ∀ key ∈ ["tsType", "allOf", "anyOf", "oneOf"], ms'.lookup key = none := by
    intro key hkey
    refine h.lookup_eq_none only key (hk key hkey) ?_
    revert key
    decide
  simp only [List.forall_mem_cons] at hnone
  obtain ⟨htsType, hallOf, hanyOf, honeOf, -⟩ := hnone
  simp only [form, objectForm, choiceForm, entryType, htsType, hallOf, hanyOf, honeOf]

/-- Without a word on members no members are described. -/
theorem NormalOf.describesMembers_eq_false
    (hk : ∀ key ∈ ["properties", "patternProperties", "tsExtends", "additionalProperties"],
      key ∉ keys ++ annotations) : describesMembers false ms' = false := by
  simp only [List.forall_mem_cons] at hk
  obtain ⟨hproperties, hpatterns, hextends, hfurther, -⟩ := hk
  have hnone := only.lookup_eq_none hfurther
  have hopen : ms'.lookup "additionalProperties" = none ∨
      ms'.lookup "additionalProperties" = some (.bool true) := by
    rcases h.further with heq | ⟨-, heq⟩
    · exact .inl (by rw [heq, hnone]; rfl)
    · exact .inr heq
  simp only [describesMembers, Members.has, h.lookup_eq_none only _ hproperties (by decide),
    h.lookup_eq_none only _ hpatterns (by decide), h.lookup_eq_none only _ hextends (by decide)]
  rcases hopen with heq | heq <;> rw [heq] <;> rfl

/-- Nothing that comes between the type and its name decides the form. -/
theorem NormalOf.itemsForm_eq_namedForm
    (hk : ∀ key ∈ ["items", "enum", "const"], key ∉ keys ++ annotations) (name : Option String) :
    itemsForm false ms' name = namedForm false ms' name := by
  simp only [List.forall_mem_cons] at hk
  obtain ⟨hitems, henum, hconst, -⟩ := hk
  simp only [itemsForm, valueForm, h.lookup_eq_none only _ hitems (by decide),
    h.lookup_eq_none only _ henum (by decide), h.lookup_eq_none only _ hconst (by decide)]

end Forms

theorem typeForm_none (u : Bool) (ms : Members) : typeForm u ms none = itemsForm u ms none := rfl

theorem typeForm_of_ne_null {name : String} (hname : name ≠ "null") (u : Bool) (ms : Members) :
    typeForm u ms (some (.string name)) = itemsForm u ms (some name) := by
  unfold typeForm
  split
  · rename_i heq
    cases heq
  · rename_i heq
    exact absurd (Json.string.inj (Option.some.inj heq)) hname
  · rfl

namespace NormalOf

variable (h : NormalOf ms ms')

include h

theorem form_anything (only : Only [] ms) : form false none (.object ms') = .any := by
  rw [h.form_eq_typeForm only (by decide), h.lookup_type_eq_none only (by decide), typeForm_none,
    h.itemsForm_eq_namedForm only (by decide)]
  simp only [namedForm, h.describesMembers_eq_false only (by decide),
    h.lookup_eq_none only "default" (by decide) (by decide), Bool.false_eq_true, if_false,
    defaultForm]

theorem form_scalar {name : String} (only : Only ["type"] ms)
    (type : ms.lookup "type" = some (.string name)) (hname : name ≠ "null") :
    form false none (.object ms') = namedForm false ms' (some name) := by
  rw [h.form_eq_typeForm only (by decide), h.lookup_type type, typeForm_of_ne_null hname,
    h.itemsForm_eq_namedForm only (by decide)]

theorem form_null (only : Only ["type"] ms) (type : ms.lookup "type" = some (.string "null")) :
    form false none (.object ms') = .null := by
  rw [h.form_eq_typeForm only (by decide), h.lookup_type type]
  rfl

theorem form_constant {value : Json} (only : Only ["const"] ms)
    (const : ms.lookup "const" = some value) : form false none (.object ms') = .constant value := by
  have hconst : ms'.lookup "const" = some value := h.lookup_eq_some const (by decide)
  rw [h.form_eq_typeForm only (by decide), h.lookup_type_eq_none only (by decide), typeForm_none]
  simp only [itemsForm, valueForm, hconst,
    h.lookup_eq_none only "items" (by decide) (by decide),
    h.lookup_eq_none only "enum" (by decide) (by decide)]

theorem form_enumeration {values : List Json} (only : Only ["enum"] ms)
    (enum : ms.lookup "enum" = some (.array values)) :
    form false none (.object ms') = .enumeration values := by
  have henum : ms'.lookup "enum" = some (.array values) := h.lookup_eq_some enum (by decide)
  rw [h.form_eq_typeForm only (by decide), h.lookup_type_eq_none only (by decide), typeForm_none]
  simp only [itemsForm, valueForm, henum,
    h.lookup_eq_none only "items" (by decide) (by decide)]

theorem form_list {item : Json} (only : Only ["type", "items"] ms)
    (type : ms.lookup "type" = some (.string "array")) (items : ms.lookup "items" = some item)
    (basic : Basic item) : ∃ item', form false none (.object ms') = .listOf item' := by
  have hitems := h.lookup_eq_some items (by decide)
  rw [h.form_eq_typeForm only (by decide), h.lookup_type type, typeForm_of_ne_null (by decide)]
  have hschema := basic.isSchema
  cases item with
  | bool b =>
      have hvalue : normalizeValue "items" (.bool b) = .bool b := rfl
      rw [hvalue] at hitems
      exact ⟨.bool b, by simp only [itemsForm, hitems]⟩
  | object ns =>
      have hvalue : normalizeValue "items" (.object ns) = .object (normalMembers ns) := by
        rw [normalizeValue_of_mem (show ("items", .oneOrList) ∈ keywords by decide), normalizeUnder]
        rfl
      rw [hvalue] at hitems
      exact ⟨.object (normalMembers ns), by simp only [itemsForm, hitems]⟩
  | _ => cases hschema

theorem form_object
    (only : Only ["type", "properties", "required", "additionalProperties"] ms)
    (type : ms.lookup "type" = some (.string "object")) :
    form false none (.object ms') = .object ∨ form false none (.object ms') = .interface ms' := by
  rw [h.form_eq_typeForm only (by decide), h.lookup_type type, typeForm_of_ne_null (by decide),
    h.itemsForm_eq_namedForm only (by decide)]
  cases hd : describesMembers false ms' <;> simp [namedForm, hd]

theorem lookup_items {keyword : String} {items : List Json}
    (combines : keyword ∈ ["allOf", "anyOf", "oneOf"])
    (choice : ms.lookup keyword = some (.array items)) :
    ms'.lookup keyword = some (.array (items.map normalizeFragment)) := by
  have hall : ∀ key ∈ ["allOf", "anyOf", "oneOf"], (key, Shape.list) ∈ keywords ∧
      key ∉ "title" :: ruled := by decide
  obtain ⟨hmem, hr⟩ := hall keyword combines
  rw [h.lookup_eq_some choice hr, normalizeValue_of_mem hmem, normalizeUnder, normalizeItems_eq]

theorem form_choice {keyword : String} {items : List Json}
    (combines : keyword ∈ ["allOf", "anyOf", "oneOf"]) (only : Only [keyword] ms)
    (choice : ms.lookup keyword = some (.array items)) :
    form false none (.object ms') =
      if keyword = "allOf" then .allOf (items.map normalizeFragment)
      else .someOf keyword (items.map normalizeFragment) := by
  have hitems := h.lookup_items combines choice
  have hnone : ∀ key, key ∉ keyword :: annotations → key ∉ "title" :: ruled → ms'.lookup key = none :=
    fun key hk hr => h.lookup_eq_none only key hk hr
  simp only [List.mem_cons, List.not_mem_nil, or_false] at combines
  rcases combines with rfl | rfl | rfl
  · simp only [form, objectForm, choiceForm, hnone "tsType" (by decide) (by decide), hitems, if_true]
  · simp only [form, objectForm, choiceForm, hnone "tsType" (by decide) (by decide),
      hnone "allOf" (by decide) (by decide), hitems]
    rfl
  · simp only [form, objectForm, choiceForm, hnone "tsType" (by decide) (by decide),
      hnone "allOf" (by decide) (by decide), hnone "anyOf" (by decide) (by decide), hitems]
    rfl

end NormalOf

end Typewright.Schema
