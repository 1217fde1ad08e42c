import Typewright.Proofs.Build.Enums
import Typewright.Proofs.Graph.Targets
import Typewright.Proofs.Schema.BasicForm
import Typewright.Proofs.TypeGraph.Member

/-!
# The nodes of basic schemas

A build gives each basic schema of the root document a node. `Renders` says once what that node is
made of, in terms of the schema as it was read: its children are nodes of the schemas inside, of
literals, or of `any`.
-/

namespace Typewright

namespace Build

variable {ctx : BuildContext} {asked : Request → Prop} {s : Builder} {id : Fragment}
  {ms ms' : Members}

/-- The kinds of the types with a name of their own. -/
def scalarKinds : List (String × Kind) :=
  [("string", .string), ("number", .number), ("integer", .number), ("boolean", .boolean),
    ("null", .null)]

/-- A key that an object schema requires. -/
def Required (ms : Members) (key : String) : Prop :=
  ∃ keys, ms.lookup "required" = some (.array keys) ∧ .string key ∈ keys

/-- The index signature of an object schema, where `T` says which nodes stand for which schemas. -/
inductive RendersIndex (s : Builder) (T : NodeId → Json → Prop) (ms : Members) :
    List InterfaceMember → Prop
  | closed (further : ms.lookup "additionalProperties" = some (.bool false)) : RendersIndex s T ms []
  | further {node : NodeId} {schema : Json}
      (further : ms.lookup "additionalProperties" = some schema) (type : T node schema) :
      RendersIndex s T ms [{ key := indexSignature, node, required := true }]
  | free {node : NodeId} (leaf : Leaf s .any node) :
      RendersIndex s T ms [{ key := indexSignature, node, required := true }]

/-- The member of an interface for a property. -/
structure RendersMember (T : NodeId → Json → Prop) (ms : Members) (property : String × Json)
    (m : InterfaceMember) : Prop where
  key : m.key = property.1
  type : T m.node property.2
  field : m.IsField
  required : m.required = true → Required ms property.1

/-- What the node of a basic schema is made of, where `T` says which nodes stand for which schemas. -/
inductive Renders (s : Builder) (T : NodeId → Json → Prop) : Json → Kind → Prop
  | any {v : Json} : Renders s T v .any
  | never : Renders s T (.bool false) (.customType "never")
  | scalar {ms : Members} {name : String} {kind : Kind}
      (type : ms.lookup "type" = some (.string name)) (scalar : (name, kind) ∈ scalarKinds) :
      Renders s T (.object ms) kind
  | constant {ms : Members} {value : Json} (const : ms.lookup "const" = some value) :
      Renders s T (.object ms) (.literal value)
  | literals {ms : Members} {values : List Json} {nodes : List NodeId}
      (enum : ms.lookup "enum" = some (.array values))
      (leaves : List.Forall₂ (fun value node => Leaf s (.literal value) node) values nodes) :
      Renders s T (.object ms) (.union nodes)
  | enumeration {ms : Members} {values : List Json} {members : List EnumMember}
      (enum : ms.lookup "enum" = some (.array values))
      (leaves : List.Forall₂ (fun value (m : EnumMember) => Leaf s (.literal value) m.node)
        values members) :
      Renders s T (.object ms) (.enum members)
  | list {ms : Members} {item : Json} {node : NodeId}
      (type : ms.lookup "type" = some (.string "array")) (items : ms.lookup "items" = some item)
      (element : T node item) : Renders s T (.object ms) (.array node)
  | someOf {ms : Members} {keyword : String} {items : List Json} {nodes : List NodeId}
      (combines : keyword = "anyOf" ∨ keyword = "oneOf")
      (choice : ms.lookup keyword = some (.array items)) (types : List.Forall₂ T nodes items) :
      Renders s T (.object ms) (.union nodes)
  | allOf {ms : Members} {items : List Json} {nodes : List NodeId}
      (choice : ms.lookup "allOf" = some (.array items)) (types : List.Forall₂ T nodes items) :
      Renders s T (.object ms) (.intersection nodes)
  | object {ms : Members} (type : ms.lookup "type" = some (.string "object")) :
      Renders s T (.object ms) .object
  | interface {ms named : Members} {members index : List InterfaceMember}
      (type : ms.lookup "type" = some (.string "object"))
      (properties : (ms.lookup "properties").getD (.object []) = .object named)
      (types : List.Forall₂ (RendersMember T ms) named members)
      (further : RendersIndex s T ms index) :
      Renders s T (.object ms) (.interface (members ++ index) [])

/-! ## Where the nodes of parts are found -/

/-- A node that a build made for a basic schema of the root document. -/
def Types (ctx : BuildContext) (s : Builder) (root : Json) (node : NodeId) (v : Json) : Prop :=
  ∃ path, (path, v) ∈ Schema.positions "#" root ∧ Schema.Basic v ∧ Finds ctx s ⟨0, path, none⟩ node

theorem types_of_part {root v : Json} {path : String} {steps : List String} {node : NodeId}
    (hp : (path, .object ms) ∈ Schema.positions "#" root) (hpart : Schema.Part ms steps v)
    (hb : Schema.Basic v) (hf : Finds ctx s (below ⟨0, path, none⟩ steps) node) :
    Types ctx s root node v :=
  ⟨_, Schema.mem_positions_of_part hp hpart hb.isSchema, hb, hf⟩

/-- Nodes that are found for the items of a keyword, one by one. -/
theorem forall₂_of_itemSites {T : NodeId → Json → Prop} {keyword : String} {start : Nat}
    {items : List Json} (f : Json → Json) {nodes : List NodeId}
    (h : List.Forall₂ (Finds ctx s) (itemSites id keyword start (items.map f)) nodes)
    (hT : ∀ i v node, items[i]? = some v →
      Finds ctx s (below id [keyword, toString (start + i)]) node → T node v) :
    List.Forall₂ T nodes items := by
  induction items generalizing start nodes with
  | nil => cases h; exact .nil
  | cons v rest ih =>
      rw [itemSites, List.map_cons, List.zipIdx_cons, List.map_cons] at h
      cases h with
      | cons hv hrest =>
          refine .cons (hT 0 v _ rfl hv) (ih hrest fun i w node hw hf => hT (i + 1) w node hw ?_)
          rwa [Nat.add_assoc, Nat.add_comm 1 i] at hf

/-- What is known of a build that came to its end: its root document is basic and was loaded as it
is, and definitions without a reference are not kept. -/
structure Finished (g : SchemaGraph) (root : Json) (name : String) (ctx : BuildContext)
    (asked : Request → Prop) (s : Builder) : Prop where
  loaded : g.Loaded root
  basic : Schema.BasicRoot root
  schemas : ctx.schemas = g.normalize name
  distinct : ctx.schemas.Distinct
  dropped : ctx.options.unreachableDefinitions = false
  consistent : Consistent ctx asked s
  inProgress : s.inProgress = []

/-! ## What the nodes are made of -/

section Describes

variable {root : Json} {path : String}

/-- The node of an enum is made of its literals. -/
theorem renders_enumeration {T : NodeId → Json → Prop} {values : List Json} {kind : Kind}
    (h : DescribesEnum s ms' values kind) (henum : ms.lookup "enum" = some (.array values))
    (hnames : ms'.lookup "tsEnumNames" = none) : Renders s T (.object ms) kind := by
  rw [DescribesEnum, hnames] at h
  obtain ⟨nodes, hleaves, rfl | rfl⟩ := h
  · exact .literals henum hleaves
  · exact .enumeration henum (literals_zip (fun key => key) hleaves (length_valueKeys values))

theorem required_of_mem_requiredKeys (hn : Schema.NormalOf ms ms') {key : String}
    (h : key ∈ requiredKeys ms') : Required ms key := by
  obtain ⟨v, hv, hkey⟩ := List.mem_filterMap.1 h
  cases hl : ms'.lookup "required" with
  | none => rw [hl] at hv; cases hv
  | some w =>
      rw [hl, Option.bind_some] at hv
      cases w with
      | array keys =>
          cases v with
          | string text =>
              obtain rfl := Option.some.inj hkey
              rcases hn.required with hsame | hnil
              · exact ⟨keys, hsame.symm.trans hl, hv⟩
              · obtain rfl := Json.array.inj (Option.some.inj (hnil.symm.trans hl))
                cases hv
          | _ => cases hkey
      | _ => cases hv

/-- The members of the interface for the properties of a basic schema. -/
theorem rendersMembers (hn : Schema.NormalOf ms ms') {named : Members}
    (hp : (path, .object ms) ∈ Schema.positions "#" root)
    (hproperties : (ms.lookup "properties").getD (.object []) = .object named)
    (hkeys : ∀ m ∈ named, m.1 ≠ indexSignature) (hbasic : ∀ m ∈ named, Schema.Basic m.2)
    {found : List (String × NodeId)}
    (h : FindsEach ctx s ⟨0, path, none⟩ ms' "properties" found) :
    List.Forall₂ (RendersMember (Types ctx s root) ms) named (found.map fun p =>
      { key := p.1, node := p.2, required := decide (p.1 ∈ requiredKeys ms') }) := by
  rw [List.forall₂_map_right_iff]
  cases hl : ms.lookup "properties" with
  | none =>
      rw [hl, Option.getD_none] at hproperties
      obtain rfl := Json.object.inj hproperties
      have hnone := hn.plain "properties" (by decide)
      rw [hl] at hnone
      rw [FindsEach, hnone] at h
      rw [show found = [] from h]
      exact .nil
  | some value =>
      rw [hl, Option.getD_some] at hproperties
      subst hproperties
      have hsome := hn.lookup_eq_some hl (by decide)
      rw [Schema.normalizeValue_of_mem (show ("properties", .byName) ∈ Schema.keywords by decide),
        Schema.normalizeUnder, Schema.normalizeNamed_eq] at hsome
      rw [FindsEach, hsome] at h
      dsimp only at h
      rw [List.forall₂_map_left_iff] at h
      refine ((List.forall₂_and_left _ _).2 ⟨fun m (hm : m ∈ named) => hm, h⟩).imp ?_
      rintro ⟨key, v⟩ ⟨key', node⟩ ⟨hm, hkey, hf⟩
      obtain rfl : key' = key := hkey
      have hpart : Schema.Part ms ["properties", key'] v :=
        ⟨"properties", .byName, .object named, [key'], by decide, hl, List.mem_map_of_mem hm, rfl⟩
      exact ⟨rfl, types_of_part hp hpart (hbasic _ hm) hf, ⟨hkeys _ hm, rfl, rfl⟩,
        fun hr => required_of_mem_requiredKeys hn (of_decide_eq_true hr)⟩

/-- The index signature of the interface for a basic schema. -/
theorem rendersIndex (hn : Schema.NormalOf ms ms')
    (hp : (path, .object ms) ∈ Schema.positions "#" root)
    (hpatterns : ms'.lookup "patternProperties" = none)
    (hbasic : ∀ v, ms.lookup "additionalProperties" = some v → Schema.Basic v)
    {index : List InterfaceMember} (h : FindsIndex ctx s ⟨0, path, none⟩ ms' index) :
    RendersIndex s (Types ctx s root) ms index := by
  have hone : ("additionalProperties", .one) ∈ Schema.keywords := by decide
  have hold : ∀ v', ms'.lookup "additionalProperties" = some v' → v' ≠ .bool true →
      ∃ v, ms.lookup "additionalProperties" = some v ∧ v' = Schema.normalizeUnder .one v := by
    intro v' hl htrue
    rcases hn.further with heq | ⟨-, heq⟩
    · rw [hl, eq_comm, Option.map_eq_some_iff] at heq
      obtain ⟨v, hv, heq⟩ := heq
      exact ⟨v, hv, by rw [← heq, Schema.normalizeValue_of_mem hone]⟩
    · exact absurd (Option.some.inj (hl.symm.trans heq)) htrue
  unfold FindsIndex at h
  split at h
  · rename_i hl
    obtain ⟨v, hv, heq⟩ := hold _ hl (by simp)
    have hschema := (hbasic v hv).isSchema
    subst h
    cases v with
    | bool b => exact .closed (hv.trans (congrArg some heq.symm))
    | object ns => rw [Schema.normalizeUnder] at heq; cases heq
    | _ => cases hschema
  · rename_i hl
    obtain ⟨v, hv, -⟩ := hold _ hl (by simp)
    obtain ⟨node, hf, rfl⟩ := h
    have hpart : Schema.Part ms ["additionalProperties"] v :=
      ⟨"additionalProperties", .one, v, [], hone, hv, List.mem_singleton_self _, rfl⟩
    exact .further hv (types_of_part hp hpart (hbasic v hv) hf)
  · have hsingle : singlePattern ms' (namedMembers ms' "patternProperties") = false := by
      rw [namedMembers, hpatterns]
      rfl
    rw [hsingle] at h
    obtain ⟨node, hleaf, rfl⟩ := h
    exact .free hleaf

/-- The interface for a basic schema. -/
theorem renders_interface (hn : Schema.NormalOf ms ms') (hctx : ctx.options.unreachableDefinitions = false)
    {named : Members} (only : Schema.Only ["type", "properties", "required", "additionalProperties"] ms)
    (type : ms.lookup "type" = some (.string "object"))
    (hp : (path, .object ms) ∈ Schema.positions "#" root)
    (hproperties : (ms.lookup "properties").getD (.object []) = .object named)
    (hkeys : ∀ m ∈ named, m.1 ≠ indexSignature) (hbasic : ∀ m ∈ named, Schema.Basic m.2)
    (hfurther : ∀ v, ms.lookup "additionalProperties" = some v → Schema.Basic v) {kind : Kind}
    (h : DescribesInterface ctx s ⟨0, path, none⟩ ms' kind) :
    Renders s (Types ctx s root) (.object ms) kind := by
  obtain ⟨properties, patterns, definitions, defs, index, supers, rfl, hfound, hpatterns, hdefinitions,
    hdefs, hindex, hsupers⟩ := h
  have hpattern : ms'.lookup "patternProperties" = none :=
    hn.lookup_eq_none only "patternProperties" (by decide) (by decide)
  rw [FindsEach, hpattern] at hpatterns
  rw [FindsDefinitions, hctx] at hdefinitions hdefs
  rw [superSites, hn.lookup_eq_none only "tsExtends" (by decide) (by decide)] at hsupers
  obtain rfl : patterns = [] := hpatterns
  obtain rfl : definitions = [] := hdefinitions
  obtain rfl : defs = [] := hdefs
  cases hsupers
  have hmembers := rendersMembers hn hp hproperties hkeys hbasic hfound
  have hkind := Renders.interface type hproperties hmembers (rendersIndex hn hp hpattern hfurther hindex)
  simpa only [interfaceMembers, List.map_nil, List.append_nil] using hkind

theorem mem_parts_self {v : Json} (h : v.isSchema = true) :
    ([], v) ∈ Schema.Shape.oneOrList.parts v := by
  cases v with
  | bool b => exact List.mem_singleton_self _
  | object ns => exact List.mem_singleton_self _
  | _ => cases h

theorem part_item {keyword : String} {items : List Json} {i : Nat} {v : Json}
    (combines : keyword ∈ ["allOf", "anyOf", "oneOf"])
    (choice : ms.lookup keyword = some (.array items)) (hi : items[i]? = some v) :
    Schema.Part ms [keyword, toString (0 + i)] v := by
  have hall : ∀ key ∈ ["allOf", "anyOf", "oneOf"], (key, .list) ∈ Schema.keywords := by decide
  exact ⟨keyword, .list, .array items, [toString (0 + i)], hall keyword combines, choice,
    Schema.Shape.mem_indexed hi 0, rfl⟩

/-- The value of a schema of the root document in normal form, as a build reads it. -/
theorem Finished.normalAs {g : SchemaGraph} {name : String} {v v' : Json}
    (h : Finished g root name ctx asked s) (hp : (path, v) ∈ Schema.positions "#" root)
    (hget : ctx.schemas.get? ⟨0, path, none⟩ = some v') : Schema.NormalAs v v' := by
  rw [h.schemas] at hget
  obtain ⟨d', hdoc', hat⟩ := Option.bind_eq_some_iff.1 hget
  obtain ⟨d, hdoc, ⟨-, hroot⟩ | ⟨hne, -⟩⟩ := SchemaGraph.getElem?_normalize hdoc'
  · obtain ⟨d₀, hdoc₀, rfl⟩ := h.loaded.root
    obtain rfl := Option.some.inj (hdoc.symm.trans hdoc₀)
    obtain ⟨w, hw, hnormal⟩ := Schema.exists_at?_normalize name h.loaded.distinct hp
    rw [hroot, hw] at hat
    exact Option.some.inj hat ▸ hnormal
  · exact absurd rfl hne

/-- The node of a basic schema that is no reference is made as the schema says. -/
theorem Finished.exists_renders {g : SchemaGraph} {name : String} {v : Json} {i : NodeId}
    (h : Finished g root name ctx asked s) (hp : (path, v) ∈ Schema.positions "#" root)
    (hb : Schema.Basic v) (href : Loading.reference? v = none)
    (hf : Finds ctx s ⟨0, path, none⟩ i) :
    ∃ node, s.graph.get? i = some node ∧ Renders s (Types ctx s root) v node.kind := by
  have hl : ctx.schemas.refs.lookup ⟨0, path, none⟩ = none := by
    rw [h.schemas, SchemaGraph.refs_normalize]
    exact h.loaded.lookup_eq_none hp href
  rw [Finds, SchemaGraph.resolve_of_lookup_eq_none hl] at hf
  obtain ⟨hlt, -, v', hoccurs, hdescribes⟩ := h.consistent.processed _ _ hf
  obtain ⟨node, hn⟩ := h.consistent.exists_node h.inProgress hlt
  refine ⟨node, hn, ?_⟩
  have hnormal := h.normalAs hp (hoccurs.get? h.distinct)
  have hkind := hdescribes node hn
  rw [Describes, h.dropped] at hkind
  cases hb with
  | bool b =>
      rw [hnormal.1 b rfl] at hkind
      cases b with
      | true => rw [show node.kind = .any from hkind]; exact .any
      | false => rw [show node.kind = .customType "never" from hkind]; exact .never
  | @anything ms only =>
      obtain ⟨ms', rfl, hms⟩ := hnormal.2 ms rfl
      rw [hms.form_anything only] at hkind
      rw [show node.kind = .any from hkind]
      exact .any
  | @scalar ms text only type hscalar =>
      obtain ⟨ms', rfl, hms⟩ := hnormal.2 ms rfl
      have hform := hms.form_scalar only type
      simp only [List.mem_cons, List.not_mem_nil, or_false] at hscalar
      rcases hscalar with rfl | rfl | rfl | rfl | rfl
      · rw [hform (by decide)] at hkind
        rw [show node.kind = .string from hkind]
        exact .scalar type (by simp [scalarKinds])
      · rw [hform (by decide)] at hkind
        rw [show node.kind = .number from hkind]
        exact .scalar type (by simp [scalarKinds])
      · rw [hform (by decide)] at hkind
        rw [show node.kind = .number from hkind]
        exact .scalar type (by simp [scalarKinds])
      · rw [hform (by decide)] at hkind
        rw [show node.kind = .boolean from hkind]
        exact .scalar type (by simp [scalarKinds])
      · rw [hms.form_null only type] at hkind
        rw [show node.kind = .null from hkind]
        exact .scalar type (by simp [scalarKinds])
  | @constant ms value only const =>
      obtain ⟨ms', rfl, hms⟩ := hnormal.2 ms rfl
      rw [hms.form_constant only const] at hkind
      rw [show node.kind = .literal value from hkind]
      exact .constant const
  | @enumeration ms values only enum =>
      obtain ⟨ms', rfl, hms⟩ := hnormal.2 ms rfl
      rw [hms.form_enumeration only enum] at hkind
      exact renders_enumeration hkind enum
        (hms.lookup_eq_none only "tsEnumNames" (by decide) (by decide))
  | @list ms item only type items basic =>
      obtain ⟨ms', rfl, hms⟩ := hnormal.2 ms rfl
      obtain ⟨item', hform⟩ := hms.form_list only type items basic
      rw [hform] at hkind
      obtain ⟨c, hk, hf⟩ := hkind
      have hpart : Schema.Part ms ["items"] item :=
        ⟨"items", .oneOrList, item, [], by decide, items, mem_parts_self basic.isSchema, rfl⟩
      rw [hk]
      exact .list type items (types_of_part hp hpart basic hf)
  | @object ms named only type properties keys basic further =>
      obtain ⟨ms', rfl, hms⟩ := hnormal.2 ms rfl
      rcases hms.form_object only type with hform | hform
      · rw [hform] at hkind
        rw [show node.kind = .object from hkind]
        exact .object type
      · rw [hform] at hkind
        exact renders_interface hms h.dropped only type hp properties keys basic further hkind
  | @choice ms keyword items combines only choice basic =>
      obtain ⟨ms', rfl, hms⟩ := hnormal.2 ms rfl
      rw [hms.form_choice combines only choice] at hkind
      have htypes : ∀ {cs : List NodeId}, List.Forall₂ (Finds ctx s)
          (itemSites ⟨0, path, none⟩ keyword 0 (items.map Schema.normalizeFragment)) cs →
          List.Forall₂ (Types ctx s root) cs items := fun hcs =>
        forall₂_of_itemSites _ hcs fun i v c hi hf =>
          types_of_part hp (part_item combines choice hi) (basic v (List.mem_of_getElem? hi)) hf
      by_cases hall : keyword = "allOf"
      · subst hall
        rw [if_pos rfl] at hkind
        obtain ⟨cs, hk, hcs⟩ := hkind
        rw [hk]
        exact .allOf choice (htypes hcs)
      · rw [if_neg hall] at hkind
        obtain ⟨cs, hk, hcs⟩ := hkind
        rw [hk]
        exact .someOf (by simpa [hall] using combines) choice (htypes hcs)
  | @reference ms reference key only ref definition =>
      rw [Loading.reference?, Json.member?, Json.members?, Option.bind_some, ref] at href
      cases href

end Describes

end Build

end Typewright
