import Typewright.Proofs.Build.Interface
import Typewright.Proofs.Build.References
import Typewright.Proofs.Build.Titles
import Typewright.Proofs.Graph.Places

/-!
# Which fragments are named as definitions

A fragment that is named for nothing else has a name exactly if the step before the last one of its
pointer is `definitions` or `$defs`. Such a step may lead to the definitions of a schema object, and
then the fragment is one of them. But it may also lead to a property with this name, whose parts are
then named as if they were definitions (`named_iff_of_run`, `exists_named_part`).
-/

namespace Typewright

namespace SchemaGraph

open Build (below below_inj)

variable {env : Environment} {options : Options} {location : Option FileUrl} {schema v : Json}
  {g : SchemaGraph} {id : Fragment} {ms : Members}

/-! ## Schemas and definitions of a graph -/

/-- A schema of a graph is inside the root of a document or inside what a reference leads to. -/
def HasSchema (g : SchemaGraph) (id : Fragment) (v : Json) : Prop :=
  ∃ base w, (base.pointer = "#" ∨ base ∈ g.targets) ∧ g.get? base = some w ∧
    (id.pointer, v) ∈ Schema.positions base.pointer w ∧ id = ⟨base.document, id.pointer, none⟩

/-- A keyword that holds definitions. -/
def IsDefinitionsKeyword (keyword : String) : Prop := keyword = "definitions" ∨ keyword = "$defs"

/-- The definitions of a schema object, under one of the two keywords. -/
def HasDefinitions (g : SchemaGraph) (owner : Fragment) (keyword : String) (named : Members) : Prop :=
  ∃ ms, g.HasSchema owner (.object ms) ∧ ms.lookup keyword = some (.object named)

/-- An entry of the definitions of a schema object. -/
def IsDefinition (g : SchemaGraph) (id : Fragment) : Prop :=
  ∃ owner keyword named key, IsDefinitionsKeyword keyword ∧ g.HasDefinitions owner keyword named ∧
    key ∈ Members.keys named ∧ id = below owner [keyword, key]

/-- What is under a member with the name of such a keyword that holds no definitions of a schema
object: the member of an object that is no schema, such as a map of properties, or a list. -/
def IsNamesake (g : SchemaGraph) (id : Fragment) : Prop :=
  ∃ owner ms keyword value key, IsDefinitionsKeyword keyword ∧
    g.get? owner = some (.object ms) ∧ ms.lookup keyword = some value ∧
    (∀ named, ¬ (value = .object named ∧ g.HasDefinitions owner keyword named)) ∧
    id = below owner [keyword, key] ∧ owner.variant = none

/-- The step before the last one of a pointer is a keyword for definitions, or a name like one. -/
def LooksDefined (pointer : String) : Prop :=
  ∃ before keyword last, IsDefinitionsKeyword keyword ∧
    Pointer.split pointer = before ++ [keyword, last]

theorem HasSchema.get? (h : g.HasSchema id v) (hd : g.Distinct) : g.get? id = some v := by
  obtain ⟨base, w, -, hbase, hmem, hid⟩ := h
  have hw := hd.get? hbase
  obtain ⟨d, hdoc, hat⟩ := Option.bind_eq_some_iff.1 hbase
  rw [hid, SchemaGraph.get?, hdoc, Option.bind_some]
  exact (Schema.at?_of_mem_positions hat hw _ hmem).1

theorem rooted_of_get? (h : g.get? id = some v) : Pointer.Rooted id.pointer := by
  obtain ⟨d, -, hat⟩ := Option.bind_eq_some_iff.1 h
  exact Json.rooted_of_at? hat

/-- No definition is a namesake. -/
theorem IsDefinition.not_namesake (h : g.IsDefinition id) (hd : g.Distinct) : ¬ g.IsNamesake id := by
  obtain ⟨owner, keyword, named, key, -, ⟨ms, hschema, hl⟩, -, rfl⟩ := h
  rintro ⟨owner', ms', keyword', value, key', -, hget, hl', hnot, hid, hv⟩
  have hget' := hschema.get? hd
  obtain ⟨rfl, hsteps⟩ := below_inj hid rfl (rooted_of_get? hget') (rooted_of_get? hget)
    (by obtain ⟨_, _, -, -, -, hid⟩ := hschema; rw [hid, hv])
  obtain ⟨rfl, -⟩ := List.cons.inj hsteps
  obtain rfl := Json.object.inj (Option.some.inj (hget.symm.trans hget'))
  obtain rfl := Option.some.inj (hl.symm.trans hl')
  exact hnot named ⟨rfl, ms', hschema, hl⟩

/-- What is under a member with the name of a keyword for definitions is a definition or a
namesake. -/
theorem isDefinition_or_isNamesake {owner : Fragment} {keyword key : String} {x value entry : Json}
    (hget : g.get? owner = some x) (hv : owner.variant = none) (hk : IsDefinitionsKeyword keyword)
    (hvalue : x.child? keyword = some value) (hentry : value.child? key = some entry) :
    g.IsDefinition (below owner [keyword, key]) ∨ g.IsNamesake (below owner [keyword, key]) := by
  -- a list has no member with the name of a keyword
  obtain ⟨ms, rfl⟩ : ∃ ms, x = .object ms := by
    cases x with
    | object ms => exact ⟨ms, rfl⟩
    | array xs => rcases hk with rfl | rfl <;> cases hvalue
    | _ => cases hvalue
  by_cases hdefinitions : ∃ named, value = .object named ∧ g.HasDefinitions owner keyword named
  · obtain ⟨named, rfl, hnamed⟩ := hdefinitions
    have hkey : key ∈ Members.keys named := List.mem_map_of_mem (mem_of_lookup hentry)
    exact .inl ⟨owner, keyword, named, key, hk, hnamed, hkey, rfl⟩
  · have hnot := not_exists.1 hdefinitions
    exact .inr ⟨owner, ms, keyword, value, key, hk, hget, hvalue, hnot, rfl, hv⟩

/-- What looks like a definition is one, or a namesake. -/
theorem looksDefined_iff (hd : g.Distinct) (hv : g.get? id = some v) {steps : List String}
    (hid : id = ⟨id.document, Pointer.build "#" steps, none⟩) :
    LooksDefined id.pointer ↔ g.IsDefinition id ∨ g.IsNamesake id := by
  have hsplit : ∀ {owner : Fragment} {x : Json} {further : List String}, g.get? owner = some x →
      Pointer.split (below owner further).pointer = Pointer.split owner.pointer ++ further :=
    fun hget => (Pointer.split_build (rooted_of_get? hget) _).2
  constructor
  · rintro ⟨before, keyword, key, hk, heq⟩
    rw [hid, Pointer.split_build_root] at heq
    subst heq
    obtain ⟨d, hdoc, hat⟩ := Option.bind_eq_some_iff.1 hv
    have hself : d.root.at? "#" = some d.root := rfl
    rw [hid, Json.at?_build hself, Json.follow?_append] at hat
    obtain ⟨x, hx, hat⟩ := Option.bind_eq_some_iff.1 hat
    obtain ⟨value, hvalue, hat⟩ := Option.bind_eq_some_iff.1 hat
    obtain ⟨entry, hentry, -⟩ := Option.bind_eq_some_iff.1 hat
    have hget : g.get? ⟨id.document, Pointer.build "#" before, none⟩ = some x := by
      rw [SchemaGraph.get?, hdoc, Option.bind_some, Json.at?_build hself, hx]
    rw [hid, Pointer.build_append]
    exact isDefinition_or_isNamesake hget rfl hk hvalue hentry
  · rintro (⟨owner, keyword, named, key, hk, ⟨ms, hschema, -⟩, -, rfl⟩ |
      ⟨owner, ms, keyword, value, key, hk, hget, -, -, rfl, -⟩)
    · exact ⟨_, keyword, key, hk, hsplit (hschema.get? hd)⟩
    · exact ⟨_, keyword, key, hk, hsplit hget⟩

/-- What is under an entry with the name of such a keyword is a namesake, if the map that holds the
entry is no schema itself. -/
theorem HasSchema.isNamesake {owner : Fragment} {keyword key map : String} {entries : Members}
    (h : g.HasSchema owner (.object ms)) (hd : g.Distinct) (hk : IsDefinitionsKeyword keyword)
    (hl : ms.lookup map = some (.object entries)) (hentry : entries.lookup keyword = some v)
    (hmap : ¬ g.HasSchema (below owner [map]) (.object entries)) :
    g.IsNamesake (below (below owner [map]) [keyword, key]) := by
  obtain ⟨d, hdoc, hat⟩ := Option.bind_eq_some_iff.1 (h.get? hd)
  have hget : g.get? (below owner [map]) = some (.object entries) := by
    rw [SchemaGraph.get?, below, hdoc, Option.bind_some, Json.at?_build hat, Json.follow?,
      Json.child?, hl]
    rfl
  refine ⟨_, entries, keyword, v, key, hk, hget, hentry, ?_, rfl, rfl⟩
  rintro named ⟨-, ms', hschema, -⟩
  obtain rfl := Json.object.inj (Option.some.inj (hget.symm.trans (hschema.get? hd)))
  exact hmap hschema

/-! ## Pointers of a graph -/

/-- The pointer of what a reference leads to is written in one form. -/
theorem exists_steps_of_mem_targets (h : load env options location schema = .ok g)
    (hid : id ∈ g.targets) : ∃ steps, id.pointer = Pointer.build "#" steps := by
  obtain ⟨site, he⟩ := exists_of_mem_targets hid
  obtain ⟨_, _, _, -, -, -, -, hlands⟩ := (placed_of_load h).2 _ he
  obtain ⟨-, ⟨fragment, -, hpointer⟩, d, w, -, hat, -⟩ := hlands id rfl
  obtain ⟨place, -, heq, -⟩ := exists_place_of_fragmentPointer hpointer hat
  exact ⟨_, heq⟩

end SchemaGraph

namespace Build

open SchemaGraph (IsDefinitionsKeyword LooksDefined)

variable {ctx : BuildContext} {id : Fragment} {schema v : Json} {key : Option String}
  {isRoot : Bool} {s : Builder} {root i : NodeId} {node : Node}

theorem Occurs.exists_steps {asked : Request → Prop} (h : Occurs ctx asked id schema)
    (hs : ∀ r, asked r → ∃ steps, r.site.pointer = Pointer.build "#" steps)
    (ht : ∀ id ∈ ctx.schemas.targets, ∃ steps, id.pointer = Pointer.build "#" steps) :
    ∃ steps, id.pointer = Pointer.build "#" steps := by
  induction h with
  | site hr => exact hs _ hr
  | target htarget => exact ht _ htarget
  | @part id ms steps value _ _ ih =>
      obtain ⟨before, hbefore⟩ := ih
      exact ⟨before ++ steps, by rw [Build.below, hbefore, Pointer.build_append]⟩
  | variant _ _ _ ih => exact ih

/-! ## Hints -/

/-- Only the root of a build is met as the root. -/
theorem Met.eq_or_resolve (h : Met ctx (· = .root) id key isRoot) (hroot : isRoot = true) :
    id = .root ∨ ctx.schemas.resolve .root = .ok (.fragment id) := by
  induction h with
  | site hr => exact .inl (hr ▸ rfl)
  | part => cases hroot
  | entry => cases hroot
  | target _ hr ih =>
      rcases ih hroot with rfl | hsite
      · exact .inr hr
      · rw [SchemaGraph.resolve_of_lookup_eq_none (follow_lookup hsite)] at hr
        obtain rfl := Target.fragment.inj (Except.ok.inj hr)
        exact .inr hsite
  | variant => cases hroot

/-- A fragment that is named for nothing else has a hint if it looks like a definition. -/
theorem isSome_nameHint_iff (hv : id.variant = none) (hsegments : Pointer.split id.pointer ≠ [])
    (htitle : (v.member? "title").bind Json.string? = none)
    (henum : v.member? "tsEnumNames" = none) :
    (nameHint ctx id v key false).isSome ↔ LooksDefined id.pointer := by
  have hother : nameHint.atPosition ctx id v key false (Pointer.split id.pointer) = none := by
    rw [nameHint.atPosition, henum]
    simp [hsegments]
  unfold nameHint LooksDefined
  rw [hv, htitle]
  dsimp only [Option.isSome_none]
  rw [if_neg Bool.false_ne_true, hother]
  generalize Pointer.split id.pointer = segments
  split
  · rename_i last parent rest heq
    have hreverse : segments = rest.reverse ++ [parent, last] := by
      simpa using congrArg List.reverse heq
    have hparent : (parent == "definitions" || parent == "$defs") = true ↔
        IsDefinitionsKeyword parent := by
      simp [IsDefinitionsKeyword]
    by_cases hk : IsDefinitionsKeyword parent
    · rw [if_pos (hparent.2 hk)]
      exact ⟨fun _ => ⟨_, parent, last, hk, hreverse⟩, fun _ => rfl⟩
    · rw [if_neg fun h => hk (hparent.1 h)]
      refine ⟨nofun, ?_⟩
      rintro ⟨before, keyword, last', hk', heq'⟩
      obtain ⟨-, heq'⟩ := List.append_inj' (hreverse.symm.trans heq') rfl
      obtain ⟨rfl, -⟩ := List.cons.inj heq'
      exact absurd hk' hk
  · rename_i hshort
    refine ⟨nofun, ?_⟩
    rintro ⟨before, keyword, last, -, rfl⟩
    exact absurd (by simp) (hshort last keyword before.reverse)

/-! ## Names -/

/-- A fragment of a graph that has no title, no names for enum values, and is neither the root of the
build nor that of a document, and that none of its parts leads back to, has a name exactly if it is a
definition of a schema object, or is under a member that only has the name of a keyword for
definitions. -/
theorem named_iff_of_run {env : Environment} {options : Options} {location : Option FileUrl}
    {g : SchemaGraph} (h : SchemaGraph.load env options location schema = .ok g)
    (hd : schema.Distinct) (hs : ctx.schemas = g ∨ ∃ name, ctx.schemas = g.normalize name)
    (hrun : (fragment ctx .root none true).run {} = (.ok root, s))
    (hl : s.processed.lookup id = some i) (hn : s.graph.get? i = some node)
    (hvariant : id.variant = none) (hget : ctx.schemas.get? id = some v)
    (htitle : (v.member? "title").bind Json.string? = none)
    (hroot : ctx.schemas.resolve .root ≠ .ok (.fragment id)) (hdocument : id.pointer ≠ "#")
    (henum : v.member? "tsEnumNames" = none) (hback : i ∉ s.needsName) :
    (node.name.isSome ↔ ctx.schemas.IsDefinition id ∨ ctx.schemas.IsNamesake id) ∧
      ¬ (ctx.schemas.IsDefinition id ∧ ctx.schemas.IsNamesake id) := by
  have hdistinct := SchemaGraph.distinct_of_load_or_normalize h hd hs
  have htargets : ctx.schemas.targets = g.targets := by
    rcases hs with heq | ⟨name, heq⟩
    · rw [heq]
    · rw [heq, SchemaGraph.targets_normalize]
  have hends := TypeGraph.runs_root ctx
  unfold Runs Ends at hends
  rw [hrun] at hends
  have hc := hends.1.consistent
  obtain ⟨v', isRoot, hoccurs, hmet, htitled, hneeds⟩ := hc.sourced_of_lookup hl hn
  obtain rfl := Option.some.inj (hget.symm.trans (hoccurs.get? hdistinct))
  have hplain := (hc.processed _ _ hl).2.1
  obtain rfl : isRoot = false := by
    refine Bool.eq_false_iff.2 fun hisRoot => hroot ?_
    rcases hmet.eq_or_resolve hisRoot with rfl | hresolve
    · exact SchemaGraph.resolve_of_lookup_eq_none hplain
    · exact hresolve
  obtain ⟨steps, hpointer⟩ := hoccurs.exists_steps (fun r hr => ⟨[], by rw [hr]; rfl⟩) fun id hmem =>
    SchemaGraph.exists_steps_of_mem_targets h (htargets ▸ hmem)
  have hid : id = ⟨id.document, Pointer.build "#" steps, none⟩ := by rw [← hpointer, ← hvariant]
  have hsegments : Pointer.split id.pointer ≠ [] := by
    rw [hpointer, Pointer.split_build_root]
    rintro rfl
    exact hdocument hpointer
  have hnamed : node.name.isSome ↔ (nameHint ctx id v node.key false).isSome := by
    cases hhint : nameHint ctx id v node.key false with
    | some hint =>
        obtain ⟨used, hname⟩ := htitled.exists_name hhint
        simp [hname]
    | none => exact ⟨fun hname => absurd (hneeds hhint hname) hback, nofun⟩
  refine ⟨?_, fun hboth => hboth.1.not_namesake hdistinct hboth.2⟩
  rw [hnamed, isSome_nameHint_iff hvariant hsegments htitle henum,
    SchemaGraph.looksDefined_iff hdistinct hget hid]

/-! ## A property that is called like a keyword -/

/-- Properties of which one holds a list, under the name of a keyword for definitions. -/
def listedProperties : Members :=
  [("definitions", .object [("items", .object [("type", .string "string")])])]

def listedSchema : Json := .object [("properties", .object listedProperties)]

/-- The members of that schema in normal form. -/
def listedMembers : Members :=
  [("properties", .object listedProperties), ("additionalProperties", .bool true),
    ("required", .array []), ("title", .string "Root")]

/-- The items of the list. -/
def listedItems : Fragment := below (below .root ["properties"]) ["definitions", "items"]

def listedNode : Node where
  kind := .interface [{ key := "definitions", node := 1 }, indexMember 3] []
  name := some "Root"

/-- The items are named after their keyword. -/
def listedItemsNode : Node := { kind := .string, name := some "Items" }

def listedBuilder : Builder where
  graph := ⟨#[some listedNode, some { kind := .array 2, key := some "definitions" },
    some listedItemsNode, some { kind := .any }], 0⟩
  processed := [(listedItems, 2), (below .root ["properties", "definitions"], 1), (.root, 0)]
  usedNames := ["Root", "Items"]

theorem load_listedSchema :
    SchemaGraph.load noFiles { bannerComment := "" } none listedSchema =
      .ok (mixedGraph listedSchema) := by
  cbv

theorem normalize_listedSchema :
    (mixedGraph listedSchema).normalize "Root" = mixedGraph (.object listedMembers) := by
  rfl

theorem distinct_listedSchema : listedSchema.Distinct := by
  simp [listedSchema, listedProperties, Json.Distinct, Json.DistinctMembers, Members.keys]

theorem run_listedMembers :
    (fragment (objectContext "Root" listedMembers) .root none true).run {} =
      (.ok 0, listedBuilder) := by
  have hself : ∀ id, (objectContext "Root" listedMembers).schemas.resolve id =
      .ok (.fragment id) := fun _ => by rfl
  have hform : Schema.form false none (.object listedMembers) = .interface listedMembers := by rfl
  have hnone : ∀ keyword ∈ ["patternProperties", "definitions", "$defs", "tsExtends"],
      listedMembers.lookup keyword = none := by decide
  have hindex : visitIndex (objectContext "Root" listedMembers) [.root] .root listedMembers = (do
      let node ← add .any
      return [indexMember node]) := by
    rw [visitIndex]
    rfl
  have hlist : Schema.form (objectContext "Root" listedMembers).options.unreachableDefinitions
      (below .root ["properties", "definitions"]).variant
      (.object [("items", .object [("type", .string "string")])]) =
      .listOf (.object [("type", .string "string")]) := by rfl
  have hstring : Schema.form (objectContext "Root" listedMembers).options.unreachableDefinitions
      (below (below .root ["properties", "definitions"]) ["items"]).variant
      (.object [("type", .string "string")]) = .string := by rfl
  have hhint : nameHint (objectContext "Root" listedMembers)
      (below (below .root ["properties", "definitions"]) ["items"])
      (.object [("type", .string "string")]) none false = some "items" := by rfl
  refine run_of_ends ((ends_objectContext (by rfl) (by rfl) (by rfl)).2 ?_)
  rw [hform, partsOf, interface_eq hnone, hindex, visitEach_eq,
    show namedMembers listedMembers "properties" = listedProperties by rfl, listedProperties,
    visitNamed, visitNamed]
  simp only [ends_bind, ends_pure]
  rw [ends_visit_new (hself _) (by rfl) (by decide),
    ends_build_unnamed (by rfl) (mem_variants rfl _), parts_eq, hlist, partsOf, ends_bind,
    ends_visit_new (hself _) (by rfl) (by decide), ends_build_named hhint rfl, parts_eq, hstring,
    partsOf, ends_pure, ends_pure, ends_finishName_of_not_mem List.not_mem_nil]
  exact ⟨trivial, rfl⟩

theorem distinct_listedGraph : (mixedGraph (.object listedMembers)).Distinct :=
  SchemaGraph.distinct_of_load_or_normalize load_listedSchema distinct_listedSchema
    (.inr ⟨"Root", normalize_listedSchema.symm⟩)

theorem resolve_root_listedItems :
    (mixedGraph (.object listedMembers)).resolve .root ≠ .ok (.fragment listedItems) := by
  intro hresolve
  have hpointer := congrArg Fragment.pointer (Target.fragment.inj (Except.ok.inj hresolve))
  revert hpointer
  decide

/-- The properties of that schema are no schema. -/
theorem not_hasSchema_listedProperties :
    ¬ (mixedGraph (.object listedMembers)).HasSchema (below .root ["properties"])
      (.object listedProperties) := by
  rintro ⟨⟨document, pointer, variant⟩, w, hbase, hget, hmem, -⟩
  obtain rfl : pointer = "#" := hbase.resolve_right fun hmem => by cases hmem
  obtain ⟨d, hdoc, hat⟩ := Option.bind_eq_some_iff.1 hget
  have hself : (Json.object listedMembers).at? "#" = some (.object listedMembers) := rfl
  rw [List.mem_singleton.1 (List.mem_of_getElem? hdoc), hself] at hat
  obtain rfl := Option.some.inj hat
  have hpositions : (Schema.positions "#" (.object listedMembers)).map (·.1) =
      ["#", "#/properties/definitions", "#/properties/definitions/items",
        "#/additionalProperties"] := by cbv
  have hpointer := List.mem_map_of_mem (f := (·.1)) hmem
  rw [hpositions] at hpointer
  revert hpointer
  decide

/-- The items are an entry of something that is called like definitions. -/
theorem isNamesake_listedItems : (mixedGraph (.object listedMembers)).IsNamesake listedItems := by
  have hroot : (mixedGraph (.object listedMembers)).HasSchema .root (.object listedMembers) :=
    ⟨.root, _, .inl rfl, rfl, Schema.mem_positions_self _ _, rfl⟩
  exact hroot.isNamesake distinct_listedGraph (.inl rfl) rfl rfl not_hasSchema_listedProperties

/-- The items of that list have a name, though they are no definition. -/
theorem named_iff_of_run_listed :
    SchemaGraph.load noFiles { bannerComment := "" } none listedSchema =
      .ok (mixedGraph listedSchema) ∧ listedSchema.Distinct ∧
    (fragment (objectContext "Root" listedMembers) .root none true).run {} =
      (.ok 0, listedBuilder) ∧
    listedBuilder.processed.lookup listedItems = some 2 ∧
    listedBuilder.graph.get? 2 = some listedItemsNode ∧ listedItemsNode.name = some "Items" ∧
    (listedItemsNode.name.isSome ↔ (mixedGraph (.object listedMembers)).IsDefinition listedItems ∨
      (mixedGraph (.object listedMembers)).IsNamesake listedItems) ∧
    ¬ (mixedGraph (.object listedMembers)).IsDefinition listedItems := by
  have hnormal : (objectContext "Root" listedMembers).schemas = mixedGraph listedSchema ∨
      ∃ name, (objectContext "Root" listedMembers).schemas =
        (mixedGraph listedSchema).normalize name := .inr ⟨"Root", normalize_listedSchema.symm⟩
  have hl : listedBuilder.processed.lookup listedItems = some 2 := rfl
  have hn : listedBuilder.graph.get? 2 = some listedItemsNode := rfl
  have hget : (objectContext "Root" listedMembers).schemas.get? listedItems =
      some (.object [("type", .string "string")]) := rfl
  obtain ⟨hiff, hnot⟩ := named_iff_of_run load_listedSchema distinct_listedSchema hnormal
    run_listedMembers hl hn rfl hget rfl resolve_root_listedItems (by decide) rfl List.not_mem_nil
  exact ⟨load_listedSchema, distinct_listedSchema, run_listedMembers, hl, hn, rfl, hiff,
    fun hdefinition => hnot ⟨hdefinition, isNamesake_listedItems⟩⟩

/-- A fragment may have the name of a definition without being one. -/
theorem exists_named_part : ¬ ∀ (env : Environment) (options : Options) (location : Option FileUrl)
    (schema : Json) (g : SchemaGraph) (name : String) (root : NodeId) (s : Builder) (id : Fragment)
    (v : Json) (i : NodeId) (node : Node), schema.Distinct →
    SchemaGraph.load env options location schema = .ok g →
    (fragment ⟨g.normalize name, name, options⟩ .root none true).run {} = (.ok root, s) →
    s.processed.lookup id = some i → s.graph.get? i = some node → id.variant = none →
    (g.normalize name).get? id = some v → (v.member? "title").bind Json.string? = none →
    (g.normalize name).resolve .root ≠ .ok (.fragment id) → id.pointer ≠ "#" →
    v.member? "tsEnumNames" = none → i ∉ s.needsName →
    (node.name.isSome ↔ (g.normalize name).IsDefinition id) := by
  intro h
  have hiff := h noFiles { bannerComment := "" } none listedSchema _ "Root" 0 listedBuilder listedItems
    (.object [("type", .string "string")]) 2 listedItemsNode distinct_listedSchema load_listedSchema
    run_listedMembers rfl rfl rfl rfl rfl resolve_root_listedItems (by decide) rfl List.not_mem_nil
  exact (hiff.1 rfl).not_namesake distinct_listedGraph isNamesake_listedItems

end Build

end Typewright
