import Typewright.Proofs.Build.Enums
import Typewright.Proofs.Definitions
import Typewright.Proofs.IndexSignature

/-!
# Keys in one body

The keys in the body of an interface are those of the properties and that of the index signature,
the keys in the body of an enum the names that a schema gives for its values, or fresh ones. They
are distinct (`Job.keys_distinct_of_run`) unless a property has the key of the index signature or a
name is given twice: then a key is written twice (`Job.exists_keys_repeated`).
-/

namespace Typewright

namespace Build

variable {ctx : BuildContext} {s : Builder} {id : Fragment} {ms : Members} {values : List Json}

/-! ## Interfaces -/

/-- The keys in the body of an object schema's interface. -/
def interfaceKeys (ms : Members) : List String :=
  Members.keys (namedMembers ms "properties") ++ if Schema.hasIndex ms then [indexSignature] else []

theorem DescribesInterface.keys_eq {kind : Kind} (h : DescribesInterface ctx s id ms kind) :
    kind.keys = interfaceKeys ms := by
  obtain ⟨members, supers, rfl⟩ := h.exists_interface
  obtain ⟨properties, node, hproperties, hwritten⟩ := h.exists_written
  rw [Kind.keys, hwritten, List.map_append, hproperties, interfaceKeys]
  split <;> rfl

theorem nodup_keys_namedMembers (hd : (Json.object ms).Distinct) (keyword : String) :
    (Members.keys (namedMembers ms keyword)).Nodup := by
  unfold namedMembers
  cases hl : ms.lookup keyword with
  | none => exact List.nodup_nil
  | some value =>
      have hvalue := hd.lookup hl
      cases value with
      | object named => exact (Json.distinct_object.1 hvalue).1
      | _ => exact List.nodup_nil

/-- Properties have distinct keys, and the index signature has another if no property has its. -/
theorem nodup_interfaceKeys (hd : (Json.object ms).Distinct)
    (h : indexSignature ∈ Members.keys (namedMembers ms "properties") →
      Schema.hasIndex ms = false) : (interfaceKeys ms).Nodup := by
  refine List.Nodup.append (nodup_keys_namedMembers hd "properties") ?_ fun key hkey hindex => ?_
  · split
    · exact List.nodup_singleton _
    · exact List.nodup_nil
  · split at hindex
    · rename_i hhas
      rw [List.mem_singleton.1 hindex] at hkey
      rw [h hkey] at hhas
      cases hhas
    · cases hindex

/-! ## Enums -/

/-- The names that are given for values, as far as there are values. -/
def givenKeys (names values : List Json) : List String :=
  (names.zip values).map fun pair => pair.1.string?.getD ""

/-- The keys in the body of an enum. -/
def enumKeys (ms : Members) (values : List Json) : List String :=
  match (ms.lookup "tsEnumNames").bind Json.items? with
  | some names => givenKeys names values
  | none => valueKeys values

theorem enumKeys_of_some {names : List Json}
    (h : (ms.lookup "tsEnumNames").bind Json.items? = some names) :
    enumKeys ms values = givenKeys names values := by
  rw [enumKeys, h]

theorem enumKeys_of_none (h : (ms.lookup "tsEnumNames").bind Json.items? = none) :
    enumKeys ms values = valueKeys values := by
  rw [enumKeys, h]

/-- The keys that are made of values are distinct, for each is fresh among those before. -/
theorem nodup_valueKeys (values : List Json) : (valueKeys values).Nodup := by
  unfold valueKeys
  -- the keys so far are those that are used
  have hfold : ∀ step : List String × List String → Json → List String × List String,
      (∀ keys v, ∃ key, key ∉ keys ∧ step (keys, keys) v = (keys ++ [key], keys ++ [key])) →
      ∀ keys : List String, keys.Nodup → (values.foldl step (keys, keys)).1.Nodup := by
    intro step hstep
    induction values with
    | nil => exact fun _ hnodup => hnodup
    | cons v rest ih =>
        intro keys hnodup
        obtain ⟨key, hnew, heq⟩ := hstep keys v
        rw [List.foldl_cons, heq]
        exact ih _ (hnodup.append (List.nodup_singleton _) (by simpa using hnew))
  exact hfold _ (fun keys v => ⟨_, Identifier.fresh_not_mem _ keys, rfl⟩) [] List.nodup_nil

theorem DescribesEnum.keys_eq {members : List EnumMember}
    (h : DescribesEnum s ms values (.enum members)) :
    (Kind.enum members).keys = enumKeys ms values := by
  unfold DescribesEnum at h
  split at h
  · rename_i names hnames
    obtain ⟨nodes, hleaves, hkind⟩ := h
    obtain rfl := Kind.enum.inj hkind
    have hlength : (names.zip values).length = nodes.length := by
      rw [← hleaves.length_eq, List.length_map]
    calc (Kind.enum _).keys
        = (((names.zip values).zip nodes).map (·.1)).map fun pair => pair.1.string?.getD "" := by
          rw [Kind.keys, List.map_map, List.map_map]
          rfl
      _ = givenKeys names values := by rw [List.map_fst_zip (Nat.le_of_eq hlength), givenKeys]
      _ = enumKeys ms values := (enumKeys_of_some hnames).symm
  · rename_i hnone
    obtain ⟨nodes, hleaves, hkind | hkind⟩ := h
    · cases hkind
    · obtain rfl := Kind.enum.inj hkind
      have hlength : (valueKeys values).length = nodes.length :=
        (length_valueKeys values).trans hleaves.length_eq
      rw [enumKeys_of_none hnone, Kind.keys, List.map_map]
      exact List.map_fst_zip (Nat.le_of_eq hlength)

/-! ## Clashes -/

/-- Keys of a body that clash: a property has the key of the index signature beside it, or one name
is given for two values. -/
inductive ClashingKeys (ctx : BuildContext) : List String → Prop
  | index {id : Fragment} {ms : Members} (occurs : Occurs ctx (· = .root) id (.object ms))
      (form : Schema.form ctx.options.unreachableDefinitions id.variant (.object ms) =
        .interface ms)
      (property : indexSignature ∈ Members.keys (namedMembers ms "properties"))
      (index : Schema.hasIndex ms = true) : ClashingKeys ctx (interfaceKeys ms)
  | names {id : Fragment} {ms : Members} {values names : List Json}
      (occurs : Occurs ctx (· = .root) id (.object ms))
      (enum : ms.lookup "enum" = some (.array values))
      (given : (ms.lookup "tsEnumNames").bind Json.items? = some names)
      (repeated : ¬ (givenKeys names values).Nodup) : ClashingKeys ctx (givenKeys names values)

end Build

namespace TypeGraph

open Build

variable {ctx : BuildContext} {g : TypeGraph} {id : NodeId} {node : Node}

/-- The keys of a body in a built graph are distinct unless they clash. -/
theorem nodup_keys_of_ofSchemas (h : ofSchemas ctx = .ok g) (hd : ctx.schemas.Distinct)
    (hn : g.get? id = some node) (hclash : ¬ ClashingKeys ctx node.kind.keys) :
    node.kind.keys.Nodup := by
  cases hk : node.kind with
  | interface members supers =>
      obtain ⟨s, site, ms, hoccurs, hform, hdescribes⟩ := exists_describes_interface h hn hk
      rw [hk, hdescribes.keys_eq] at hclash
      rw [hdescribes.keys_eq]
      refine nodup_interfaceKeys (hd.get? (hoccurs.get? hd)) fun hproperty => ?_
      by_contra hhas
      exact hclash (.index hoccurs hform hproperty (Bool.eq_true_of_not_eq_false hhas))
  | enum members =>
      rcases describes_or_loose h hn with ⟨s, site, schema, hoccurs, hdescribes⟩ | hloose
      · obtain ⟨ms, values, rfl, hvalues, henum⟩ := (hk ▸ hdescribes).enum
        rw [hk, henum.keys_eq] at hclash
        rw [henum.keys_eq]
        cases hnames : (ms.lookup "tsEnumNames").bind Json.items? with
        | some names =>
            rw [enumKeys_of_some hnames] at hclash ⊢
            by_contra hrepeated
            exact hclash (.names hoccurs hvalues hnames hrepeated)
        | none =>
            rw [enumKeys_of_none hnames]
            exact nodup_valueKeys values
      · rw [hk] at hloose
        cases hloose
  | _ => exact List.nodup_nil

/-- The keys of a body after a simplification are distinct unless they clash. -/
theorem nodup_keys_of_simplify (h : ofSchemas ctx = .ok g) (hd : ctx.schemas.Distinct) {keep : Bool}
    (hn : (g.simplify keep).get? id = some node) (hclash : ¬ ClashingKeys ctx node.kind.keys) :
    node.kind.keys.Nodup := by
  by_cases hne : node.kind.keys = []
  · rw [hne]
    exact List.nodup_nil
  · obtain ⟨i, built, hbuilt, hkeys⟩ :=
      hasKeys_of_simplify (wellFormed_ofSchemas h).inside hne ⟨id, node, hn, rfl⟩
    exact hkeys ▸ nodup_keys_of_ofSchemas h hd hbuilt (hkeys ▸ hclash)

end TypeGraph

namespace Job

open Build

variable {env : Environment} {job : Job} {out : String}

/-- Each body of a compile that succeeds shows its keys once, unless they clash. -/
theorem keys_distinct_of_run (h : job.run env = .ok out) (hd : job.schema.Distinct) :
    ∃ schemas g written, job.Stages env schemas g written out ∧
      ∀ id node, (g.simplify job.options.unreachableDefinitions).get? id = some node →
        ¬ ClashingKeys (job.context schemas) node.kind.keys →
        Declaration.ShowsOnce (g.simplify job.options.unreachableDefinitions) job.options id
          node := by
  obtain ⟨schemas, g, written, hs⟩ := exists_stages h
  exact ⟨schemas, g, written, hs, fun id node hn hclash => Declaration.showsOnce_of_nodup
    (TypeGraph.nodup_keys_of_simplify hs.built (hs.distinct_context hd) hn hclash)⟩

end Job

/-! ## Clashing bodies -/

namespace Build

/-- An enum of two letters under given names. -/
def letters (names : List Json) : Json :=
  .object [("enum", .array [.string "a", .string "b"]), ("tsEnumNames", .array names)]

def letterMembers (names : List Json) : Members :=
  [("enum", .array [.string "a", .string "b"]), ("tsEnumNames", .array names),
    ("required", .array []), ("title", .string "Letter")]

def letterNode (first second : String) : Node :=
  { kind := .enum [⟨first, 1⟩, ⟨second, 2⟩], name := some "Letter" }

def letterGraph (first second : String) : TypeGraph where
  nodes := #[some (letterNode first second), some { kind := .literal (.string "a") },
    some { kind := .literal (.string "b") }]
  root := 0

theorem ofSchemas_letters (first second : String) :
    TypeGraph.ofSchemas (objectContext "Letter" (letterMembers [.string first, .string second])) =
      .ok (letterGraph first second) := by
  have hform : Schema.form false none (.object (letterMembers [.string first, .string second])) =
      .enumeration [.string "a", .string "b"] := by rfl
  have hnames : ((letterMembers [.string first, .string second]).lookup "tsEnumNames").bind
      Json.items? = some [.string first, .string second] := by rfl
  have hrun : (fragment (objectContext "Letter" (letterMembers [.string first, .string second]))
      .root none true).run {} = (.ok 0, {
        graph := letterGraph first second
        processed := [(.root, 0)]
        usedNames := ["Letter"] }) := by
    refine run_of_ends ((ends_objectContext (by rfl) (by rfl) (by rfl)).2 ?_)
    rw [hform, partsOf, enumKind]
    dsimp only [Json.members?, Option.getD_some]
    rw [hnames]
    exact ⟨rfl, rfl⟩
  unfold TypeGraph.ofSchemas
  rw [hrun]
  rfl

/-- An object schema with a property that has the key of the index signature. -/
def indexProperty : Json :=
  .object [("properties", .object [(indexSignature, .object [("type", .string "string")])])]

def indexPropertyMembers : Members :=
  [("properties", .object [(indexSignature, .object [("type", .string "string")])]),
    ("additionalProperties", .bool true), ("required", .array []), ("title", .string "Map")]

def indexPropertyNode : Node :=
  { kind := .interface [{ indexMember 1 with required := false }, indexMember 2] []
    name := some "Map" }

def indexPropertyGraph : TypeGraph where
  nodes := #[some indexPropertyNode, some { kind := .string, key := some indexSignature },
    some { kind := .any }]
  root := 0

theorem ofSchemas_indexProperty :
    TypeGraph.ofSchemas (objectContext "Map" indexPropertyMembers) = .ok indexPropertyGraph := by
  have hself : ∀ id, (objectContext "Map" indexPropertyMembers).schemas.resolve id =
      .ok (.fragment id) := fun _ => by rfl
  have hform : Schema.form false none (.object indexPropertyMembers) =
      .interface indexPropertyMembers := by rfl
  have hnone : ∀ keyword ∈ ["patternProperties", "definitions", "$defs", "tsExtends"],
      indexPropertyMembers.lookup keyword = none := by decide
  have hproperties : visitEach (objectContext "Map" indexPropertyMembers) [.root] .root
      indexPropertyMembers "properties" (fun _ => none) =
      visitNamed (objectContext "Map" indexPropertyMembers) [.root] .root "properties"
        (fun _ => none) [(indexSignature, .object [("type", .string "string")])] := by
    rw [visitEach]
    rfl
  have hindex : visitIndex (objectContext "Map" indexPropertyMembers) [.root] .root
      indexPropertyMembers = (do
      let node ← add .any
      return [indexMember node]) := by
    rw [visitIndex]
    rfl
  have hrun : (fragment (objectContext "Map" indexPropertyMembers) .root none true).run {} =
      (.ok 0, {
        graph := indexPropertyGraph
        processed := [(below .root ["properties", indexSignature], 1), (.root, 0)]
        usedNames := ["Map"] }) := by
    refine run_of_ends ((ends_objectContext (by rfl) (by rfl) (by rfl)).2 ?_)
    rw [hform, partsOf, interface_eq hnone, hproperties, hindex, visitNamed, visitNamed]
    simp only [ends_bind, ends_pure]
    rw [ends_visit_leaf (hself _) (by rfl) (by decide) (by rfl) (mem_variants rfl _)
      (show _ = pure Kind.string by rfl) List.not_mem_nil]
    exact ⟨trivial, rfl⟩
  unfold TypeGraph.ofSchemas
  rw [hrun]
  rfl

end Build

namespace Job

open Build

theorem stages_letters (first second written out : String)
    (hwritten : Declaration.text { bannerComment := "" }
      ((letterGraph first second).simplify false) = .ok written)
    (hout : Layout.format {} written = .ok out) :
    (inMemory {} "Letter" (letters [.string first, .string second])).Stages noFiles
      (mixedGraph (letters [.string first, .string second])) (letterGraph first second) written
      out :=
  stages_objectContext (by cbv) (by cbv) (by cbv) (ofSchemas_letters first second) hwritten hout

/-- Letters under two names show each name once. -/
theorem keys_distinct_of_run_letters :
    (inMemory {} "Letter" (letters [.string "A", .string "B"])).run noFiles =
      .ok "export const enum Letter \x7b\n  A = \"a\",\n  B = \"b\"\n\x7d\n" ∧
    Declaration.ShowsOnce ((letterGraph "A" "B").simplify false) { bannerComment := "" } 0
      (letterNode "A" "B") := by
  have hstages := stages_letters "A" "B"
    "export const enum Letter \x7b\nA = \"a\",\nB = \"b\"\n\x7d\n"
    "export const enum Letter \x7b\n  A = \"a\",\n  B = \"b\"\n\x7d\n"
    (by cbv) (by decide +kernel)
  have hd : (letters [.string "A", .string "B"]).Distinct := by
    simp [letters, Json.Distinct, Json.DistinctMembers, Json.DistinctItems, Members.keys]
  obtain ⟨schemas, g, written, hs, hshows⟩ := keys_distinct_of_run hstages.run_eq hd
  obtain rfl := Except.ok.inj (hs.loaded.symm.trans hstages.loaded)
  obtain rfl := Except.ok.inj (hs.built.symm.trans hstages.built)
  have get : ((letterGraph "A" "B").simplify false).get? 0 = some (letterNode "A" "B") := by cbv
  refine ⟨hstages.run_eq, hshows 0 _ get fun hclash => ?_⟩
  change ClashingKeys _ ["A", "B"] at hclash
  generalize hkeys : ["A", "B"] = keys at hclash
  cases hclash with
  | index _ _ property _ =>
      have hmem : indexSignature ∈ ["A", "B"] := hkeys ▸ List.mem_append_left _ property
      exact absurd hmem (by decide)
  | names _ _ _ repeated => exact repeated (hkeys ▸ by decide)

/-- The keys of a body may be written twice, in an interface and in an enum. -/
theorem exists_keys_repeated :
    (¬ ∀ (env : Environment) (job : Job) (schemas : SchemaGraph) (g : TypeGraph)
      (written out : String), job.schema.Distinct → job.Stages env schemas g written out →
      ∀ id node members supers,
        (g.simplify job.options.unreachableDefinitions).get? id = some node →
        node.kind = .interface members supers → (Declaration.writtenKeys node.kind).Nodup) ∧
    ¬ ∀ (env : Environment) (job : Job) (schemas : SchemaGraph) (g : TypeGraph)
      (written out : String), job.schema.Distinct → job.Stages env schemas g written out →
      ∀ id node members, (g.simplify job.options.unreachableDefinitions).get? id = some node →
        node.kind = .enum members → (Declaration.writtenKeys node.kind).Nodup := by
  constructor
  · intro h
    have hstages : (inMemory {} "Map" indexProperty).Stages noFiles (mixedGraph indexProperty)
        indexPropertyGraph
        "export interface Map \x7b\n[k: string]?: string\n[k: string]: any\n\x7d\n"
        "export interface Map \x7b\n  [k: string]?: string;\n  [k: string]: any;\n\x7d\n" :=
      stages_objectContext (by cbv) (by cbv) (by rfl) ofSchemas_indexProperty (by cbv)
        (by decide +kernel)
    have hd : indexProperty.Distinct := by
      simp [indexProperty, Json.Distinct, Json.DistinctMembers, Members.keys]
    have get : (indexPropertyGraph.simplify false).get? 0 = some indexPropertyNode := by cbv
    have hnodup := h noFiles _ _ _ _ _ hd hstages 0 _ _ _ get rfl
    exact absurd hnodup (by decide)
  · intro h
    have hstages := stages_letters "A" "A"
      "export const enum Letter \x7b\nA = \"a\",\nA = \"b\"\n\x7d\n"
      "export const enum Letter \x7b\n  A = \"a\",\n  A = \"b\"\n\x7d\n"
      (by cbv) (by decide +kernel)
    have hd : (letters [.string "A", .string "A"]).Distinct := by
      simp [letters, Json.Distinct, Json.DistinctMembers, Json.DistinctItems, Members.keys]
    have get : ((letterGraph "A" "A").simplify false).get? 0 = some (letterNode "A" "A") := by cbv
    have hnodup := h noFiles _ _ _ _ _ hd hstages 0 _ _ get rfl
    exact absurd hnodup (by decide)

end Job

end Typewright
