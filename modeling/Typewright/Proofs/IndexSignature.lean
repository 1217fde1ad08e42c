import Typewright.Proofs.Build.Interface
import Typewright.Proofs.Declaration.Keys
import Typewright.Proofs.Root
import Typewright.Proofs.TypeGraph.IndexSignature

/-!
# Index signatures are required

An index signature is built as a required member, and TypeScript knows no optional one. It stays
required unless its type is an unnamed union into which `undefined` gets
(`TypeGraph.required_of_ofSchemas`). Then it is relaxed as any other member would be
(`Job.exists_index_optional`).
-/

namespace Typewright

/-- A required index signature is written without a question mark. -/
theorem Declaration.exists_memberText_index (g : TypeGraph) {m : InterfaceMember}
    (hindex : m.IsIndex) (hrequired : m.required = true) :
    ∃ comment, ∀ type, memberText g m type = comment ++ "[k: string]: " ++ type := by
  obtain ⟨comment, hcomment⟩ := exists_memberText g m
  refine ⟨comment, fun type => ?_⟩
  rw [hcomment, hindex.1, if_pos hrequired]
  simp only [String.append_assoc]
  rfl

namespace TypeGraph

open Build

variable {ctx : BuildContext} {g : TypeGraph}

/-- The index signatures of a built interface are required, unless one is a property of that name. -/
theorem required_of_describes (h : ofSchemas ctx = .ok g)
    (hkeys : ∀ id ms, Occurs ctx (· = .root) id (.object ms) →
      indexSignature ∉ Members.keys (namedMembers ms "properties"))
    {id : NodeId} {node : Node} {members : List InterfaceMember} {supers : List NodeId}
    (get : g.get? id = some node) (kind : node.kind = .interface members supers)
    {m : InterfaceMember} (hm : m ∈ members) (hindex : m.IsIndex) : m.required = true := by
  obtain ⟨s, id, ms, hoccurs, -, hdescribes⟩ := exists_describes_interface h get kind
  obtain ⟨properties, n, hproperties, hwritten⟩ := hdescribes.exists_written
  have hmem : m ∈ members.filter (·.isWritten) := by
    refine List.mem_filter.2 ⟨hm, ?_⟩
    simp [InterfaceMember.isWritten, hindex.2.1, hindex.2.2]
  rw [hwritten] at hmem
  rcases List.mem_append.1 hmem with hmem | hmem
  · refine absurd ?_ (hkeys id ms hoccurs)
    rw [← hproperties, ← hindex.1]
    exact List.mem_map_of_mem hmem
  · split at hmem
    · rw [List.mem_singleton.1 hmem]
      rfl
    · cases hmem

/-- Index signatures are required after a simplification, and are written so, where no property has
their key and each has a type with a name or one that may not be `undefined`. -/
theorem required_of_ofSchemas (h : ofSchemas ctx = .ok g)
    (hkeys : ∀ id ms, Occurs ctx (· = .root) id (.object ms) →
      indexSignature ∉ Members.keys (namedMembers ms "properties"))
    (htype : ∀ id node members supers, g.get? id = some node →
      node.kind = .interface members supers → ∀ m ∈ members, m.IsIndex →
      (∃ name, g.Holds m.node name) ∨ ¬ g.MayBeUndefined m.node)
    (keep : Bool) {id : NodeId} {node : Node} {members : List InterfaceMember}
    {supers : List NodeId} (get : (g.simplify keep).get? id = some node)
    (kind : node.kind = .interface members supers) {m : InterfaceMember} (hm : m ∈ members)
    (hindex : m.IsIndex) :
    m.required = true ∧ ∃ comment, ∀ type,
      Declaration.memberText (g.simplify keep) m type = comment ++ "[k: string]: " ++ type := by
  have hrequired := required_simplify (wellFormed_ofSchemas h)
    (fun i built hi ms ss hk n hn hni =>
      ⟨required_of_describes h hkeys hi hk hn hni, htype i built ms ss hi hk n hn hni⟩)
    keep get kind hm hindex
  exact ⟨hrequired, Declaration.exists_memberText_index _ hindex hrequired⟩

theorem not_mayBeUndefined (h : ∀ id node, g.get? id = some node →
    node.kind ≠ .customType "undefined" ∧ node.kind ≠ .reference "undefined") (id : NodeId) :
    ¬ g.MayBeUndefined id := by
  intro hmay
  induction hmay with
  | text get kind => exact kind.elim (h _ _ get).1 (h _ _ get).2
  | member _ _ _ _ ih => exact ih

end TypeGraph

/-! ## Maps to strings and something else -/

namespace Build

/-- Strings, or what another schema describes. -/
def stringOr (other : Json) : Json :=
  .object [("anyOf", .array [other, .object [("type", .string "string")]])]

/-- The schema of the objects all of whose values are as another schema says. -/
def mapTo (value : Json) : Json := .object [("additionalProperties", value)]

def mapMembers (value : Json) : Members :=
  [("additionalProperties", value), ("required", .array []), ("title", .string "Map")]

def mapGraph (other : Kind) : TypeGraph where
  nodes := #[some { kind := .interface [indexMember 1] [], name := some "Map" },
    some { kind := .union [2, 3] }, some { kind := other }, some { kind := .string }]
  root := 0

/-- Where the values of a map are described. -/
def mapSite : Fragment := below .root ["additionalProperties"]

/-- Where one of two alternatives for the values is described. -/
def alternative (i : Nat) : Fragment := below mapSite ["anyOf", toString i]

section Runs

variable {value other : Json} {kind : Kind} {failed : CompileError → Builder → Prop}

/-- The build of a map comes down to that of the type of its values. -/
theorem ends_mapMembers {further : Members} {done : NodeId → Builder → Prop} :
    Ends (fragment (objectContext "Map" (mapMembers (.object further))) .root none true) {} done failed ↔
      Ends (visit (objectContext "Map" (mapMembers (.object further))) [.root] mapSite (.object further)
          none false) (rootBuilder "Map")
        (fun node t => done 0 { t with
          graph := t.graph.fill 0 { kind := .interface [indexMember node] [], name := some "Map" }
          inProgress := t.inProgress.filter (· != 0) }) failed := by
  have hform : Schema.form false none (.object (mapMembers (.object further))) =
      .interface (mapMembers (.object further)) := by rfl
  have hnone : ∀ keyword ∈ ["patternProperties", "definitions", "$defs", "tsExtends"],
      (mapMembers (.object further)).lookup keyword = none := by
    simp [mapMembers, List.lookup_cons]
  have hproperties : visitEach (objectContext "Map" (mapMembers (.object further))) [.root] .root
      (mapMembers (.object further)) "properties" (fun _ => none) = pure [] := by
    rw [visitEach]
    rfl
  have hindex : visitIndex (objectContext "Map" (mapMembers (.object further))) [.root] .root
      (mapMembers (.object further)) = (do
      let node ← visit (objectContext "Map" (mapMembers (.object further))) [.root] mapSite
        (.object further) none false
      return [indexMember node]) := by
    rw [visitIndex]
    rfl
  rw [ends_objectContext (by rfl) (by rfl) (by rfl), hform, partsOf, interface_eq hnone, hproperties, hindex]
  simp only [ends_bind, ends_pure]
  rfl

/-- The graph of a map to strings or something of a kind without parts. -/
theorem ofSchemas_stringOr (hvariants : none ∈ Schema.variants other)
    (hhint : nameHint (objectContext "Map" (mapMembers (stringOr other))) (alternative 0) other none
      false = none)
    (hdescription : description (alternative 0) other = none)
    (hparts : partsOf (objectContext "Map" (mapMembers (stringOr other)))
      [alternative 0, mapSite, .root] (alternative 0) other none none
      (Schema.form false none other) = pure kind) :
    TypeGraph.ofSchemas (objectContext "Map" (mapMembers (stringOr other))) = .ok (mapGraph kind) := by
  have hself : ∀ id, (objectContext "Map" (mapMembers (stringOr other))).schemas.resolve id =
      .ok (.fragment id) := fun _ => by rfl
  have hform : Schema.form
      (objectContext "Map" (mapMembers (stringOr other))).options.unreachableDefinitions mapSite.variant
      (stringOr other) = .someOf "anyOf" [other, .object [("type", .string "string")]] := by rfl
  have hrun : (fragment (objectContext "Map" (mapMembers (stringOr other))) .root none true).run {} =
      (.ok 0, {
        graph := mapGraph kind
        processed := [(alternative 1, 3), (alternative 0, 2), (mapSite, 1), (.root, 0)]
        usedNames := ["Map"] }) := by
    refine run_of_ends (ends_mapMembers.2 ?_)
    change Ends (visit (objectContext "Map" (mapMembers (stringOr other))) [.root] mapSite
      (stringOr other) none false) _ _ _
    rw [ends_visit_new (hself _) (by rfl) (by decide),
      ends_build_unnamed (by rfl) (mem_variants rfl _), parts_eq, hform, partsOf, visitItems,
      visitItems, visitItems]
    simp only [ends_bind, ends_pure]
    change Ends (visit _ _ (alternative 0) _ _ _) _ _ _
    rw [ends_visit_leaf (hself _) (by rfl) (by decide) hhint hvariants hparts
      List.not_mem_nil, hdescription]
    change Ends (visit _ _ (alternative 1) _ _ _) _ _ _
    rw [ends_visit_leaf (hself _) (by rfl) (by decide) (by rfl) (mem_variants rfl _)
      (show _ = pure Kind.string by rfl) List.not_mem_nil, ends_finishName_of_not_mem List.not_mem_nil]
    exact ⟨trivial, rfl⟩
  unfold TypeGraph.ofSchemas
  rw [hrun]
  rfl

end Runs

/-- A schema that consists of one keyword and a text. -/
def oneKeyword (keyword text : String) : Json := .object [(keyword, .string text)]

theorem ofSchemas_number :
    TypeGraph.ofSchemas (objectContext "Map" (mapMembers (stringOr (oneKeyword "type" "number")))) =
      .ok (mapGraph .number) :=
  ofSchemas_stringOr List.mem_cons_self (by rfl) (by rfl) (by rfl)

theorem ofSchemas_undefined :
    TypeGraph.ofSchemas (objectContext "Map" (mapMembers (stringOr (oneKeyword "tsType" "undefined")))) =
      .ok (mapGraph (.customType "undefined")) :=
  ofSchemas_stringOr List.mem_cons_self (by rfl) (by rfl) (by rfl)

/-- No schema of these two maps has properties. -/
theorem not_mem_properties {other : Json}
    (hother : other = oneKeyword "type" "number" ∨ other = oneKeyword "tsType" "undefined")
    {id : Fragment} {ms : Members}
    (h : Occurs (objectContext "Map" (mapMembers (stringOr other))) (· = .root) id (.object ms)) :
    indexSignature ∉ Members.keys (namedMembers ms "properties") := by
  have hd : (Json.object (mapMembers (stringOr other))).Distinct := by
    rcases hother with rfl | rfl <;>
      simp [mapMembers, stringOr, oneKeyword, Json.Distinct, Json.DistinctMembers,
        Json.DistinctItems, Members.keys]
  have hall : ∀ p ∈ Schema.positions "#" (.object (mapMembers (stringOr other))),
      indexSignature ∉ Members.keys (namedMembers (p.2.members?.getD []) "properties") := by
    rcases hother with rfl | rfl <;> decide +kernel
  obtain ⟨path, hmem⟩ := mem_positions_objectContext hd h rfl
  exact hall _ hmem

end Build

namespace TypeGraph

open Build

/-- The values of a map may be numbers, and its index signature stays required. -/
theorem required_of_ofSchemas_number :
    ∃ m : InterfaceMember, ((mapGraph .number).simplify false).get? 0 =
        some { kind := .interface [m] [], name := some "Map" } ∧ m.IsIndex ∧ m.required = true ∧
      ∃ comment, ∀ type, Declaration.memberText ((mapGraph .number).simplify false) m type =
        comment ++ "[k: string]: " ++ type := by
  have get : ((mapGraph .number).simplify false).get? 0 =
      some { kind := .interface [indexMember 1] [], name := some "Map" } := by cbv
  have htexts : ∀ id < 4, ∀ node ∈ (mapGraph .number).get? id,
      node.kind ≠ .customType "undefined" ∧ node.kind ≠ .reference "undefined" := by decide
  have hmay := not_mayBeUndefined (g := mapGraph .number) fun id node hn =>
    htexts id ((mapGraph .number).lt_size_of_get? hn) node hn
  have hindex : (indexMember 1).IsIndex := ⟨rfl, rfl, rfl⟩
  exact ⟨indexMember 1, get, hindex, required_of_ofSchemas ofSchemas_number
    (fun _ _ ho => not_mem_properties (.inl rfl) ho) (fun _ _ _ _ _ _ m _ _ => .inr (hmay m.node))
    false get rfl List.mem_cons_self hindex⟩

end TypeGraph

namespace Job

open Build

/-- The stages of a compile of a single document in memory. -/
theorem stages_objectContext {name written out : String} {schema : Json} {ms : Members}
    {g : TypeGraph} (hchecked : check name schema = .ok ())
    (hloaded : SchemaGraph.load noFiles { bannerComment := "" } none schema =
      .ok (mixedGraph schema))
    (hnormal : (mixedGraph schema).normalize name = mixedGraph (.object ms))
    (hbuilt : TypeGraph.ofSchemas (objectContext name ms) = .ok g)
    (hwritten : Declaration.text { bannerComment := "" } (g.simplify false) = .ok written)
    (hout : Layout.format {} written = .ok out) :
    (inMemory {} name schema).Stages noFiles (mixedGraph schema) g written out where
  checked := hchecked
  loaded := hloaded
  built := by
    rw [← hbuilt]
    exact congrArg (fun schemas => TypeGraph.ofSchemas ⟨schemas, name, { bannerComment := "" }⟩)
      hnormal
  declared := hwritten
  laidOut := hout

/-- An index signature may become optional: a union with `undefined` is relaxed as the type of any
member is, and what is printed is no TypeScript. -/
theorem exists_index_optional : ¬ ∀ (env : Environment) (job : Job) (schemas : SchemaGraph)
    (g : TypeGraph) (written out : String), job.Stages env schemas g written out →
    (∀ id ms, Occurs (job.context schemas) (· = .root) id (.object ms) →
      indexSignature ∉ Members.keys (namedMembers ms "properties")) →
    ∀ id node members supers,
      (g.simplify job.options.unreachableDefinitions).get? id = some node →
      node.kind = .interface members supers → ∀ m ∈ members, m.IsIndex → m.required = true := by
  intro h
  have hstages : (inMemory {} "Map" (mapTo (stringOr (oneKeyword "tsType" "undefined")))).Stages
      noFiles (mixedGraph (mapTo (stringOr (oneKeyword "tsType" "undefined"))))
      (mapGraph (.customType "undefined"))
      "export interface Map \x7b\n[k: string]?: string\n\x7d\n"
      "export interface Map \x7b\n  [k: string]?: string;\n\x7d\n" :=
    stages_objectContext (by cbv) (by cbv) (by rfl) ofSchemas_undefined (by cbv) (by decide +kernel)
  have get : ((mapGraph (.customType "undefined")).simplify false).get? 0 = some {
      kind := .interface [{ indexMember 1 with required := false }] []
      name := some "Map" } := by cbv
  have hrequired := h noFiles _ _ _ _ _ hstages
    (fun id ms ho => not_mem_properties (.inr rfl) ho) 0 _ _ _ get rfl _ List.mem_cons_self
    ⟨rfl, rfl, rfl⟩
  cases hrequired

end Job

end Typewright
