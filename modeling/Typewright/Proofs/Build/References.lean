import Mathlib
import Typewright.Compile
import Typewright.Proofs.Build.Names
import Typewright.Proofs.Graph.Normal

/-!
# References that a build meets

A build reads schemas that the loading may not have scanned: what lies below the target of a
reference outside the positions of its document. Where all targets are at positions, no node is built
for a reference (`not_reference_of_processed`); in general one may be (`exists_reference_processed`).
-/

namespace Typewright

namespace Build

variable {ctx : BuildContext} {asked : Request → Prop} {id : Fragment} {schema : Json}

/-! ## Where a schema stands -/

/-- The value at a part of a schema. -/
theorem get?_below {ms : Members} {steps : List String} {v : Json} (hd : ctx.schemas.Distinct)
    (h : ctx.schemas.get? id = some (.object ms)) (hp : Schema.Part ms steps v) :
    ctx.schemas.get? (below id steps) = some v := by
  obtain ⟨d, hdoc, hat⟩ := Option.bind_eq_some_iff.1 h
  refine Option.bind_eq_some_iff.2 ⟨d, hdoc, ?_⟩
  rw [below, Json.at?_build hat, hp.follow? (hd.get? h)]

/-- A schema that a build comes to is the value of its fragment. -/
theorem Occurs.get? (h : Occurs ctx asked id schema) (hd : ctx.schemas.Distinct) :
    ctx.schemas.get? id = some schema := by
  induction h with
  | site _ h => exact h
  | target _ h => exact h
  | part _ hp ih => exact get?_below hd ih hp
  | variant _ _ _ ih => exact ih

/-- The entries of a `type` list are those of a schema that is no reference. -/
theorem Occurs.variant_eq_none (h : Occurs ctx asked id schema)
    (hs : ∀ r, asked r → r.site.variant = none) (ht : ∀ id ∈ ctx.schemas.targets, id.variant = none) :
    id.variant = none ∨ ctx.schemas.refs.lookup { id with variant := none } = none := by
  induction h with
  | site hsite _ => exact .inl (hs _ hsite)
  | target htarget _ => exact .inl (ht _ htarget)
  | part _ _ _ => exact .inl rfl
  | @variant id _ v _ hr ih =>
      right
      rcases ih with hv | hv
      · rw [← hv]
        exact hr
      · exact hv

/-- Where all sites and targets are scanned, a build stays at scanned positions. -/
theorem Occurs.mem_positions (h : Occurs ctx asked id schema) (hd : ctx.schemas.Distinct)
    (hs : ∀ r, asked r → ctx.schemas.Scans r.site)
    (ht : ∀ id ∈ ctx.schemas.targets, ctx.schemas.Scans id) (hschema : schema.isSchema = true) :
    ∃ d, ctx.schemas.documents[id.document]? = some d ∧
      (id.pointer, schema) ∈ Schema.positions "#" d.root := by
  have hscanned : ∀ {id : Fragment} {schema : Json}, ctx.schemas.Scans id →
      ctx.schemas.get? id = some schema → ∃ d, ctx.schemas.documents[id.document]? = some d ∧
        (id.pointer, schema) ∈ Schema.positions "#" d.root := by
    intro id schema hscans hget
    obtain ⟨d, c, hdoc, hc, hid⟩ := hscans
    have hat := (Schema.at?_of_mem_positions rfl (hd d (List.mem_of_getElem? hdoc)) c hc).1
    rw [SchemaGraph.get?, hdoc, Option.bind_some, hid, hat] at hget
    refine ⟨d, hdoc, ?_⟩
    rw [hid, ← Option.some.inj hget]
    exact hc
  induction h with
  | site hsite hget => exact hscanned (hs _ hsite) hget
  | target htarget hget => exact hscanned (ht _ htarget) hget
  | part _ hp ih =>
      obtain ⟨d, hdoc, hmem⟩ := ih rfl
      exact ⟨d, hdoc, Schema.mem_positions_of_part hmem hp hschema⟩
  | variant _ _ _ ih => exact ih hschema

/-! ## References -/

/-- No files at all. -/
def noFiles : Environment := ⟨"/", fun _ => .missing⟩

theorem isSchema_of_reference? {v : Json} (h : (Loading.reference? v).isSome) :
    v.isSchema = true := by
  cases v with
  | object ms => rfl
  | _ => cases h

/-- A build that stays at scanned positions meets no reference: each was followed to its end. -/
theorem Occurs.not_reference (h : Occurs ctx asked id schema) (hd : ctx.schemas.Distinct)
    (hrec : ctx.schemas.Recorded) (hs : ∀ r, asked r → ctx.schemas.Scans r.site)
    (ht : ∀ id ∈ ctx.schemas.targets, ctx.schemas.Scans id)
    (hr : ctx.schemas.refs.lookup id = none) : Loading.reference? schema = none := by
  have hvariant : ∀ {id}, ctx.schemas.Scans id → id.variant = none := by
    rintro id ⟨_, _, _, _, hid⟩
    rw [hid]
  have hbase : ctx.schemas.refs.lookup { id with variant := none } = none := by
    rcases h.variant_eq_none (fun id hid => hvariant (hs id hid))
      (fun id hid => hvariant (ht id hid)) with hv | hv
    · rw [← hv]
      exact hr
    · exact hv
  by_contra hsome
  have hsome := Option.isSome_iff_ne_none.2 hsome
  obtain ⟨d, hdoc, hmem⟩ := h.mem_positions hd hs ht (isSchema_of_reference? hsome)
  have hrecorded := hrec id.document d hdoc _ hmem hsome
  rw [hbase] at hrecorded
  cases hrecorded

/-- No reference is ignored where all references point at scanned positions: whatever requests a
builder serves, each fragment that has a node has a value that is no reference. -/
theorem not_reference_of_processed {env : Environment} {options : Options}
    {location : Option FileUrl} {g : SchemaGraph} {name : String} {requests : List Request}
    (h : SchemaGraph.load env options location schema = .ok g) (hd : schema.Distinct)
    (ht : ∀ id ∈ g.targets, g.Scans id) (hr : ∀ r ∈ requests, g.Scans r.site) {i : NodeId}
    (hl : (serve ⟨g.normalize name, name, options⟩ {} requests).processed.lookup id = some i) :
    ∃ v, (g.normalize name).get? id = some v ∧ Loading.reference? v = none := by
  have hg := SchemaGraph.distinct_of_load h hd
  have hrec := (SchemaGraph.recorded_of_load h).2
  have hd' := hg.normalize name
  obtain ⟨hc, -⟩ := keeps_serve
    (consistent_empty ⟨g.normalize name, name, options⟩
      (fun r => (g.normalize name).Scans r.site) [])
    fun r hmem => (hr r hmem).normalize hg name
  obtain ⟨-, hnone, v, hoccurs, -⟩ := hc.processed id i hl
  have ht' : ∀ id ∈ (g.normalize name).targets, (g.normalize name).Scans id := fun id hmem =>
    (ht id (SchemaGraph.targets_normalize g name ▸ hmem)).normalize hg name
  exact ⟨v, hoccurs.get? hd',
    hoccurs.not_reference hd' (hrec.normalize hg name) (fun _ h => h) ht' hnone⟩

theorem load_recursiveList (banner : String) :
    SchemaGraph.load noFiles { bannerComment := banner } none recursiveList =
      .ok recursiveContext.schemas := by
  cbv

/-- The build of the recursive lists in normal form. -/
theorem run_recursiveList (banner : String) :
    (fragment ⟨recursiveContext.schemas.normalize "Root", "Root", { bannerComment := banner }⟩
      .root none true).run {} = (.ok 0, {
        graph := ⟨#[some { kind := .array 0, name := some "List" }], 0⟩
        processed := [(.root, 0)]
        usedNames := ["List"]
        needsName := [0] }) := by
  have hnormal : recursiveContext.schemas.normalize "Root" = { recursiveContext.schemas with
      documents := [⟨none, .object [("title", .string "List"), ("type", .string "array"),
        ("items", .object [("$ref", .string "#")]), ("required", .array [])]⟩] } := by cbv
  rw [hnormal, run_recursive (by rfl) (by rfl) (by rfl) (by rfl) (by rfl)]
  rfl

/-- The reference in the schema of recursive lists is followed. -/
theorem not_reference_of_processed_recursiveList :
    SchemaGraph.load noFiles {} none recursiveList = .ok recursiveContext.schemas ∧
    recursiveList.Distinct ∧
    ∃ v, (recursiveContext.schemas.normalize "Root").get? .root = some v ∧
      Loading.reference? v = none := by
  have hload : SchemaGraph.load noFiles {} none recursiveList = .ok recursiveContext.schemas :=
    load_recursiveList _
  have hd : recursiveList.Distinct :=
    ⟨by decide, trivial, trivial, ⟨List.nodup_singleton _, trivial, trivial⟩, trivial⟩
  have hscans : recursiveContext.schemas.Scans .root :=
    ⟨⟨none, recursiveList⟩, ("#", recursiveList), rfl, Schema.mem_positions_self _ _, rfl⟩
  have hrun : (serve ⟨recursiveContext.schemas.normalize "Root", "Root", {}⟩ {}
      [⟨.root, none, true⟩]).processed.lookup .root = some 0 := by
    change ((fragment _ .root none true).run {}).2.processed.lookup .root = some 0
    rw [run_recursiveList]
    rfl
  exact ⟨hload, hd, not_reference_of_processed hload hd (fun id hmem => by
      rw [List.mem_singleton.1 (show id ∈ [Fragment.root] from hmem)]
      exact hscans)
    (fun r hmem => by
      rw [List.mem_singleton.1 hmem]
      exact hscans) hrun⟩

/-! ## A schema outside the positions -/

/-- A fragment that is at no position: `components` is no keyword. -/
def component : Fragment := ⟨0, "#/components/X", none⟩

/-- The schema of the lists whose items are as a schema at no position says. -/
def listOfComponent (ms : Members) : Json :=
  .object [("items", .object [("$ref", .string "#/components/X")]),
    ("components", .object [("X", .object ms)])]

def normalListOfComponent (ms : Members) : Json :=
  .object [("components", .object [("X", .object ms)]),
    ("items", .object [("$ref", .string "#/components/X")]), ("required", .array []),
    ("title", .string "List")]

/-- The graph of a document whose items refer to the component. -/
def componentGraph (root : Json) : SchemaGraph where
  documents := [⟨none, root⟩]
  refs := [(below .root ["items"], .fragment component)]
  maxDepth := 50

/-- The compile of such a schema, in a short form: nothing stands above the declarations. -/
def componentJob (ms : Members) : Job where
  options := { bannerComment := "" }
  location := none
  name := "List"
  schema := listOfComponent ms

def componentContext (ms : Members) : BuildContext where
  schemas := componentGraph (normalListOfComponent ms)
  rootName := "List"
  options := { bannerComment := "" }

theorem distinct_listOfComponent {ms : Members} (h : (Json.object ms).Distinct) :
    (listOfComponent ms).Distinct := by
  have href : (Json.object [("$ref", .string "#/components/X")]).Distinct :=
    ⟨List.nodup_singleton _, trivial, trivial⟩
  have hcomponents : (Json.object [("X", .object ms)]).Distinct :=
    ⟨List.nodup_singleton _, h, trivial⟩
  exact ⟨(by decide : ["items", "components"].Nodup), href, hcomponents, trivial⟩

theorem check_listOfComponent (ms : Members) :
    check "List" (listOfComponent ms) = .ok () := by cbv

theorem load_listOfComponent (ms : Members) :
    SchemaGraph.load noFiles { bannerComment := "" } none (listOfComponent ms) =
      .ok (componentGraph (listOfComponent ms)) := by cbv

theorem normalize_listOfComponent (ms : Members) :
    (componentGraph (listOfComponent ms)).normalize "List" =
      componentGraph (normalListOfComponent ms) := by cbv

/-- What a request for the root of such a list leaves behind. -/
theorem serve_listOfComponent (ms : Members) :
    serve ⟨(componentGraph (listOfComponent ms)).normalize "List", "List",
      { bannerComment := "" }⟩ {} [⟨.root, none, true⟩] =
    ((fragment (componentContext ms) .root none true).run {}).2 := by
  rw [normalize_listOfComponent]
  rfl

section

variable {done : NodeId → Builder → Prop} {failed : CompileError → Builder → Prop}

/-- The build of such a list comes down to the build of the component. -/
theorem ends_componentContext (ms : Members) :
    Ends (fragment (componentContext ms) .root none true) {} done failed ↔
      Ends (build (componentContext ms) [.root] component (.object ms) none false (by decide))
        { graph := ⟨#[none], 0⟩, processed := [(.root, 0)], usedNames := ["List"],
          inProgress := [0] }
        (fun node t => done 0 { t with
          graph := t.graph.fill 0 { kind := .array node, name := some "List" }
          inProgress := t.inProgress.filter (· != 0) }) failed := by
  have hroot : (componentContext ms).schemas.resolve .root = .ok (.fragment .root) := by rfl
  have hitems : (componentContext ms).schemas.resolve (below .root ["items"]) =
      .ok (.fragment component) := by rfl
  have hform : Schema.form (componentContext ms).options.unreachableDefinitions
      (Fragment.root).variant (normalListOfComponent ms) =
      .listOf (.object [("$ref", .string "#/components/X")]) := by rfl
  have hhint : nameHint (componentContext ms) .root (normalListOfComponent ms) none true =
      some "List" := by rfl
  have hget : (componentContext ms).schemas.get? .root = some (normalListOfComponent ms) := by rfl
  rw [ends_fragment hget, ends_visit_new hroot rfl List.not_mem_nil,
    ends_build_named hhint rfl, ends_parts_listOf hform,
    ends_visit_target hitems rfl (by decide) (by decide) rfl]
  rfl

end

/-- The members of a list schema whose items refer to the whole document. -/
def ignoringMembers : Members := [("items", .object [("$ref", .string "#")])]

/-- Lists of lists of any values. -/
def ignoringGraph : TypeGraph where
  nodes := #[some { kind := .array 1, name := some "List" }, some { kind := .array 2 },
    some { kind := .any }]
  root := 0

theorem run_ignoringMembers :
    (fragment (componentContext ignoringMembers) .root none true).run {} = (.ok 0, {
      graph := ignoringGraph
      processed := [(below component ["items"], 2), (component, 1), (.root, 0)]
      usedNames := ["List"] }) := by
  refine run_of_ends ((ends_componentContext _).2 ?_)
  have hitems : (componentContext ignoringMembers).schemas.resolve (below component ["items"]) =
      .ok (.fragment (below component ["items"])) := by rfl
  have hhint : nameHint (componentContext ignoringMembers) component (.object ignoringMembers) none
      false = none := by rfl
  have hhint' : nameHint (componentContext ignoringMembers) (below component ["items"])
      (.object [("$ref", .string "#")]) none false = none := by rfl
  have hform : Schema.form (componentContext ignoringMembers).options.unreachableDefinitions
      component.variant (.object ignoringMembers) = .listOf (.object [("$ref", .string "#")]) := by
    rfl
  have hform' : Schema.form (componentContext ignoringMembers).options.unreachableDefinitions
      (below component ["items"]).variant (.object [("$ref", .string "#")]) = .any := by rfl
  rw [ends_build_unnamed hhint (mem_variants rfl _), ends_parts_listOf hform,
    ends_visit_new hitems rfl (by decide), ends_build_unnamed hhint' (mem_variants rfl _), parts_eq,
    hform', partsOf]
  exact ⟨rfl, rfl⟩

/-- The compile of a list whose items refer to a component, after the build. -/
theorem run_componentJob {ms : Members} {s : Builder} {text out : String}
    (hrun : (fragment (componentContext ms) .root none true).run {} = (.ok 0, s))
    (htext : Declaration.text { bannerComment := "" }
      (({ s.graph with root := 0 } : TypeGraph).simplify false) = .ok text)
    (hout : Layout.format {} text = .ok out) : (componentJob ms).run noFiles = .ok out := by
  have hnormal : (⟨(componentGraph (listOfComponent ms)).normalize "List", "List",
      { bannerComment := "" }⟩ : BuildContext) = componentContext ms := by
    rw [normalize_listOfComponent]
    rfl
  have hg : TypeGraph.ofSchemas (componentContext ms) = .ok { s.graph with root := 0 } := by
    unfold TypeGraph.ofSchemas
    rw [hrun]
  unfold Job.run
  dsimp only [componentJob]
  rw [check_listOfComponent, load_listOfComponent]
  simp only [bind, Except.bind]
  rw [hnormal, hg]
  dsimp only
  rw [htext]
  exact hout

/-- A reference below a schema at no position is ignored: a compile succeeds that has a node for it.
-/
theorem exists_reference_processed : ¬ ∀ (env : Environment) (job : Job) (text : String)
    (g : SchemaGraph), job.schema.Distinct → job.run env = .ok text →
    SchemaGraph.load env job.options job.location job.schema = .ok g →
    ∀ id i v, (serve ⟨g.normalize job.name, job.name, job.options⟩ {}
      [⟨.root, none, true⟩]).processed.lookup id = some i →
    (g.normalize job.name).get? id = some v → Loading.reference? v = none := by
  intro h
  have hd : (componentJob ignoringMembers).schema.Distinct := distinct_listOfComponent
    ⟨List.nodup_singleton _, ⟨List.nodup_singleton _, trivial, trivial⟩, trivial⟩
  have hsame : ignoringGraph.simplify false = ignoringGraph := by cbv
  have htext : Declaration.text { bannerComment := "" } ignoringGraph =
      .ok "export type List = any[][]\n" := by cbv
  have hout : (componentJob ignoringMembers).run noFiles = .ok "export type List = any[][];\n" :=
    run_componentJob run_ignoringMembers (hsame ▸ htext) (by rfl)
  have hnone := h noFiles (componentJob ignoringMembers) _ _ hd hout (load_listOfComponent _)
    (below component ["items"]) 2 (.object [("$ref", .string "#")])
  dsimp only [componentJob] at hnone
  rw [serve_listOfComponent, run_ignoringMembers, normalize_listOfComponent] at hnone
  exact absurd (hnone (by rfl) (by rfl)) (by decide)

end Build

end Typewright
