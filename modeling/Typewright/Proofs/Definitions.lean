import Typewright.Proofs.Build.Titles
import Typewright.Proofs.Root

/-!
# Definitions that are kept

Definitions reach the declarations as members of the interface of the root. So where definitions are
kept and the root stands for an interface, each definition without a reference has a declaration of
its own (`Job.definitions_declared_of_run`). A root of another form may drop those that nothing
refers to (`Job.exists_definition_undeclared`).
-/

namespace Typewright

/-- An entry of a document's definitions that is a schema and no reference. -/
structure Schema.IsDefinition (schema : Json) (keyword key : String) (v : Json) : Prop where
  under : keyword = "definitions" ∨ keyword = "$defs"
  entry : (schema.member? keyword).bind (·.member? key) = some v
  isSchema : v.isSchema = true
  plain : Loading.reference? v = none

/-- The text that a definition is named after. -/
def Schema.definitionHint (key : String) (v : Json) : String :=
  ((v.member? "title").bind Json.string?).getD key

namespace Schema

variable {schema v : Json} {keyword key : String}

theorem IsDefinition.byName (h : IsDefinition schema keyword key v) :
    (keyword, .byName) ∈ keywords := by
  rcases h.under with rfl | rfl <;> decide

theorem IsDefinition.exists_members (h : IsDefinition schema keyword key v) :
    ∃ ms named, schema = .object ms ∧ ms.lookup keyword = some (.object named) ∧
      named.lookup key = some v := by
  obtain ⟨w, hw, hv⟩ := Option.bind_eq_some_iff.1 h.entry
  cases schema with
  | object ms =>
      cases w with
      | object named => exact ⟨ms, named, rfl, hw, hv⟩
      | _ => cases hv
  | _ => cases hw

theorem IsDefinition.mem_positions (h : IsDefinition schema keyword key v) :
    (Pointer.build "#" [keyword, key], v) ∈ positions "#" schema := by
  obtain ⟨ms, named, rfl, hl, hv⟩ := h.exists_members
  exact mem_positions_of_part (mem_positions_self _ _)
    ⟨keyword, .byName, .object named, [key], h.byName, hl, List.mem_map_of_mem (mem_of_lookup hv),
      rfl⟩ h.isSchema

/-- Normal form keeps the definitions of a document, each in normal form. -/
theorem IsDefinition.exists_normal (h : IsDefinition schema keyword key v) (hd : schema.Distinct)
    (name : String) : ∃ ms named, normalize name schema = .object ms ∧
      ms.lookup keyword = some (.object named) ∧ (key, normalizeFragment v) ∈ named := by
  obtain ⟨ms, named, rfl, hl, hv⟩ := h.exists_members
  have hkeys : ∀ k, (k = "definitions" ∨ k = "$defs") →
      k ≠ "required" ∧ k ≠ "title" ∧ k ∉ ruled := by
    rintro k (rfl | rfl) <;> decide
  obtain ⟨hrequired, htitle, hruled⟩ := hkeys keyword h.under
  refine ⟨_, normalizeNamed named, normalize_object name ms, ?_, ?_⟩
  · rw [lookup_completeRoot name _ hrequired htitle, lookup_normalMembers hd hruled, hl,
      Option.map_some, normalizeValue_of_mem h.byName, normalizeUnder]
  · rw [normalizeNamed_eq]
    exact List.mem_map_of_mem (f := fun m : String × Json => (m.1, normalizeFragment m.2))
      (mem_of_lookup hv)

theorem IsDefinition.at?_normalize (h : IsDefinition schema keyword key v) (hd : schema.Distinct)
    (name : String) : (normalize name schema).at? (Pointer.build "#" [keyword, key]) =
      some (normalizeFragment v) := by
  obtain ⟨ms, named, hnormal, hl, hm⟩ := h.exists_normal hd name
  have hmem := mem_positions_self "#" (normalize name schema)
  rw [hnormal] at hmem
  have hposition := mem_positions_of_part hmem
    ⟨keyword, .byName, .object named, [key], h.byName, hl, List.mem_map_of_mem hm, rfl⟩
    ((isSchema_normalizeFragment v).trans h.isSchema)
  exact hnormal ▸ (at?_of_mem_positions rfl (hnormal ▸ distinct_normalize name hd) _ hposition).1

theorem IsDefinition.distinct (h : IsDefinition schema keyword key v) (hd : schema.Distinct) :
    v.Distinct :=
  (at?_of_mem_positions (v := schema) rfl hd _ h.mem_positions).2

theorem definitionHint_normalizeFragment (hd : v.Distinct) :
    definitionHint key (normalizeFragment v) = definitionHint key v := by
  suffices h : (normalizeFragment v).member? "title" = v.member? "title" by
    rw [definitionHint, h, definitionHint]
  cases v with
  | object ms =>
      have hvalue : normalizeValue "title" = id := funext fun _ => by
        rw [normalizeValue, show shape? "title" = none by decide]
        rfl
      have hlookup : (normalMembers ms).lookup "title" = ms.lookup "title" := by
        rw [lookup_normalMembers hd (by decide), hvalue, Option.map_id_apply]
      rw [normalizeFragment_object]
      simpa only [Json.member?, Json.members?, Option.bind_some] using hlookup
  | _ => rw [normalizeFragment_of_not_object rfl]

end Schema

namespace Build

variable {ctx : BuildContext} {s : Builder} {id : Fragment} {ms : Members} {keyword key : String}

/-- The kept definitions of a described interface are among its members. -/
theorem DescribesInterface.exists_definition {kind : Kind}
    (h : DescribesInterface ctx s id ms kind) (hkeep : ctx.options.unreachableDefinitions = true)
    (hk : keyword = "definitions" ∨ keyword = "$defs") {named : Members} {v : Json}
    (hl : ms.lookup keyword = some (.object named)) (hm : (key, v) ∈ named) :
    ∃ c members supers, Finds ctx s (below id [keyword, key]) c ∧
      kind = .interface members supers ∧ ∃ m ∈ members, m.node = c := by
  obtain ⟨properties, patterns, definitions, defs, index, supers, rfl, -, -, hdefinitions, hdefs,
    -⟩ := h
  obtain ⟨found, hfound, hsub⟩ : ∃ found, FindsDefinitions ctx s id ms keyword found ∧
      found ⊆ definitions ++ defs := by
    rcases hk with rfl | rfl
    · exact ⟨definitions, hdefinitions, List.subset_append_left _ _⟩
    · exact ⟨defs, hdefs, List.subset_append_right _ _⟩
  rw [FindsDefinitions, if_pos hkeep, FindsEach, hl] at hfound
  obtain ⟨⟨key', c⟩, hmem, -, hfinds⟩ := exists_of_forall₂_left hfound hm
  refine ⟨c, _, _, hfinds, rfl, ?_⟩
  simp only [interfaceMembers, List.mem_append, List.mem_map]
  exact ⟨_, .inl (.inr ⟨(key', c), List.mem_append.1 (hsub hmem), rfl⟩), rfl⟩

/-- The node of a definition is named after its title or its key. -/
theorem Consistent.holds_definition (h : Consistent ctx (· = .root) s) (hin : s.inProgress = [])
    (hd : ctx.schemas.Distinct) (hk : keyword = "definitions" ∨ keyword = "$defs") {c : NodeId}
    (hl : s.processed.lookup (below .root [keyword, key]) = some c) :
    ∃ v used, ctx.schemas.get? (below .root [keyword, key]) = some v ∧
      s.graph.Holds c (Identifier.fresh (Schema.definitionHint key v) used) := by
  obtain ⟨hlt, -⟩ := h.processed _ _ hl
  obtain ⟨node, hn⟩ := h.exists_node hin hlt
  obtain ⟨v, isRoot, ho, -, htitled, -⟩ := h.sourced_of_lookup hl hn
  obtain ⟨used, hname⟩ := htitled.exists_name
    (nameHint_definition hk (show Pointer.Rooted "#" from .inl rfl) key v node.key isRoot)
  exact ⟨v, used, ho.get? hd, node, hn, hname⟩

end Build

namespace Job

open Build (below)
open Declaration (Declares)
open Schema (IsDefinition definitionHint)

variable {env : Environment} {job : Job} {out written : String} {schemas : SchemaGraph}
  {g : TypeGraph} {ms : Members}

theorem Stages.distinct_context (h : job.Stages env schemas g written out)
    (hd : job.schema.Distinct) : (job.context schemas).schemas.Distinct :=
  (SchemaGraph.distinct_of_load h.loaded hd).normalize job.name

/-- A build reads the root document in normal form. -/
theorem Stages.get?_context (h : job.Stages env schemas g written out) (hd : job.schema.Distinct)
    (path : String) (variant : Option Nat) : (job.context schemas).schemas.get? ⟨0, path, variant⟩ =
      (Schema.normalize job.name job.schema).at? path := by
  obtain ⟨d, hdoc, hschema⟩ := (SchemaGraph.loaded_of_load h.loaded hd).root
  rw [← hschema]
  exact SchemaGraph.get?_normalize_root hdoc path variant

/-- Where no reference stands in the root document, a fragment leads to itself. -/
theorem Stages.lookup_refs (h : job.Stages env schemas g written out) (hd : job.schema.Distinct)
    {path : String} {v : Json} (hp : (path, v) ∈ Schema.positions "#" job.schema)
    (hplain : Loading.reference? v = none) :
    (job.context schemas).schemas.refs.lookup ⟨0, path, none⟩ = none := by
  rw [context, SchemaGraph.refs_normalize]
  exact (SchemaGraph.loaded_of_load h.loaded hd).lookup_eq_none hp hplain

/-- A root that is no reference has the node of its own fragment. -/
theorem Stages.exists_builder (h : job.Stages env schemas g written out) (hd : job.schema.Distinct)
    (hroot : Loading.reference? job.schema = none) :
    ∃ s : Builder, Build.Consistent (job.context schemas) (· = .root) s ∧ s.inProgress = [] ∧
      g = { s.graph with root := g.root } ∧ s.processed.lookup .root = some g.root := by
  obtain ⟨s, hc, hin, hg, hfinds, -⟩ := TypeGraph.exists_builder h.built
  refine ⟨s, hc, hin, hg, ?_⟩
  have hl := h.lookup_refs hd (Schema.mem_positions_self "#" job.schema) hroot
  have hr : (job.context schemas).schemas.resolve .root = .ok (.fragment .root) :=
    SchemaGraph.resolve_of_lookup_eq_none hl
  rwa [Build.Finds, hr] at hfinds

/-- The node of a definition is a member of the root, and has a name. -/
theorem Stages.hasMember_definition (h : job.Stages env schemas g written out)
    (hd : job.schema.Distinct) (hkeep : job.options.unreachableDefinitions = true)
    (hform : Schema.form true none (Schema.normalize job.name job.schema) = .interface ms)
    {s : Builder} (hc : Build.Consistent (job.context schemas) (· = .root) s)
    (hin : s.inProgress = []) (hg : g = { s.graph with root := g.root })
    (hroot : s.processed.lookup .root = some g.root) {keyword key : String} {v : Json}
    (hv : IsDefinition job.schema keyword key v) :
    ∃ c used, s.processed.lookup (below .root [keyword, key]) = some c ∧ g.HasMember g.root c ∧
      g.Holds c (Identifier.fresh (definitionHint key v) used) := by
  have hget : g.get? = s.graph.get? := by rw [hg]; rfl
  obtain ⟨hlt, -, schema, ho, hdescribes⟩ := hc.processed _ _ hroot
  obtain ⟨node, hn⟩ := hc.exists_node hin hlt
  obtain ⟨ms', named, hnormal, hl, hm⟩ := hv.exists_normal hd job.name
  -- the root is described by the interface of its normal form
  obtain rfl : schema = .object ms' := Option.some.inj
    ((ho.get? (h.distinct_context hd)).symm.trans ((h.get?_context hd "#" none).trans
      (congrArg (Json.at? · "#") hnormal)))
  rw [hnormal] at hform
  have hdescribes := hdescribes node hn
  have hkeep' : (job.context schemas).options.unreachableDefinitions = true := hkeep
  rw [Build.Describes, hkeep', show Fragment.root.variant = none from rfl, hform] at hdescribes
  obtain rfl : ms = ms' := by
    rcases Schema.exists_members_of_form _ hform with ⟨_, heq, hfrom⟩ | hany | hnever | hinvalid
    · exact hfrom.trans (Json.object.inj heq).symm
    · cases hany
    · cases hnever
    · cases hinvalid
  obtain ⟨c, members, supers, hfinds, hkind, hmember⟩ :=
    hdescribes.exists_definition hkeep' hv.under hl hm
  have hplain := h.lookup_refs hd hv.mem_positions hv.plain
  have hr : (job.context schemas).schemas.resolve (below .root [keyword, key]) =
      .ok (.fragment (below .root [keyword, key])) := SchemaGraph.resolve_of_lookup_eq_none hplain
  rw [Build.Finds, hr] at hfinds
  obtain ⟨w, used, hw, hnamed⟩ := hc.holds_definition hin (h.distinct_context hd) hv.under hfinds
  obtain rfl : w = Schema.normalizeFragment v := Option.some.inj
    (hw.symm.trans ((h.get?_context hd _ none).trans (hv.at?_normalize hd job.name)))
  rw [Schema.definitionHint_normalizeFragment (hv.distinct hd)] at hnamed
  refine ⟨c, used, hfinds, ⟨node, members, supers, hget ▸ hn, hkind, hmember⟩, ?_⟩
  rwa [TypeGraph.Holds, hget]

theorem Stages.exists_declares (h : job.Stages env schemas g written out)
    (hkeep : job.options.unreachableDefinitions = true)
    (hall : job.options.declareExternallyReferenced = true) {rootName name : String} {c : NodeId}
    (hroot : g.Holds g.root rootName) (hm : g.HasMember g.root c) (hc : g.Holds c name) :
    ∃ id, Declares job.options (g.simplify job.options.unreachableDefinitions) out id name := by
  have hinside := (TypeGraph.wellFormed_ofSchemas h.built).inside
  obtain ⟨id, hid, node, hn, hname⟩ := TypeGraph.exists_member_simplify hinside hroot hm hc
  rw [← hkeep] at hid hn
  obtain ⟨d, hd, rfl, rfl⟩ := Pass.mem_declared_of_reaches (h.labelled _) hall hid hn
    (by simp [hname])
  exact ⟨d.1, Declaration.declares_of_mem (h.wellFormed _) (h.labelled _) h.declared h.laidOut hd
    hname⟩

/-- Where definitions are kept, a compile whose root stands for an interface declares each of its
definitions that is no reference, under a name of its own. -/
theorem definitions_declared_of_run (h : job.run env = .ok out) (hd : job.schema.Distinct)
    (hkeep : job.options.unreachableDefinitions = true)
    (hall : job.options.declareExternallyReferenced = true)
    (hroot : Loading.reference? job.schema = none)
    (hform : Schema.form true none (Schema.normalize job.name job.schema) = .interface ms) :
    ∃ schemas g written, job.Stages env schemas g written out ∧
      ∃ name : String → String → String,
        (∀ keyword key v, IsDefinition job.schema keyword key v →
          (∃ used, name keyword key = Identifier.fresh (definitionHint key v) used) ∧
          ∃ id, Declares job.options (g.simplify job.options.unreachableDefinitions) out id
            (name keyword key)) ∧
        ∀ keyword key v keyword' key' v', IsDefinition job.schema keyword key v →
          IsDefinition job.schema keyword' key' v' → name keyword key = name keyword' key' →
          keyword = keyword' ∧ key = key' := by
  obtain ⟨schemas, g, written, hs⟩ := exists_stages h
  refine ⟨schemas, g, written, hs, ?_⟩
  obtain ⟨s, hc, hin, hg, hprocessed⟩ := hs.exists_builder hd hroot
  have hself : (job.context schemas).schemas.resolve .root = .ok (.fragment .root) :=
    SchemaGraph.resolve_of_lookup_eq_none
      (hs.lookup_refs hd (Schema.mem_positions_self "#" job.schema) hroot)
  obtain ⟨root, rootName, hrootName⟩ := TypeGraph.exists_root_name hs.built hself rfl
  have hlabelled := TypeGraph.labelled_ofSchemas hs.built
  have hnames : ∀ keyword key, ∃ name, ∀ v, IsDefinition job.schema keyword key v →
      (∃ used, name = Identifier.fresh (definitionHint key v) used) ∧
      ∃ c, s.processed.lookup (below .root [keyword, key]) = some c ∧ g.HasMember g.root c ∧
        g.Holds c name := by
    intro keyword key
    by_cases hv : ∃ v, IsDefinition job.schema keyword key v
    · obtain ⟨v, hv⟩ := hv
      obtain ⟨c, used, hl, hm, hname⟩ :=
        hs.hasMember_definition hd hkeep hform hc hin hg hprocessed hv
      refine ⟨Identifier.fresh (definitionHint key v) used, fun w hw => ?_⟩
      obtain rfl := Option.some.inj (hw.entry.symm.trans hv.entry)
      exact ⟨⟨used, rfl⟩, c, hl, hm, hname⟩
    · exact ⟨"", fun v h => absurd ⟨v, h⟩ hv⟩
  choose name hname using hnames
  refine ⟨name, fun keyword key v hv => ?_, fun keyword key v keyword' key' v' hv hv' heq => ?_⟩
  · obtain ⟨hused, c, -, hm, hholds⟩ := hname keyword key v hv
    exact ⟨hused, hs.exists_declares hkeep hall ⟨root, hrootName⟩ hm hholds⟩
  · obtain ⟨-, c, hl, -, node, hn, hnode⟩ := hname keyword key v hv
    obtain ⟨-, c', hl', -, node', hn', hnode'⟩ := hname keyword' key' v' hv'
    obtain rfl := hlabelled.distinct c c' node node' _ hn hn' hnode (heq ▸ hnode')
    have hroot : Pointer.Rooted "#" := .inl rfl
    obtain ⟨-, hsteps⟩ := Build.below_inj (hc.separate _ _ _ hl hl') rfl hroot hroot rfl
    exact ⟨(List.cons.inj hsteps).1, (List.cons.inj (List.cons.inj hsteps).2).1⟩

/-! ## A kept definition -/

/-- Definitions that nothing refers to are kept. -/
def keeping : Options := { bannerComment := "", unreachableDefinitions := true }

def numberSchema : Json := .object [("type", .string "number")]

/-- A schema with another keyword and a definition that nothing refers to. -/
def withDefinition (member : String × Json) : Json :=
  .object [member, ("definitions", .object [("A", numberSchema)])]

def keepingJob (member : String × Json) : Job := ⟨keeping, none, "Root", withDefinition member⟩

/-- The only document of such a compile. -/
def singleDocument (root : Json) : SchemaGraph := ⟨[⟨none, root⟩], [], 50⟩

def rootContext (root : Json) : BuildContext :=
  ⟨singleDocument root, "Root", keeping⟩

/-- A closed object schema with a definition, in normal form. -/
def closedMembers : Members :=
  [("definitions", .object [("A", numberSchema)]), ("additionalProperties", .bool false),
    ("required", .array []), ("title", .string "Root")]

def closedNode : Node :=
  { kind := .interface [{ key := "A", node := 1, unreachable := true }] [], name := some "Root" }

def definitionNode (comment : String) : Node :=
  { kind := .number, name := some "A", comment := some comment, key := some "A" }

/-- The interface and its definition, under a comment. -/
def closedGraph (comment : String) : TypeGraph :=
  ⟨#[some closedNode, some (definitionNode comment)], 0⟩

section Build

open Build

theorem interface_closedMembers (path : List Fragment) :
    interface (rootContext (.object closedMembers)) path .root closedMembers "Root" = (do
      let found ← visitNamed (rootContext (.object closedMembers)) path .root "definitions"
        (fun key => some (definitionNote "Root" key)) [("A", numberSchema)]
      return .interface (interfaceMembers closedMembers [] [] (found ++ []) []) []) := by
  have hnone : ∀ keyword note, keyword ∈ ["properties", "patternProperties", "$defs"] →
      visitEach (rootContext (.object closedMembers)) path .root closedMembers keyword note =
        pure [] := by
    intro keyword note hk
    simp only [List.mem_cons, List.not_mem_nil, or_false] at hk
    rcases hk with rfl | rfl | rfl <;> (rw [visitEach]; rfl)
  have hsome : ∀ note, visitEach (rootContext (.object closedMembers)) path .root closedMembers
      "definitions" note = visitNamed (rootContext (.object closedMembers)) path .root "definitions"
        note [("A", numberSchema)] := by
    intro note
    rw [visitEach]
    rfl
  have hindex : visitIndex (rootContext (.object closedMembers)) path .root closedMembers =
      pure [] := by
    rw [visitIndex]
    rfl
  have hextends : visitExtends (rootContext (.object closedMembers)) path .root closedMembers =
      pure [] := by
    rw [visitExtends]
    rfl
  rw [interface]
  simp only [visitDefinitions, if_pos (show (rootContext
    (.object closedMembers)).options.unreachableDefinitions = true from rfl), hindex, hextends,
    hsome, hnone _ _ (show "properties" ∈ _ by decide),
    hnone _ _ (show "patternProperties" ∈ _ by decide), hnone _ _ (show "$defs" ∈ _ by decide),
    pure_bind]

theorem run_closedMembers :
    (fragment (rootContext (.object closedMembers)) .root none true).run {} = (.ok 0, {
      graph := closedGraph (definitionNote "Root" "A")
      processed := [(below .root ["definitions", "A"], 1), (.root, 0)]
      usedNames := ["Root", "A"] }) := by
  set ctx := rootContext (.object closedMembers)
  have hroot : ctx.schemas.resolve .root = .ok (.fragment .root) := by rfl
  have hself : ctx.schemas.resolve (below .root ["definitions", "A"]) =
      .ok (.fragment (below .root ["definitions", "A"])) := by rfl
  have hget : ctx.schemas.get? .root = some (.object closedMembers) := by rfl
  have hform : Schema.form ctx.options.unreachableDefinitions (Fragment.root).variant
      (.object closedMembers) = .interface closedMembers := by rfl
  have hnumber : Schema.form ctx.options.unreachableDefinitions
      (below .root ["definitions", "A"]).variant numberSchema = .number := by rfl
  have hhint : nameHint ctx .root (.object closedMembers) none true = some "Root" := by rfl
  have hkey : nameHint ctx (below .root ["definitions", "A"]) numberSchema (some "A") false =
      some "A" := by rfl
  refine run_of_ends ((ends_fragment hget).2 ?_)
  rw [ends_visit_new hroot rfl List.not_mem_nil, ends_build_named hhint rfl, parts_eq,
    hform, partsOf]
  rw [show ((some (Identifier.fresh "Root" []) <|> none : Option String).getD ctx.rootName) =
    "Root" by rfl, interface_closedMembers, visitNamed, ends_bind, ends_bind,
    ends_visit_new hself rfl (by decide), ends_build_named hkey rfl, parts_eq,
    hnumber, partsOf]
  simp only [ends_bind, ends_pure, appendComment, ends_modify]
  rw [visitNamed]
  exact ⟨rfl, rfl⟩

def stringMembers : Members :=
  [("type", .string "string"), ("definitions", .object [("A", numberSchema)]),
    ("required", .array []), ("title", .string "Root")]

def stringGraph : TypeGraph := ⟨#[some { kind := .string, name := some "Root" }], 0⟩

theorem run_stringMembers :
    (fragment (rootContext (.object stringMembers)) .root none true).run {} =
      (.ok 0, { graph := stringGraph, processed := [(.root, 0)], usedNames := ["Root"] }) := by
  set ctx := rootContext (.object stringMembers)
  have hroot : ctx.schemas.resolve .root = .ok (.fragment .root) := by rfl
  have hget : ctx.schemas.get? .root = some (.object stringMembers) := by rfl
  have hform : Schema.form ctx.options.unreachableDefinitions (Fragment.root).variant
      (.object stringMembers) = .string := by rfl
  have hhint : nameHint ctx .root (.object stringMembers) none true = some "Root" := by rfl
  refine run_of_ends ((ends_fragment hget).2 ?_)
  rw [ends_visit_new hroot rfl List.not_mem_nil, ends_build_named hhint rfl, parts_eq,
    hform, partsOf]
  exact ⟨rfl, rfl⟩

end Build

/-- The compile of a document without references, after the build. -/
theorem stages_withDefinition {member : String × Json} {normal : Json} {s : Builder}
    {written out : String} (hchecked : check "Root" (withDefinition member) = .ok ())
    (hloaded : SchemaGraph.load Build.noFiles keeping none
      (withDefinition member) = .ok (singleDocument (withDefinition member)))
    (hnormal : (singleDocument (withDefinition member)).normalize "Root" = singleDocument normal)
    (hrun : (Build.fragment (rootContext normal) .root none true).run {} = (.ok 0, s))
    (hwritten : Declaration.text keeping
      (({ s.graph with root := 0 } : TypeGraph).simplify true) = .ok written)
    (hout : Layout.format {} written = .ok out) :
    (keepingJob member).Stages Build.noFiles
      (singleDocument (withDefinition member)) { s.graph with root := 0 } written out where
  checked := hchecked
  loaded := hloaded
  built := by
    have hcontext : (keepingJob member).context
        (singleDocument (withDefinition member)) = rootContext normal :=
      congrArg (BuildContext.mk · "Root" keeping) hnormal
    rw [hcontext]
    unfold TypeGraph.ofSchemas
    rw [hrun]
  declared := hwritten
  laidOut := hout

theorem isDefinition_withDefinition {member : String × Json} (h : member.1 ≠ "definitions") :
    IsDefinition (withDefinition member) "definitions" "A" numberSchema where
  under := .inl rfl
  entry := by
    have hl : List.lookup "definitions" [member, ("definitions", .object [("A", numberSchema)])] =
        some (.object [("A", numberSchema)]) := by
      rw [List.lookup_cons, beq_false_of_ne h.symm]
      rfl
    simp only [withDefinition, Json.member?, Json.members?, Option.bind_some, hl]
    rfl
  isSchema := rfl
  plain := rfl

section Declaration

open Declaration

variable (comment : String)

theorem simplify_closedGraph : (closedGraph comment).simplify true = closedGraph comment := by
  have hsweep : Reduction.sweep true ⟨closedGraph comment, []⟩ = ⟨closedGraph comment, []⟩ := by
    cbv
  rw [TypeGraph.simplify, Reduction.settle_eq_self hsweep]
  cbv

theorem aliasText_closedGraph : aliasText (closedGraph comment) 1 (definitionNode comment) "#/A" =
    .ok (commentBlock comment ++ "\n" ++ "export type " ++ "A" ++ " = " ++ "number") := by
  have hbody : structureText (closedGraph comment) 1 (definitionNode comment) "#/A" =
      .ok "number" := by cbv
  have hname : declaredName (definitionNode comment) = "A" := by
    change Identifier.sanitize "A" = "A"
    decide +kernel
  have hcomment : leadingComment (definitionNode comment) = commentBlock comment ++ "\n" := rfl
  rw [aliasText, hbody, hname, hcomment]
  simp only [bind, Except.bind, pure, Except.pure]

theorem aliases_closedGraph : aliases keeping (closedGraph comment) =
    .ok (commentBlock comment ++ "\n" ++ "export type " ++ "A" ++ " = " ++ "number") := by
  set g := closedGraph comment
  have hmentioned : g.mentioned = [0, 1] := by cbv
  have hroot : nodeAt g 0 "#" = .ok closedNode := by rfl
  have hdefinition : nodeAt g 1 "#/A" = .ok (definitionNode comment) := by rfl
  have hmember : planAliases g keeping 0 closedNode "#" = [.enter 1 "#/A"] := by cbv
  have hdeclared : planAliases g keeping 1 (definitionNode comment) "#/A" =
      [.declare 1 (definitionNode comment) "#/A"] := by rfl
  have hzero : g.root = 0 := rfl
  simp [aliases, collect, hmentioned, hzero, walk, hroot, hmember, hdefinition, hdeclared,
    aliasText_closedGraph, bind, Except.bind, pure, Except.pure, g]

theorem interfaces_closedGraph : interfaces keeping (closedGraph comment) =
    .ok "export interface Root \x7b\x7d" := by
  cbv

theorem enums_closedGraph : enums keeping (closedGraph comment) = .ok "" := by
  cbv

/-- The declarations of the closed object schema and its definition. -/
def closedOutput (semi : String) : String :=
  "/**\n * This interface was referenced by \x60Root\x60's JSON-Schema\n" ++
  " * via the \x60definition\x60 \"A\".\n */\nexport type A = number" ++ semi ++
  "\n\nexport interface Root \x7b\x7d\n"

theorem text_closedGraph : text keeping
    ((closedGraph (Build.definitionNote "Root" "A")).simplify true) = .ok (closedOutput "") := by
  rw [simplify_closedGraph, text, aliases_closedGraph, interfaces_closedGraph, enums_closedGraph]
  decide +kernel

theorem format_closedOutput : Layout.format {} (closedOutput "") = .ok (closedOutput ";") := by
  decide +kernel

end Declaration

theorem run_closed : (keepingJob ("additionalProperties", .bool false)).run Build.noFiles =
    .ok (closedOutput ";") :=
  (stages_withDefinition (by cbv) (by cbv) (by rfl) run_closedMembers text_closedGraph
    format_closedOutput).run_eq

theorem distinct_withDefinition {key : String} {value : Json} (hk : key ≠ "definitions")
    (hv : value.Distinct) : (withDefinition (key, value)).Distinct := by
  simp [withDefinition, numberSchema, Json.Distinct, Json.DistinctMembers, Members.keys, hk, hv]

/-- The definition of a closed object schema is declared. -/
theorem definitions_declared_of_run_closed :
    (keepingJob ("additionalProperties", .bool false)).run Build.noFiles =
      .ok (closedOutput ";") ∧
    ∃ schemas g written id used, (keepingJob ("additionalProperties", .bool false)).Stages
      Build.noFiles schemas g written (closedOutput ";") ∧
      Declares keeping (g.simplify true) (closedOutput ";") id (Identifier.fresh "A" used) := by
  have hform : Schema.form true none (Schema.normalize "Root"
      (withDefinition ("additionalProperties", .bool false))) = .interface closedMembers := by rfl
  obtain ⟨schemas, g, written, hs, name, hall, -⟩ := definitions_declared_of_run run_closed
    (distinct_withDefinition (by decide) trivial) rfl rfl rfl hform
  obtain ⟨⟨used, hused⟩, id, hdeclares⟩ :=
    hall "definitions" "A" numberSchema (isDefinition_withDefinition (by decide))
  exact ⟨run_closed, schemas, g, written, id, used, hs, hused ▸ hdeclares⟩

/-- A root of another form may drop its definitions, whatever the option says. -/
theorem exists_definition_undeclared : ¬ ∀ (env : Environment) (job : Job) (out : String),
    job.schema.Distinct → job.options.unreachableDefinitions = true →
    job.options.declareExternallyReferenced = true → job.run env = .ok out →
    ∀ keyword key v, IsDefinition job.schema keyword key v →
    ∃ schemas g written id used, job.Stages env schemas g written out ∧
      Declares job.options (g.simplify job.options.unreachableDefinitions) out id
        (Identifier.fresh (definitionHint key v) used) := by
  intro h
  have hstages : (keepingJob ("type", .string "string")).Stages Build.noFiles
      (singleDocument (withDefinition ("type", .string "string"))) stringGraph
      "export type Root = string\n" "export type Root = string;\n" :=
    stages_withDefinition (by cbv) (by cbv) (by rfl) run_stringMembers (by cbv) (by decide +kernel)
  obtain ⟨schemas, g, written, id, used, hs, hdeclares⟩ :=
    h Build.noFiles _ _ (distinct_withDefinition (by decide)
      (show (Json.string "string").Distinct from trivial)) rfl rfl hstages.run_eq
      "definitions" "A" numberSchema (isDefinition_withDefinition (by decide))
  obtain rfl := Except.ok.inj (hs.loaded.symm.trans hstages.loaded)
  obtain rfl := Except.ok.inj (hs.built.symm.trans hstages.built)
  -- the only node of the graph is named `Root`
  have hsame : stringGraph.simplify true = stringGraph := by cbv
  have hholds : stringGraph.Holds id (Identifier.fresh "A" used) := hsame ▸ hdeclares.1
  obtain ⟨node, hn, hname⟩ := hholds
  obtain rfl : id = 0 := Nat.lt_one_iff.1 (stringGraph.lt_size_of_get? hn)
  obtain ⟨rest, hfresh⟩ := (Identifier.candidate_fresh "A" used).exists_rest
  have hbase : Identifier.freshBase "A" = "A" := by rfl
  rw [hfresh, hbase] at hname
  have hroot : "Root" = "A" ++ rest := Option.some.inj ((congrArg Node.name
    (Option.some.inj hn)).trans hname)
  have hhead := congrArg (fun s => s.toList.head?) hroot
  simp at hhead

end Job

end Typewright
