import Typewright.Proofs.Build.Sources
import Typewright.Proofs.Root

/-!
# References and declared names

A reference that is not loaded prints a name of its own, which is not among the names that are kept
apart. So it may print the name of a declaration and then stands for that declaration
(`Job.exists_captured`). It does not where the hints of the schemas make other names than the
references do (`Job.not_captured_of_run`).
-/

namespace Typewright

/-- A reference that the root reaches prints a name under which something is declared. -/
def Declaration.Captures (options : Options) (g : TypeGraph) (text : String) : Prop :=
  (∃ id node, g.Reaches id ∧ g.get? id = some node ∧ node.kind = .reference text) ∧
  ∃ pass : Pass, text ∈ pass.names g options

namespace Job

open Declaration (Captures)

variable {env : Environment} {job : Job} {out written text : String} {schemas : SchemaGraph}
  {g : TypeGraph}

/-- What is captured is a name made of a hint that is the text of a reference as well. -/
theorem Stages.exists_of_captures (h : job.Stages env schemas g written out) {keep : Bool}
    (hc : Captures job.options (g.simplify keep) text) :
    ∃ hint name, Build.Hinted (job.context schemas) hint ∧ schemas.Unloaded name ∧
      Identifier.Candidate hint text ∧ Build.externalText name = text := by
  obtain ⟨⟨id, node, -, hn, hk⟩, pass, hmem⟩ := hc
  have hinside := (TypeGraph.wellFormed_ofSchemas h.built).inside
  obtain ⟨d, hd, hdeclared⟩ := List.mem_map.1 hmem
  obtain ⟨hdn, -, hname⟩ := Pass.of_mem_declared hd
  obtain ⟨name, hname⟩ := Option.isSome_iff_exists.1 hname
  obtain rfl : name = text :=
    (Declaration.declaredName_eq (h.labelled keep) hdn hname).symm.trans hdeclared
  obtain ⟨i, hi⟩ := TypeGraph.holds_of_simplify hinside ⟨d.2.1, hdn, hname⟩
  obtain ⟨hint, used, hhinted, hfresh⟩ := TypeGraph.exists_hinted_of_holds h.built hi
  obtain ⟨reference, ⟨site, hsite⟩, htext⟩ := TypeGraph.exists_unloaded_of_reference h.built
    (TypeGraph.hasKind_of_simplify hinside (.reference _) ⟨id, node, hn, hk⟩)
  rw [context, SchemaGraph.refs_normalize] at hsite
  exact ⟨hint, reference, hhinted, ⟨site, hsite⟩, hfresh ▸ Identifier.candidate_fresh hint used,
    htext.symm⟩

/-- Where the text of a reference that is not loaded is neither the identifier of a hint nor that with
a counter behind it, no such reference prints a name that is declared. -/
theorem not_captured_of_run (h : job.run env = .ok out)
    (hapart : ∀ schemas hint name,
      SchemaGraph.load env job.options job.location job.schema = .ok schemas →
      Build.Hinted (job.context schemas) hint → schemas.Unloaded name →
      ¬ Identifier.Candidate hint (Build.externalText name)) :
    ∃ schemas g written, job.Stages env schemas g written out ∧
      ∀ text, ¬ Captures job.options (g.simplify job.options.unreachableDefinitions) text := by
  obtain ⟨schemas, g, written, hs⟩ := exists_stages h
  refine ⟨schemas, g, written, hs, fun text hc => ?_⟩
  obtain ⟨hint, name, hhinted, hunloaded, hcandidate, rfl⟩ := hs.exists_of_captures hc
  exact hapart schemas hint name hs.loaded hhinted hunloaded hcandidate

/-! ## Lists of a file -/

/-- References out of the document are not loaded. -/
def unloaded : Options := { refOptions := { external := false } }

/-- A list whose items are as a file describes. -/
def listOfFile (file : String) : Json := .object [("items", .object [("$ref", .string file)])]

def normalListOfFile (file : String) : Json :=
  .object [("items", .object [("$ref", .string file)]), ("required", .array []),
    ("title", .string "List")]

/-- The only document of such a compile, with the reference that is not loaded. -/
def listSchemas (name : String) (root : Json) : SchemaGraph :=
  ⟨[⟨none, root⟩], [(⟨0, "#/items", none⟩, .external name)], 50⟩

def listContext (file name : String) : BuildContext :=
  ⟨listSchemas name (normalListOfFile file), "List", { unloaded with bannerComment := "" }⟩

def listGraph (text : String) : TypeGraph :=
  ⟨#[some { kind := .array 1, name := some "List" }, some { kind := .reference text }], 0⟩

theorem context_listOfFile (file name : String) :
    (inMemory unloaded "List" (listOfFile file)).context (listSchemas name (listOfFile file)) =
      listContext file name := by
  rw [context]
  cbv

open Build in
theorem ofSchemas_listContext (file name : String) :
    TypeGraph.ofSchemas (listContext file name) = .ok (listGraph (externalText name)) := by
  have hroot : (listContext file name).schemas.resolve .root = .ok (.fragment .root) := by rfl
  have hitems : (listContext file name).schemas.resolve (below .root ["items"]) =
      .ok (.external name) := by rfl
  have hget : (listContext file name).schemas.get? .root = some (normalListOfFile file) := by rfl
  have hform : Schema.form (listContext file name).options.unreachableDefinitions none
      (normalListOfFile file) = .listOf (.object [("$ref", .string file)]) := by rfl
  have hhint : nameHint (listContext file name) .root (normalListOfFile file) none true =
      some "List" := by rfl
  have hrun : (fragment (listContext file name) .root none true).run {} = (.ok 0, {
      graph := listGraph (externalText name)
      processed := [(.root, 0)]
      usedNames := ["List"]
      references := [(name, 1)] }) := by
    refine run_of_ends ((ends_fragment hget).2 ?_)
    rw [ends_visit_new hroot rfl List.not_mem_nil, ends_build_named hhint rfl,
      ends_parts_listOf hform, ends_visit_external hitems]
    exact ⟨rfl, rfl⟩
  unfold TypeGraph.ofSchemas
  rw [hrun]
  rfl

theorem stages_listOfFile {file name text written out : String}
    (hload : SchemaGraph.load Build.noFiles (inMemory unloaded "List" (listOfFile file)).options
      none (listOfFile file) = .ok (listSchemas name (listOfFile file)))
    (htext : Build.externalText name = text)
    (hwritten : Declaration.text { unloaded with bannerComment := "" }
      ((listGraph text).simplify false) = .ok written)
    (hout : Layout.format {} written = .ok out) :
    (inMemory unloaded "List" (listOfFile file)).Stages Build.noFiles
      (listSchemas name (listOfFile file)) (listGraph text) written out where
  checked := by cbv
  loaded := hload
  built := by rw [context_listOfFile, ofSchemas_listContext, htext]
  declared := hwritten
  laidOut := hout

/-- A reference to a file may be captured: here the items of a list stand for the list itself. -/
theorem exists_captured : ¬ ∀ (env : Environment) (job : Job) (out : String),
    job.options.refOptions.external = false → job.run env = .ok out →
    ∃ schemas g written, job.Stages env schemas g written out ∧
      ∀ text, ¬ Captures job.options (g.simplify job.options.unreachableDefinitions) text := by
  intro h
  have hstages : (inMemory unloaded "List" (listOfFile "list.json")).Stages Build.noFiles
      (listSchemas "list" (listOfFile "list.json")) (listGraph "List")
      "export type List = List[]\n" "export type List = List[];\n" :=
    stages_listOfFile (by cbv) (by rfl) (by cbv) (by rfl)
  obtain ⟨schemas, g, written, hs, hfree⟩ := h Build.noFiles _ _ rfl hstages.run_eq
  obtain rfl := Except.ok.inj (hs.loaded.symm.trans hstages.loaded)
  obtain rfl := Except.ok.inj (hs.built.symm.trans hstages.built)
  have hsame : (listGraph "List").simplify false = listGraph "List" := by cbv
  have hfree : ∀ text, ¬ Captures { unloaded with bannerComment := "" } (listGraph "List") text :=
    hsame ▸ hfree
  have hreaches : (listGraph "List").Reaches 1 :=
    TypeGraph.Reaches.child _ .refl rfl List.mem_cons_self
  have hnames : Pass.aliases.names (listGraph "List") { unloaded with bannerComment := "" } =
      ["List"] := by cbv
  exact hfree "List" ⟨⟨1, _, hreaches, rfl, rfl⟩, .aliases, hnames ▸ List.mem_singleton_self _⟩

/-! ## A reference apart from its list -/

/-- The build comes to the list, as a whole or as an entry of a `type` list that it does not have,
and to the reference. -/
theorem occurs_listContext {file name : String} {id : Fragment} {schema : Json}
    (h : Build.Occurs (listContext file name) (· = .root) id schema) :
    (∃ v, id = ⟨0, "#", v⟩ ∧ schema = normalListOfFile file) ∨
    (id = ⟨0, "#/items", none⟩ ∧ schema = .object [("$ref", .string file)]) := by
  induction h with
  | @site r schema hr hget =>
      obtain rfl := hr
      exact .inl ⟨none, rfl, (Option.some.inj hget).symm⟩
  | target ht => cases ht
  | @part id ms steps value _ hp ih =>
      obtain ⟨keyword, shape, v, rest, hk, hl, hpart, rfl⟩ := hp
      have hmem := mem_of_lookup hl
      rcases ih with ⟨variant, rfl, heq⟩ | ⟨rfl, heq⟩
      · obtain rfl := Json.object.inj heq
        simp only [List.mem_cons, Prod.mk.injEq, List.not_mem_nil, or_false] at hmem
        rcases hmem with ⟨rfl, rfl⟩ | ⟨rfl, rfl⟩ | ⟨rfl, rfl⟩
        · obtain rfl : shape = .oneOrList := by simpa [Schema.keywords] using hk
          obtain ⟨rfl, rfl⟩ := Prod.mk.inj (List.mem_singleton.1 hpart)
          exact .inr ⟨by rfl, rfl⟩
        · simp [Schema.keywords] at hk
        · simp [Schema.keywords] at hk
      · obtain rfl := Json.object.inj heq
        obtain ⟨rfl, rfl⟩ := Prod.mk.inj (List.mem_singleton.1 hmem)
        simp [Schema.keywords] at hk
  | @variant id schema v h hr ih =>
      rcases ih with ⟨variant, rfl, rfl⟩ | ⟨rfl, rfl⟩
      · exact .inl ⟨v, rfl, rfl⟩
      · cases hr

theorem met_listContext {file name : String} {id : Fragment} {key : Option String} {isRoot : Bool}
    (h : Build.Met (listContext file name) (· = .root) id key isRoot) : key = none := by
  induction h with
  | site hr => exact hr ▸ rfl
  | part => rfl
  | entry h hk hl =>
      have hmem := mem_of_lookup hl
      rcases occurs_listContext h with ⟨variant, rfl, heq⟩ | ⟨rfl, heq⟩
      · obtain rfl := Json.object.inj heq
        simp only [List.mem_cons, Prod.mk.injEq, List.not_mem_nil, or_false] at hmem
        rcases hmem with ⟨rfl, heq⟩ | ⟨rfl, heq⟩ | ⟨rfl, heq⟩ <;> simp [Schema.keywords] at hk
      · obtain rfl := Json.object.inj heq
        obtain ⟨rfl, -⟩ := Prod.mk.inj (List.mem_singleton.1 hmem)
        simp [Schema.keywords] at hk
  | target _ _ ih => exact ih
  | variant _ _ ih => exact ih

theorem hinted_listContext {file name hint : String}
    (h : Build.Hinted (listContext file name) hint) : hint = "List" ∨ hint = "Recursive" := by
  obtain ⟨id, schema, key, isRoot, ho, hr, hmet, rfl⟩ := h
  obtain rfl := met_listContext hmet
  rcases occurs_listContext ho with ⟨variant, rfl, rfl⟩ | ⟨rfl, rfl⟩
  · cases variant with
    | none => exact .inl rfl
    | some v => exact .inr rfl
  · cases hr

/-- The items of a list are of a type that is declared elsewhere. -/
theorem not_captured_of_run_listOfFile :
    (inMemory unloaded "List" (listOfFile "other.json")).run Build.noFiles =
      .ok "export type List = Other[];\n" ∧
    ∃ schemas g written, (inMemory unloaded "List" (listOfFile "other.json")).Stages Build.noFiles
      schemas g written "export type List = Other[];\n" ∧
      ∀ text, ¬ Captures { unloaded with bannerComment := "" } (g.simplify false) text := by
  have hstages : (inMemory unloaded "List" (listOfFile "other.json")).Stages Build.noFiles
      (listSchemas "other" (listOfFile "other.json")) (listGraph "Other")
      "export type List = Other[]\n" "export type List = Other[];\n" :=
    stages_listOfFile (by cbv) (by rfl) (by cbv) (by rfl)
  refine ⟨hstages.run_eq, not_captured_of_run hstages.run_eq ?_⟩
  intro schemas hint name hload hhinted hunloaded hcandidate
  obtain rfl := Except.ok.inj (hload.symm.trans hstages.loaded)
  rw [context_listOfFile] at hhinted
  obtain ⟨rest, hrest⟩ := hcandidate.exists_rest
  obtain rfl : name = "other" := by
    obtain ⟨site, hsite⟩ := hunloaded
    have hmem := List.mem_singleton.1 (mem_of_lookup hsite)
    exact Target.external.inj (Prod.mk.inj hmem).2
  have htext : Build.externalText "other" = "Other" := by rfl
  have hhead := congrArg (fun s => s.toList.head?) (htext.symm.trans hrest)
  rcases hinted_listContext hhinted with rfl | rfl
  · have hbase : Identifier.freshBase "List" = "List" := by rfl
    simp [hbase] at hhead
  · have hbase : Identifier.freshBase "Recursive" = "Recursive" := by rfl
    simp [hbase] at hhead

end Job

end Typewright
