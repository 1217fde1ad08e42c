import Typewright.Proofs.Build.Interface
import Typewright.Proofs.Build.Traces

/-!
# Notes on patterns

The node of each pattern of an interface gets a note in its comment, which a later note does not
remove. A node that is not built yet cannot take it, and this is the only way to lose one: then the
pattern leads back to the interface (`noted_of_run`). An interface whose pattern refers to itself
shows that it is lost (`exists_note_lost`).
-/

namespace Typewright

namespace Build

variable {ctx : BuildContext} {id : Fragment} {s : Builder} {root i : NodeId} {node : Node}
  {members : List InterfaceMember} {supers : List NodeId}

/-- In what a build leaves behind, the node that is found for a pattern of an interface has the note
of that pattern, with what the notes of that interface call it, also if other patterns share the
node, unless the pattern leads back to the interface and its node was begun no later than that of
the interface. -/
theorem noted_of_run (hd : ctx.schemas.Distinct)
    (h : (fragment ctx .root none true).run {} = (.ok root, s))
    (hl : s.processed.lookup id = some i) (hn : s.graph.get? i = some node)
    (hk : node.kind = .interface members supers) :
    ∃ ms isRoot, ctx.schemas.get? id = some (.object ms) ∧ Met ctx (· = .root) id node.key isRoot ∧
      ∀ entry ∈ namedMembers ms "patternProperties", ∃ c,
        Finds ctx s (below id ["patternProperties", entry.1]) c ∧
        (HasNote s.graph c
            (patternNote (caller ctx id (.object ms) isRoot node) entry.1) ∨
          c ≤ i ∧ LeadsBack ctx (below id ["patternProperties", entry.1]) id) := by
  have hempty := consistent_empty ctx (· = .root) []
  have hends := Ends.and (TypeGraph.runs_root ctx) (traces_fragment hd .root {} hempty rfl rfl)
  unfold Ends at hends
  rw [h] at hends
  obtain ⟨⟨hadv, -⟩, htells, -⟩ := hends
  obtain ⟨-, schema, isRoot, hget, hmet, hsigns⟩ :=
    htells.orderly (fun _ _ _ hl => nomatch hl) id i node hl hn
  obtain ⟨-, -, schema', hoccurs, hdescribes⟩ := hadv.consistent.processed id i hl
  obtain rfl := Option.some.inj (hget.symm.trans (hoccurs.get? hd))
  obtain ⟨ms, rfl, hform, -⟩ := (hk ▸ hdescribes node hn).interface
  exact ⟨ms, isRoot, hget, hmet, hsigns ms ⟨_, hget, hform⟩⟩

/-! ## A pattern that refers to its interface -/

def treePatterns : Members :=
  [("^a", .object [("$ref", .string "#")]), ("^b", .object [("type", .string "string")])]

/-- The schema of an interface with a pattern that refers to it. -/
def treeSchema : Json := .object [("patternProperties", .object treePatterns)]

/-- The members of that schema in normal form. -/
def treeMembers : Members :=
  [("patternProperties", .object treePatterns), ("required", .array []), ("title", .string "Root")]

def treeGraph (root : Json) : SchemaGraph where
  documents := [⟨none, root⟩]
  refs := [(⟨0, "#/patternProperties/^a", none⟩, .fragment .root)]
  maxDepth := 50

def treeContext : BuildContext where
  schemas := treeGraph (.object treeMembers)
  rootName := "Root"
  options := {}

theorem load_treeSchema :
    SchemaGraph.load noFiles {} none treeSchema = .ok (treeGraph treeSchema) := by
  cbv

theorem normalize_treeSchema : (treeGraph treeSchema).normalize "Root" = treeContext.schemas := by
  rfl

theorem distinct_treeSchema : treeSchema.Distinct := by
  simp [treeSchema, treePatterns, Json.Distinct, Json.DistinctMembers, Members.keys]

theorem distinct_treeContext : treeContext.schemas.Distinct := by
  rw [← normalize_treeSchema]
  exact (SchemaGraph.distinct_of_load load_treeSchema distinct_treeSchema).normalize "Root"

def treeNode : Node where
  kind := .interface [{ key := "^a", node := 0, required := false, pattern := true },
    { key := "^b", node := 1, required := false, pattern := true }, indexMember 2] []
  name := some "Root"

/-- What the build of that schema leaves behind: the note is on the string alone. -/
def treeBuilder : Builder where
  graph := ⟨#[some treeNode,
    some { kind := .string, key := some "^b", comment := some (patternNote "Root" "^b") },
    some { kind := .any }], 0⟩
  processed := [(⟨0, "#/patternProperties/^b", none⟩, 1), (.root, 0)]
  usedNames := ["Root"]
  needsName := [0]

theorem run_treeContext :
    (fragment treeContext .root none true).run {} = (.ok 0, treeBuilder) := by
  have hroot : treeContext.schemas.resolve .root = .ok (.fragment .root) := by rfl
  have hback : treeContext.schemas.resolve (below .root ["patternProperties", "^a"]) =
      .ok (.fragment .root) := by rfl
  have hleaf : treeContext.schemas.resolve (below .root ["patternProperties", "^b"]) =
      .ok (.fragment (below .root ["patternProperties", "^b"])) := by rfl
  have hform : Schema.form treeContext.options.unreachableDefinitions (Fragment.root).variant
      (.object treeMembers) = .interface treeMembers := by rfl
  have hhint : nameHint treeContext .root (.object treeMembers) none true = some "Root" := by rfl
  refine run_of_ends ?_
  rw [ends_fragment (by rfl), ends_visit_new hroot rfl List.not_mem_nil, ends_build_named hhint rfl,
    parts_eq, hform, partsOf, interface_of_reachable rfl,
    show namedMembers treeMembers "properties" = [] by rfl,
    show namedMembers treeMembers "patternProperties" = treePatterns by rfl, treePatterns]
  simp only [visitNamed, pure_bind, ends_bind]
  rw [ends_visit_seen hback rfl, appendComment, ends_modify, ends_visit_leaf hleaf rfl (by decide)
    rfl (mem_variants rfl _) (show _ = pure Kind.string by rfl) (by decide)]
  exact ⟨rfl, rfl⟩

/-- Each pattern of that interface has a note or leads back to the interface. -/
theorem noted_of_run_tree :
    treeContext.schemas.Distinct ∧
    (fragment treeContext .root none true).run {} = (.ok 0, treeBuilder) ∧
    treeBuilder.processed.lookup .root = some 0 ∧ treeBuilder.graph.get? 0 = some treeNode ∧
    ∃ ms isRoot, treeContext.schemas.get? .root = some (.object ms) ∧
      Met treeContext (· = .root) .root treeNode.key isRoot ∧
      ∀ entry ∈ namedMembers ms "patternProperties", ∃ c,
        Finds treeContext treeBuilder (below .root ["patternProperties", entry.1]) c ∧
        (HasNote treeBuilder.graph c
            (patternNote (caller treeContext .root (.object ms) isRoot treeNode) entry.1) ∨
          c ≤ 0 ∧ LeadsBack treeContext (below .root ["patternProperties", entry.1]) .root) :=
  ⟨distinct_treeContext, run_treeContext, rfl, rfl,
    noted_of_run distinct_treeContext run_treeContext rfl rfl rfl⟩

/-- The node of a pattern may have no note at all. -/
theorem exists_note_lost : ¬ ∀ (env : Environment) (options : Options) (location : Option FileUrl)
    (schema : Json) (g : SchemaGraph) (name : String) (root : NodeId) (s : Builder),
    schema.Distinct → SchemaGraph.load env options location schema = .ok g →
    (fragment ⟨g.normalize name, name, options⟩ .root none true).run {} = (.ok root, s) →
    ∀ id i node members supers ms, s.processed.lookup id = some i → s.graph.get? i = some node →
      node.kind = .interface members supers →
      (g.normalize name).get? id = some (.object ms) →
      ∀ entry ∈ namedMembers ms "patternProperties", ∃ c parent,
        Finds ⟨g.normalize name, name, options⟩ s (below id ["patternProperties", entry.1]) c ∧
          HasNote s.graph c (patternNote parent entry.1) := by
  intro h
  have hctx : (⟨(treeGraph treeSchema).normalize "Root", "Root", {}⟩ : BuildContext) =
      treeContext := by
    rw [normalize_treeSchema]
    rfl
  obtain ⟨c, parent, hfinds, hnote⟩ := h noFiles {} none treeSchema _ "Root" 0 treeBuilder
    distinct_treeSchema load_treeSchema (hctx ▸ run_treeContext) .root 0 treeNode _ _ treeMembers
    rfl rfl rfl (normalize_treeSchema ▸ rfl) ("^a", .object [("$ref", .string "#")])
    List.mem_cons_self
  rw [hctx] at hfinds
  -- the pattern refers to the interface, which has no comment
  have hback : treeContext.schemas.resolve (below .root ["patternProperties", "^a"]) =
      .ok (.fragment .root) := by rfl
  rw [Finds, hback] at hfinds
  obtain rfl : 0 = c := Option.some.inj hfinds
  obtain ⟨node, comment, hn, hcomment, -⟩ := hnote
  obtain rfl : treeNode = node := Option.some.inj hn
  cases hcomment

end Build

end Typewright
